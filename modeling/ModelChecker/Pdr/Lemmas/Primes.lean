import ModelChecker.Pdr.Encode

/-!
# Primed variables

The map of primed gates only grows, gives different gates different variables and never reuses a
variable of the unprimed circuit. Hence two valuations, one for each time step, can be joined into one
assignment (`joint`).
-/

namespace ModelChecker

open Logic

variable {A : Circuit} {P P' P'' : Primes}

/-- The map sends gates to distinct variables behind the primed inputs and latches. -/
structure Primes.Ok (A : Circuit) (P : Primes) : Prop where
  size_le : A.primed_first_dimacs + A.num_inputs + A.num_latches ≤ P.size
  keys : ∀ e ∈ P.map_to_prime, A.first_and ≤ e.1 ∧ e.1 ≤ A.max_var
  vals : ∀ e ∈ P.map_to_prime,
    A.primed_first_dimacs + A.num_inputs + A.num_latches ≤ e.2 ∧ e.2 < P.size
  distinct : P.map_to_prime.Pairwise fun a b => a.1 ≠ b.1 ∧ a.2 ≠ b.2

/-- The variable has a primed copy already. -/
def Primes.Has (A : Circuit) (P : Primes) (u : Nat) : Prop :=
  u < A.first_and ∨ ∃ v, P.map_to_prime.lookup u = some v

/-- `P'` was reached from `P`. -/
structure Primes.Ext (P P' : Primes) : Prop where
  size : P.size ≤ P'.size
  lookup : ∀ u v, P.map_to_prime.lookup u = some v → P'.map_to_prime.lookup u = some v

/-- The primed copy of a variable and of a literal. -/
def primeOf (A : Circuit) (P : Primes) (u : Nat) : Nat := (A.prime_var P u).1

def primeLit (A : Circuit) (P : Primes) (l : Int) : Int := (A.prime_lit P l).1

theorem Primes.Ext.refl (P : Primes) : P.Ext P := ⟨le_rfl, fun _ _ h => h⟩

theorem Primes.Ext.trans (h : P.Ext P') (h' : P'.Ext P'') : P.Ext P'' :=
  ⟨h.size.trans h'.size, fun u v hu => h'.lookup u v (h.lookup u v hu)⟩

theorem Primes.Has.ext {u : Nat} (h : P.Has A u) (he : P.Ext P') : P'.Has A u := by
  rcases h with h | ⟨v, hv⟩
  · exact Or.inl h
  · exact Or.inr ⟨v, he.lookup u v hv⟩

theorem small_iff {u : Nat} : u ≤ 1 + A.num_inputs + A.num_latches ↔ u < A.first_and := by
  unfold Aiger.first_and; omega

theorem primeOf_leaf {u : Nat} (h2 : 2 ≤ u) (h : u < A.first_and) :
    primeOf A P u = A.primed_first_dimacs + u - 2 := by
  unfold primeOf Aiger.prime_var
  rw [if_pos (by omega), if_pos (small_iff.mpr h)]

theorem primeOf_one : primeOf A P 1 = 1 := by
  simp [primeOf, Aiger.prime_var]

theorem primeOf_gate {u v : Nat} (h : A.first_and ≤ u) (hl : P.map_to_prime.lookup u = some v) :
    primeOf A P u = v := by
  unfold primeOf Aiger.prime_var
  rw [if_pos (by unfold Aiger.first_and at h; omega), if_neg (by rw [small_iff]; omega), hl]

/-- Asking for an existing copy changes nothing. -/
theorem prime_var_of_has {u : Nat} (h : P.Has A u) : (A.prime_var P u).2 = P := by
  unfold Aiger.prime_var
  split
  · split
    · rfl
    · rename_i h1 h2
      rcases h with h | ⟨v, hv⟩
      · exact absurd (small_iff.mpr h) h2
      · rw [hv]
  · rfl

theorem primeOf_ext {u : Nat} (h : P.Has A u) (he : P.Ext P') : primeOf A P' u = primeOf A P u := by
  by_cases hs : u < A.first_and
  · by_cases h2 : 2 ≤ u
    · rw [primeOf_leaf h2 hs, primeOf_leaf h2 hs]
    · unfold primeOf Aiger.prime_var
      rw [if_neg (by omega), if_neg (by omega)]
  · rcases h with h | ⟨v, hv⟩
    · exact absurd h hs
    · rw [primeOf_gate (by omega) hv, primeOf_gate (by omega) (he.lookup u v hv)]

theorem lookup_mem {l : List (Nat × Nat)} {u v : Nat} (h : l.lookup u = some v) : (u, v) ∈ l := by
  induction l with
  | nil => simp at h
  | cons e l ih =>
      obtain ⟨a, b⟩ := e
      rw [List.lookup_cons] at h
      by_cases hu : u = a
      · subst hu; simp at h; subst h; simp
      · have : (u == a) = false := by simpa using hu
        rw [this] at h
        exact List.mem_cons_of_mem _ (ih h)

theorem lookup_of_mem {l : List (Nat × Nat)} (hd : l.Pairwise fun a b => a.1 ≠ b.1 ∧ a.2 ≠ b.2)
    {u v : Nat} (h : (u, v) ∈ l) : l.lookup u = some v := by
  induction l with
  | nil => cases h
  | cons e l ih =>
      obtain ⟨he, hl⟩ := List.pairwise_cons.mp hd
      rcases List.mem_cons.mp h with rfl | h
      · simp
      · rw [List.lookup_cons]
        have : (u == e.1) = false := by simpa using fun hu => (he _ h).1 hu.symm
        rw [this]
        exact ih hl h

/-- What one call of `prime_var` does. -/
theorem prime_var_spec {u : Nat} (hP : P.Ok A) (hu : u ≤ A.max_var) :
    (A.prime_var P u).2.Ok A ∧ P.Ext (A.prime_var P u).2 ∧ (A.prime_var P u).2.Has A u ∧
      primeOf A (A.prime_var P u).2 u = (A.prime_var P u).1 := by
  by_cases hh : P.Has A u
  · rw [prime_var_of_has hh]
    exact ⟨hP, .refl P, hh, rfl⟩
  · -- a gate that has no copy yet
    have hge : A.first_and ≤ u := by
      by_contra h; exact hh (Or.inl (by omega))
    have hnone : P.map_to_prime.lookup u = none := by
      cases hl : P.map_to_prime.lookup u with
      | none => rfl
      | some v => exact absurd (Or.inr ⟨v, hl⟩) hh
    have heq : A.prime_var P u = (P.size, ⟨P.size + 1, (u, P.size) :: P.map_to_prime⟩) := by
      unfold Aiger.prime_var
      rw [if_pos (by unfold Aiger.first_and at hge; omega), if_neg (by rw [small_iff]; omega), hnone]
    have hfresh : ∀ e ∈ P.map_to_prime, u ≠ e.1 ∧ P.size ≠ e.2 := by
      intro e he
      constructor
      · rintro rfl
        rw [lookup_of_mem hP.distinct (v := e.2) he] at hnone
        cases hnone
      · have := (hP.vals e he).2; omega
    have hself : List.lookup u ((u, P.size) :: P.map_to_prime) = some P.size := by
      simp
    rw [heq]
    refine ⟨⟨?_, ?_, ?_, ?_⟩, ⟨?_, ?_⟩, Or.inr ⟨_, hself⟩, primeOf_gate hge hself⟩
    · have := hP.size_le; simp only; omega
    · intro e he
      rcases List.mem_cons.mp he with rfl | he
      · exact ⟨hge, hu⟩
      · exact hP.keys e he
    · intro e he
      rcases List.mem_cons.mp he with rfl | he
      · have := hP.size_le; simp only; omega
      · have := hP.vals e he; simp only; omega
    · exact List.pairwise_cons.mpr ⟨hfresh, hP.distinct⟩
    · simp
    · intro x v hx
      have hxu : (x == u) = false := by
        simpa using fun h => (hfresh _ (lookup_mem hx)).1 h.symm
      simp only [List.lookup_cons, hxu]
      exact hx

theorem primeOf_pos {u : Nat} (hP : P.Ok A) (hh : P.Has A u) (h1 : 1 ≤ u) : 1 ≤ primeOf A P u := by
  by_cases hs : u < A.first_and
  · by_cases h2 : 2 ≤ u
    · rw [primeOf_leaf h2 hs]; unfold Aiger.primed_first_dimacs; omega
    · obtain rfl : u = 1 := by omega
      rw [primeOf_one]
  · rcases hh with h | ⟨v, hv⟩
    · exact absurd h hs
    · rw [primeOf_gate (by omega) hv]
      have := (hP.vals _ (lookup_mem hv)).1
      simp only at this
      unfold Aiger.primed_first_dimacs at this
      omega

theorem primeLit_eq (l : Int) :
    primeLit A P l = if 0 ≤ l then (primeOf A P l.natAbs : Int) else -(primeOf A P l.natAbs : Int) := by
  unfold primeLit Aiger.prime_lit primeOf
  split <;> rfl

theorem prime_lit_snd (l : Int) : (A.prime_lit P l).2 = (A.prime_var P l.natAbs).2 := by
  unfold Aiger.prime_lit
  split <;> rfl

theorem primeLit_natAbs (l : Int) : (primeLit A P l).natAbs = primeOf A P l.natAbs := by
  rw [primeLit_eq]; split <;> simp

theorem primeLit_ext {l : Int} (h : P.Has A l.natAbs) (he : P.Ext P') :
    primeLit A P' l = primeLit A P l := by
  rw [primeLit_eq, primeLit_eq, primeOf_ext h he]

theorem primeLit_ne_zero {l : Int} (hP : P.Ok A) (hh : P.Has A l.natAbs) (h1 : l ≠ 0) :
    primeLit A P l ≠ 0 := by
  have := primeOf_pos hP hh (by omega)
  rw [← primeLit_natAbs] at this
  omega

theorem primeLit_neg {l : Int} (h : l ≠ 0) : primeLit A P (-l) = -primeLit A P l := by
  rw [primeLit_eq, primeLit_eq]
  rcases lt_or_gt_of_ne h with h | h
  · rw [if_pos (by omega), if_neg (by omega)]; simp
  · rw [if_neg (by omega), if_pos (by omega)]; simp

/-- What one call of `prime_lit` does. -/
theorem prime_lit_spec {l : Int} (hP : P.Ok A) (hl : A.LitOk l) :
    (A.prime_lit P l).2.Ok A ∧ P.Ext (A.prime_lit P l).2 ∧ (A.prime_lit P l).2.Has A l.natAbs ∧
      primeLit A (A.prime_lit P l).2 l = (A.prime_lit P l).1 := by
  obtain ⟨h1, h2, h3, h4⟩ := prime_var_spec hP hl.2
  rw [prime_lit_snd]
  refine ⟨h1, h2, h3, ?_⟩
  rw [primeLit_eq, h4]
  unfold Aiger.prime_lit
  split <;> rfl

theorem prime_lit_of_has {l : Int} (h : P.Has A l.natAbs) : (A.prime_lit P l).2 = P := by
  rw [prime_lit_snd, prime_var_of_has h]

/-- Latches and inputs are primed by a shift. -/
theorem primeLit_leaf {l : Int} (h2 : 2 ≤ l.natAbs) (h : l.natAbs < A.first_and) :
    primeLit A P l = if 0 ≤ l then l + (A.primed_first_dimacs - 2 : Int)
      else l - (A.primed_first_dimacs - 2 : Int) := by
  rw [primeLit_eq, primeOf_leaf h2 h]
  have : A.primed_first_dimacs ≥ 2 := by
    unfold Aiger.primed_first_dimacs Aiger.max_var; unfold Aiger.first_and at h; omega
  split <;> omega

/-! ## Reading the primed copy -/

/-- The valuation of the second time step in an assignment. -/
def unprimed (A : Circuit) (P : Primes) (σ : Assignment) : Assignment := fun u => σ (primeOf A P u)

theorem litVal_primeLit (σ : Assignment) {l : Int} (hP : P.Ok A) (hh : P.Has A l.natAbs) (h : l ≠ 0) :
    litVal σ (primeLit A P l) = litVal (unprimed A P σ) l := by
  have hpos := primeOf_pos hP hh (by omega)
  rw [primeLit_eq]
  unfold litVal unprimed
  by_cases hl : l < 0
  · have h1 : ¬ (0 : Int) ≤ l := by omega
    have h2 : primeOf A P l.natAbs ≠ 0 := by omega
    simp [h1, hl, h2]
  · have h1 : (0 : Int) ≤ l := by omega
    simp [h1, hl]

/-! ## Joining two time steps -/

def Primes.unprime (P : Primes) (v : Nat) : Option Nat :=
  (P.map_to_prime.find? fun e => e.2 == v).map Prod.fst

/-- The assignment that has the values of `w` on the circuit and those of `w'` on its primed copy. -/
def joint (A : Circuit) (P : Primes) (w w' : Assignment) : Assignment := fun v =>
  if v ≤ A.max_var then A.eval w v
  else if v < A.primed_first_dimacs + A.num_inputs + A.num_latches then
    A.eval w' (v - A.primed_first_dimacs + 2)
  else
    match P.unprime v with
    | some u => A.eval w' u
    | none => false

theorem joint_of_le {w w' : Assignment} {v : Nat} (h : v ≤ A.max_var) :
    joint A P w w' v = A.eval w v := by
  simp [joint, h]

theorem unprime_of_lookup (hP : P.Ok A) {u v : Nat} (h : P.map_to_prime.lookup u = some v) :
    P.unprime v = some u := by
  have hmem := lookup_mem h
  unfold Primes.unprime
  obtain ⟨e, he⟩ : ∃ e, P.map_to_prime.find? (fun e => e.2 == v) = some e := by
    cases hf : P.map_to_prime.find? (fun e => e.2 == v) with
    | none =>
        have := List.find?_eq_none.mp hf (u, v) hmem
        simp at this
    | some e => exact ⟨e, rfl⟩
  rw [he]
  have hev : e.2 = v := by simpa using List.find?_some he
  have hem := List.mem_of_find?_eq_some he
  -- two entries with the same variable are the same entry
  by_contra hne
  have hdiff : e ≠ (u, v) := fun h => hne (by simp [h])
  have : Std.Symm fun a b : Nat × Nat => a.1 ≠ b.1 ∧ a.2 ≠ b.2 := ⟨fun _ _ h => ⟨h.1.symm, h.2.symm⟩⟩
  have hall := hP.distinct.forall hem hmem hdiff
  exact hall.2 hev

theorem joint_primeOf (hP : P.Ok A) {w w' : Assignment} {u : Nat} (h1 : 1 ≤ u)
    (hh : P.Has A u) : joint A P w w' (primeOf A P u) = A.eval w' u := by
  by_cases hs : u < A.first_and
  · by_cases h2 : 2 ≤ u
    · have hlt := hs
      unfold Aiger.first_and at hlt
      rw [primeOf_leaf h2 hs]
      unfold joint
      rw [if_neg (by unfold Aiger.primed_first_dimacs; omega), if_pos (by omega)]
      congr 1
      omega
    · obtain rfl : u = 1 := by omega
      rw [primeOf_one, joint_of_le (by unfold Aiger.max_var; omega)]
      simp
  · rcases hh with h | ⟨v, hv⟩
    · exact absurd h hs
    · rw [primeOf_gate (by omega) hv]
      have hrange := (hP.vals _ (lookup_mem hv)).1
      simp only at hrange
      unfold joint
      rw [if_neg (by unfold Aiger.primed_first_dimacs at hrange; omega), if_neg (by omega),
        unprime_of_lookup hP hv]

theorem litVal_joint {w w' : Assignment} {l : Int} (hl : A.LitOk l) :
    litVal (joint A P w w') l = A.val w l :=
  litVal_congr (joint_of_le hl.2)

theorem litVal_joint_prime (hP : P.Ok A) {w w' : Assignment} {l : Int} (hl : A.LitOk l)
    (hh : P.Has A l.natAbs) : litVal (joint A P w w') (primeLit A P l) = A.val w' l := by
  rw [litVal_primeLit _ hP hh (by have := hl.1; omega)]
  exact litVal_congr (joint_primeOf hP hl.1 hh)

end ModelChecker
