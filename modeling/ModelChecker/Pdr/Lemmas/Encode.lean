import ModelChecker.Pdr.Lemmas.Primes

/-!
# The encodings are exact

`gatePass_spec` says what the backward loop emits: the clauses of the gates in the cone of `lit_set`
and the primed clauses of the gates in the cone of `prime_lit_set`. From it, an assignment satisfies
the transition clauses just when it describes a transition (`transition_sound`, `transition_complete`).
-/

namespace ModelChecker

open Logic

variable {A : Circuit} {P : Primes}

/-! ## Literals of the circuit -/

theorem litOk_o {a : AndGate} (ha : a ∈ A.ands) : A.LitOk (a.o : Int) := by
  have := Circuit.o_range ha
  have := A.topo.one_lt ha
  exact ⟨by omega, by omega⟩

theorem litOk_i1 {a : AndGate} (ha : a ∈ A.ands) : A.LitOk a.i1 := by
  have := Circuit.o_range ha
  have := A.wf.fanin1 a ha
  exact ⟨by omega, by omega⟩

theorem litOk_i2 {a : AndGate} (ha : a ∈ A.ands) : A.LitOk a.i2 := by
  have := Circuit.o_range ha
  have := A.wf.fanin2 a ha
  exact ⟨by omega, by omega⟩

theorem LitOk.ne_zero {l : Int} (h : A.LitOk l) : l ≠ 0 := by
  have := h.1; omega

theorem litOk_of_latch {l : Int} (h : A.IsLatch l.natAbs) : A.LitOk l := by
  obtain ⟨h1, h2⟩ := h
  have := A.first_and_le_max
  exact ⟨by omega, by omega⟩

theorem litOk_latch {i : Nat} (h : i < A.num_latches) : A.LitOk (A.latch i : Int) :=
  litOk_of_latch (by rw [Int.natAbs_natCast]; exact Circuit.isLatch_latch h)

/-! ## The backward loop -/

/-- The clauses of the primed copy of a gate. -/
def primedClauses (A : Circuit) (P : Primes) (a : AndGate) : Cnf :=
  andClauses (primeLit A P a.o) (primeLit A P a.i1) (primeLit A P a.i2)

/-- The output and the fan-ins of a gate have primed copies. -/
structure Primes.HasGate (A : Circuit) (P : Primes) (a : AndGate) : Prop where
  o : P.Has A a.o
  i1 : P.Has A a.i1.natAbs
  i2 : P.Has A a.i2.natAbs

theorem Primes.HasGate.ext {P P' : Primes} {a : AndGate} (h : P.HasGate A a) (he : P.Ext P') :
    P'.HasGate A a :=
  ⟨h.o.ext he, h.i1.ext he, h.i2.ext he⟩

theorem primedClauses_ext {P P' : Primes} {a : AndGate} (h : P.HasGate A a) (he : P.Ext P') :
    primedClauses A P' a = primedClauses A P a := by
  unfold primedClauses
  rw [primeLit_ext (by simpa using h.o) he, primeLit_ext h.i1 he, primeLit_ext h.i2 he]

/-- Priming the three literals of a gate. -/
def primeGate (A : Circuit) (P : Primes) (a : AndGate) : Primes :=
  (A.prime_lit (A.prime_lit (A.prime_lit P a.o).2 a.i1).2 a.i2).2

theorem primeGate_spec (hP : P.Ok A) {a : AndGate} (ha : a ∈ A.ands) :
    (primeGate A P a).Ok A ∧ P.Ext (primeGate A P a) ∧ (primeGate A P a).HasGate A a ∧
      andClauses (A.prime_lit P a.o).1 (A.prime_lit (A.prime_lit P a.o).2 a.i1).1
        (A.prime_lit (A.prime_lit (A.prime_lit P a.o).2 a.i1).2 a.i2).1 =
          primedClauses A (primeGate A P a) a := by
  obtain ⟨ok1, ext1, has1, eq1⟩ := prime_lit_spec hP (litOk_o ha)
  obtain ⟨ok2, ext2, has2, eq2⟩ := prime_lit_spec ok1 (litOk_i1 ha)
  obtain ⟨ok3, ext3, has3, eq3⟩ := prime_lit_spec ok2 (litOk_i2 ha)
  refine ⟨ok3, ext1.trans (ext2.trans ext3), ⟨?_, has2.ext ext3, has3⟩, ?_⟩
  · have := has1.ext (ext2.trans ext3)
    rwa [Int.natAbs_natCast] at this
  · unfold primedClauses primeGate
    rw [primeLit_ext has1 (ext2.trans ext3), eq1, primeLit_ext has2 ext3, eq2, eq3]

theorem primeGate_of_has {a : AndGate} (h : P.HasGate A a) : primeGate A P a = P := by
  unfold primeGate
  rw [prime_lit_of_has (l := a.o) (by simpa using h.o), prime_lit_of_has h.i1, prime_lit_of_has h.i2]

/-- The three cases of one iteration. -/
theorem gatePass_eq (s : Aiger.GatePass) (a : AndGate) :
    A.gatePass s a =
      if a.o ∈ s.lit_set then
        if a.o ∈ s.prime_lit_set then
          ⟨a.i2.natAbs :: a.i1.natAbs :: s.lit_set, a.i2.natAbs :: a.i1.natAbs :: s.prime_lit_set,
            primeGate A s.primes a,
            s.out ++ a.clauses ++ andClauses (A.prime_lit s.primes a.o).1
              (A.prime_lit (A.prime_lit s.primes a.o).2 a.i1).1
              (A.prime_lit (A.prime_lit (A.prime_lit s.primes a.o).2 a.i1).2 a.i2).1⟩
        else ⟨a.i2.natAbs :: a.i1.natAbs :: s.lit_set, s.prime_lit_set, s.primes, s.out ++ a.clauses⟩
      else s := by
  unfold Aiger.gatePass primeGate
  rfl

/-- What the loop over `rev` has added when it goes from `s` to `t`. -/
structure PassSpec (A : Circuit) (s : Aiger.GatePass) (rev : List AndGate) (t : Aiger.GatePass) :
    Prop where
  ok : t.primes.Ok A
  ext : s.primes.Ext t.primes
  has : ∀ a ∈ coneGates s.prime_lit_set rev, t.primes.HasGate A a
  same : (∀ a ∈ coneGates s.prime_lit_set rev, s.primes.HasGate A a) → t.primes = s.primes
  out : ∃ rest, t.out = s.out ++ rest ∧
    (∀ σ, CnfSat σ rest ↔ (∀ a ∈ coneGates s.lit_set rev, CnfSat σ a.clauses) ∧
      ∀ a ∈ coneGates s.prime_lit_set rev, CnfSat σ (primedClauses A t.primes a)) ∧
    (∀ c ∈ rest, NonZero c) ∧
    (∀ n, s.primes.size ≤ n + 1 → (∀ c ∈ rest, VarsLe n c) → t.primes.size ≤ n + 1)

theorem nonZero_clauses {a : AndGate} (ha : a ∈ A.ands) : ∀ c ∈ a.clauses, NonZero c :=
  A.topo.nonZero_clauses ha

theorem nonZero_primedClauses (hP : P.Ok A) {a : AndGate} (ha : a ∈ A.ands) (hh : P.HasGate A a) :
    ∀ c ∈ primedClauses A P a, NonZero c :=
  nonZero_andClauses (primeLit_ne_zero hP (by simpa using hh.o) (LitOk.ne_zero (litOk_o ha)))
    (primeLit_ne_zero hP hh.i1 (LitOk.ne_zero (litOk_i1 ha)))
    (primeLit_ne_zero hP hh.i2 (LitOk.ne_zero (litOk_i2 ha)))

/-- A new copy takes the last variable, so the size is one more than a variable in use. -/
theorem prime_lit_size (l : Int) :
    (A.prime_lit P l).2.size = P.size ∨
      (A.prime_lit P l).2.size = (A.prime_lit P l).1.natAbs + 1 := by
  rw [prime_lit_snd, show (A.prime_lit P l).1.natAbs = (A.prime_var P l.natAbs).1 from
    primeLit_natAbs l]
  unfold Aiger.prime_var
  split
  · split
    · exact Or.inl rfl
    · split
      · exact Or.inr rfl
      · exact Or.inl rfl
  · exact Or.inl rfl

theorem varsLe_andClauses {o i1 i2 : Int} {n : Nat} (h : ∀ c ∈ andClauses o i1 i2, VarsLe n c) :
    o.natAbs ≤ n ∧ i1.natAbs ≤ n ∧ i2.natAbs ≤ n := by
  have h3 := h [o, -i1, -i2] (by simp [andClauses])
  refine ⟨h3 o (by simp), ?_, ?_⟩
  · simpa using h3 (-i1) (by simp)
  · simpa using h3 (-i2) (by simp)

theorem primeGate_size {a : AndGate} {n : Nat} (hn : P.size ≤ n + 1)
    (hv : ∀ c ∈ andClauses (A.prime_lit P a.o).1 (A.prime_lit (A.prime_lit P a.o).2 a.i1).1
      (A.prime_lit (A.prime_lit (A.prime_lit P a.o).2 a.i1).2 a.i2).1, VarsLe n c) :
    (primeGate A P a).size ≤ n + 1 := by
  obtain ⟨h1, h2, h3⟩ := varsLe_andClauses hv
  unfold primeGate
  rcases prime_lit_size (A := A) (P := P) a.o with e1 | e1 <;>
    rcases prime_lit_size (A := A) (P := (A.prime_lit P a.o).2) a.i1 with e2 | e2 <;>
    rcases prime_lit_size (A := A) (P := (A.prime_lit (A.prime_lit P a.o).2 a.i1).2) a.i2 with e3 | e3 <;>
    omega

section Pass

variable {s : Aiger.GatePass} {rev : List AndGate} {a : AndGate}

/-- The gate outside both cones. -/
theorem PassSpec.skip (hspec : PassSpec A s rev (rev.foldl A.gatePass s)) (hl : a.o ∉ s.lit_set)
    (hp : a.o ∉ s.prime_lit_set) : PassSpec A s (a :: rev) ((a :: rev).foldl A.gatePass s) := by
  rw [List.foldl_cons, gatePass_eq, if_neg hl]
  have hplist := coneGates_of_notMem hp rev
  exact ⟨hspec.ok, hspec.ext, by rw [hplist]; exact hspec.has, by rw [hplist]; exact hspec.same,
    by rw [coneGates_of_notMem hl, hplist]; exact hspec.out⟩

/-- The gate alone. -/
theorem PassSpec.plain {t : Aiger.GatePass} (ha : a ∈ A.ands) (hl : a.o ∈ s.lit_set)
    (hp : a.o ∉ s.prime_lit_set)
    (hspec : PassSpec A ⟨a.i2.natAbs :: a.i1.natAbs :: s.lit_set, s.prime_lit_set, s.primes,
      s.out ++ a.clauses⟩ rev t) : PassSpec A s (a :: rev) t := by
  have hplist := coneGates_of_notMem hp rev
  obtain ⟨rest, hout, hsat, hnz, hsize⟩ := hspec.out
  refine ⟨hspec.ok, hspec.ext, by rw [hplist]; exact hspec.has,
    by rw [hplist]; exact hspec.same, a.clauses ++ rest, ?_, ?_, ?_, ?_⟩
  · rw [hout]; simp [List.append_assoc]
  · intro σ
    rw [cnfSat_append, hsat σ, coneGates_of_mem hl, hplist]
    simp only [List.forall_mem_cons]
    tauto
  · intro c hc
    rcases List.mem_append.mp hc with hc | hc
    · exact nonZero_clauses ha c hc
    · exact hnz c hc
  · exact fun n hn hv => hsize n hn fun c hc => hv c (List.mem_append_right _ hc)

/-- The gate and its primed copy. -/
theorem PassSpec.primed {t : Aiger.GatePass} (hP : s.primes.Ok A) (ha : a ∈ A.ands)
    (hl : a.o ∈ s.lit_set) (hp : a.o ∈ s.prime_lit_set)
    (hspec : PassSpec A ⟨a.i2.natAbs :: a.i1.natAbs :: s.lit_set,
      a.i2.natAbs :: a.i1.natAbs :: s.prime_lit_set, primeGate A s.primes a,
      s.out ++ a.clauses ++ andClauses (A.prime_lit s.primes a.o).1
        (A.prime_lit (A.prime_lit s.primes a.o).2 a.i1).1
        (A.prime_lit (A.prime_lit (A.prime_lit s.primes a.o).2 a.i1).2 a.i2).1⟩ rev t) :
    PassSpec A s (a :: rev) t := by
  obtain ⟨ok, ext, has, heq⟩ := primeGate_spec hP ha
  have hplist := coneGates_of_mem hp rev
  obtain ⟨rest, hout, hsat, hnz, hsize⟩ := hspec.out
  refine ⟨hspec.ok, ext.trans hspec.ext, ?_, ?_,
    a.clauses ++ primedClauses A (primeGate A s.primes a) a ++ rest, ?_, ?_, ?_, ?_⟩
  · intro b hb
    rw [hplist] at hb
    rcases List.mem_cons.mp hb with rfl | hb
    · exact has.ext hspec.ext
    · exact hspec.has b hb
  · intro hall
    rw [hplist] at hall
    have h0 := primeGate_of_has (hall a List.mem_cons_self)
    rw [hspec.same fun b hb => ?_]
    · exact h0
    · simp only [h0]; exact hall b (List.mem_cons_of_mem _ hb)
  · rw [hout, heq]; simp [List.append_assoc]
  · intro σ
    rw [cnfSat_append, cnfSat_append, hsat σ, coneGates_of_mem hl, hplist]
    simp only [List.forall_mem_cons]
    rw [primedClauses_ext has hspec.ext]
    tauto
  · intro c hc
    rcases List.mem_append.mp hc with hc | hc
    · rcases List.mem_append.mp hc with hc | hc
      · exact nonZero_clauses ha c hc
      · exact nonZero_primedClauses ok ha has c hc
    · exact hnz c hc
  · intro n hn hv
    refine hsize n (primeGate_size hn fun c hc => hv c ?_) fun c hc =>
      hv c (List.mem_append_right _ hc)
    rw [heq] at hc
    exact List.mem_append_left _ (List.mem_append_right _ hc)

end Pass

theorem gatePass_spec {rev : List AndGate} (hin : ∀ a ∈ rev, a ∈ A.ands) {s : Aiger.GatePass}
    (hP : s.primes.Ok A) (hsub : s.prime_lit_set ⊆ s.lit_set) :
    PassSpec A s rev (rev.foldl A.gatePass s) := by
  induction rev generalizing s with
  | nil =>
      refine ⟨hP, .refl _, fun a ha => by simp [coneGates] at ha, fun _ => rfl, [], by simp, ?_, ?_, ?_⟩
      · intro σ; simp [coneGates]
      · intro c hc; cases hc
      · exact fun n hn _ => hn
  | cons a rev ih =>
      have ha := hin a List.mem_cons_self
      have hin' := fun b hb => hin b (List.mem_cons_of_mem a hb)
      by_cases hl : a.o ∈ s.lit_set
      · rw [List.foldl_cons, gatePass_eq, if_pos hl]
        by_cases hp : a.o ∈ s.prime_lit_set
        · rw [if_pos hp]
          obtain ⟨ok, -⟩ := primeGate_spec hP ha
          exact .primed hP ha hl hp
            (ih hin' ok (List.cons_subset_cons _ (List.cons_subset_cons _ hsub)))
        · rw [if_neg hp]
          exact .plain ha hl hp (ih hin' hP fun v hv => by simp [hsub hv])
      · exact (ih hin' hP hsub).skip hl fun h => hl (hsub h)

/-! ## `bad_prime` and `constraints_prime` -/

theorem prime_lits_spec (hP : P.Ok A) {ls : List Int} (hls : ∀ l ∈ ls, A.LitOk l) :
    (A.prime_lits P ls).2.Ok A ∧ P.Ext (A.prime_lits P ls).2 ∧
      (∀ l ∈ ls, (A.prime_lits P ls).2.Has A l.natAbs) ∧
      (A.prime_lits P ls).1 = ls.map (primeLit A (A.prime_lits P ls).2) := by
  induction ls generalizing P with
  | nil => exact ⟨hP, .refl P, by simp, rfl⟩
  | cons l ls ih =>
      obtain ⟨ok1, ext1, has1, eq1⟩ := prime_lit_spec hP (hls l List.mem_cons_self)
      obtain ⟨ok2, ext2, has2, eq2⟩ := ih ok1 fun m hm => hls m (List.mem_cons_of_mem _ hm)
      refine ⟨ok2, ext1.trans ext2, ?_, ?_⟩
      · intro m hm
        rcases List.mem_cons.mp hm with rfl | hm
        · exact has1.ext ext2
        · exact has2 m hm
      · show (A.prime_lit P l).1 :: (A.prime_lits (A.prime_lit P l).2 ls).1 =
          primeLit A (A.prime_lits (A.prime_lit P l).2 ls).2 l ::
            ls.map (primeLit A (A.prime_lits (A.prime_lit P l).2 ls).2)
        rw [eq2, primeLit_ext has1 ext2, eq1]

/-- The map after `PDR::translate_to_dimacs`. -/
def primes0 (A : Circuit) : Primes := A.translate_to_prime.2.2

/-- Copies of the bad literal and of the constraints. -/
structure Primes.Roots (A : Circuit) (P : Primes) : Prop where
  ok : P.Ok A
  bad : P.Has A A.bad.natAbs
  cons : ∀ l ∈ A.constraints, P.Has A l.natAbs

theorem Primes.Roots.ext {P P' : Primes} (h : P.Roots A) (hok : P'.Ok A) (he : P.Ext P') :
    P'.Roots A :=
  ⟨hok, h.bad.ext he, fun l hl => (h.cons l hl).ext he⟩

theorem translate_to_prime_spec :
    (primes0 A).Roots A ∧ A.translate_to_prime.1 = primeLit A (primes0 A) A.bad ∧
      A.translate_to_prime.2.1 = A.constraints.map (primeLit A (primes0 A)) := by
  have hP : Primes.Ok A ⟨A.primed_first_dimacs + A.num_inputs + A.num_latches, []⟩ :=
    ⟨le_rfl, by simp, by simp, by simp⟩
  obtain ⟨ok1, ext1, has1, eq1⟩ := prime_lit_spec hP A.wf.bad_ok
  obtain ⟨ok2, ext2, has2, eq2⟩ := prime_lits_spec ok1 A.wf.constraints_ok
  refine ⟨⟨ok2, has1.ext ext2, has2⟩, ?_, eq2⟩
  show _ = primeLit A (A.prime_lits (A.prime_lit _ A.bad).2 A.constraints).2 A.bad
  rw [primeLit_ext has1 ext2, eq1]
  rfl

/-! ## Transitions -/

theorem mem_primeRoots {l : Int} (h : l = A.bad ∨ l ∈ A.constraints) : l.natAbs ∈ A.primeRoots := by
  rcases h with rfl | h
  · exact List.mem_cons_self
  · exact List.mem_cons_of_mem _ (List.mem_map_of_mem h)

theorem Primes.has_of_small {u : Nat} (h : u < A.first_and) : P.Has A u := Or.inl h

theorem Primes.has_latch {i : Nat} (h : i < A.num_latches) : P.Has A (A.latch i) :=
  Or.inl (Circuit.isLatch_latch h).2

/-- What the two time steps of an assignment must satisfy. -/
structure IsTransition (A : Circuit) (cons : Bool) (w w' : Assignment) : Prop where
  notBad : ¬ A.system.Bad w
  cons : cons = true → A.system.Cons w
  next : A.system.Next w w'

/-- The circuit literals an encoding fixes in `σ`, before and after the step. -/
structure Fixes (A : Circuit) (P : Primes) (σ : Assignment) : Prop where
  bad : litVal σ A.bad = A.val σ A.bad
  cons : ∀ l ∈ A.constraints, litVal σ l = A.val σ l
  bad' : litVal σ (primeLit A P A.bad) = A.val (unprimed A P σ) A.bad
  cons' : ∀ l ∈ A.constraints, litVal σ (primeLit A P l) = A.val (unprimed A P σ) l

theorem latchClauses_iff {σ : Assignment} (hP : P.Ok A) :
    CnfSat σ (A.latchClauses P) ↔
      ∀ i, i < A.num_latches → unprimed A P σ (A.latch i) = litVal σ (A.nexts.getD i 1) := by
  unfold Aiger.latchClauses
  rw [cnfSat_flatMap]
  simp only [List.mem_range]
  refine forall_congr' fun i => forall_congr' fun hi => ?_
  have hlit := litOk_latch hi
  have hhas : P.Has A (A.latch i : Int).natAbs := by
    rw [Int.natAbs_natCast]; exact Primes.has_latch hi
  have hpl : (A.prime_lit P (A.latch i)).1 = primeLit A P (A.latch i) := rfl
  have hne := primeLit_ne_zero hP hhas (LitOk.ne_zero hlit)
  have hnx := LitOk.ne_zero (Circuit.next_ok hi)
  have hval : litVal σ (primeLit A P (A.latch i)) = unprimed A P σ (A.latch i) := by
    rw [litVal_primeLit σ hP hhas (LitOk.ne_zero hlit), litVal_natCast]
  simp only [hpl, cnfSat_cons, clauseSat_cons, cnfSat_nil, and_true, clauseSat_nil, or_false,
    litVal_neg_eq_true hne, litVal_neg_eq_true hnx, hval]
  cases unprimed A P σ (A.latch i) <;> cases litVal σ (A.nexts.getD i 1) <;> simp

theorem cnfSat_primed {σ : Assignment} (hP : P.Ok A) {a : AndGate} (ha : a ∈ A.ands)
    (hh : P.HasGate A a) :
    CnfSat σ (primedClauses A P a) ↔ GateHolds (unprimed A P σ) a := by
  have ho : P.Has A (a.o : Int).natAbs := by simpa using hh.o
  have n0 := LitOk.ne_zero (litOk_o ha)
  have n1 := LitOk.ne_zero (litOk_i1 ha)
  have n2 := LitOk.ne_zero (litOk_i2 ha)
  unfold primedClauses
  rw [cnfSat_andClauses (primeLit_ne_zero hP ho n0) (primeLit_ne_zero hP hh.i1 n1)
    (primeLit_ne_zero hP hh.i2 n2), litVal_primeLit σ hP ho n0, litVal_primeLit σ hP hh.i1 n1,
    litVal_primeLit σ hP hh.i2 n2, litVal_natCast]
  rfl

variable (cons : Bool)

theorem transition_pass (hP : P.Ok A) :
    PassSpec A (A.passStart cons P) A.ands.reverse
      (A.ands.reverse.foldl A.gatePass (A.passStart cons P)) :=
  gatePass_spec (fun _ ha => List.mem_reverse.mp ha) hP fun _ hv => List.mem_append_right _ hv

theorem transition_ok (hP : P.Ok A) : (A.transition cons P).2.Ok A := (transition_pass cons hP).ok

theorem transition_ext (hP : P.Ok A) : P.Ext (A.transition cons P).2 := (transition_pass cons hP).ext

theorem transition_has (hP : P.Ok A) {a : AndGate} (ha : a ∈ coneGates A.primeRoots A.ands.reverse) :
    (A.transition cons P).2.HasGate A a :=
  (transition_pass cons hP).has a ha

/-- The emitted clauses: the head, and the gates of the two cones. -/
theorem transition_out (hP : P.Ok A) :
    ∃ rest, (A.transition cons P).1 = (A.passStart cons P).out ++ rest ∧
      ∀ σ, CnfSat σ rest ↔
        (∀ a ∈ coneGates (A.nexts.map Int.natAbs ++ A.primeRoots) A.ands.reverse,
          CnfSat σ a.clauses) ∧
        ∀ a ∈ coneGates A.primeRoots A.ands.reverse,
          CnfSat σ (primedClauses A (A.transition cons P).2 a) := by
  obtain ⟨rest, hout, hsat, _, _⟩ := (transition_pass cons hP).out
  exact ⟨rest, hout, hsat⟩

/-- An assignment of the transition clauses describes a transition. -/
theorem transition_sound (hP : P.Roots A) {σ : Assignment} (h : CnfSat σ (A.transition cons P).1) :
    IsTransition A cons σ (unprimed A (A.transition cons P).2 σ) ∧
      Fixes A (A.transition cons P).2 σ := by
  obtain ⟨rest, hout, hsat⟩ := transition_out cons hP.ok
  have hext := transition_ext cons hP.ok
  have hroots := hP.ext (transition_ok cons hP.ok) hext
  rw [hout, cnfSat_append] at h
  obtain ⟨hhead, hrest⟩ := h
  unfold Aiger.passStart at hhead
  simp only [cnfSat_append, cnfSat_cons, clauseSat_singleton, cnfSat_nil, and_true] at hhead
  obtain ⟨⟨⟨hone, hbad⟩, hcons⟩, hlatch⟩ := hhead
  have h1 : σ 1 = false := by
    simpa [litVal] using (litVal_neg_eq_true (σ := σ) (l := 1) (by omega)).mp hone
  obtain ⟨hg, hpg⟩ := (hsat σ).mp hrest
  -- current time step: the roots have their circuit values
  have hval : ∀ l : Int, l.natAbs ∈ A.nexts.map Int.natAbs ++ A.primeRoots →
      litVal σ l = A.val σ l := by
    intro l hl
    refine litVal_congr (Circuit.cone_value h1 (fun a ha => ?_) hl)
    have hin := List.mem_reverse.mp (coneGates_subset _ _ ha)
    exact (cnfSat_gate A.topo hin).mp (hg a ha)
  -- next time step: the same for the primed roots
  have h1' : unprimed A (A.transition cons P).2 σ 1 = false := by
    unfold unprimed; rw [primeOf_one]; exact h1
  have hval' : ∀ l : Int, l = A.bad ∨ l ∈ A.constraints →
      litVal σ (primeLit A (A.transition cons P).2 l) =
        A.val (unprimed A (A.transition cons P).2 σ) l := by
    intro l hl
    have hok : A.LitOk l := by
      rcases hl with rfl | hl
      · exact A.wf.bad_ok
      · exact A.wf.constraints_ok l hl
    have hhas : (A.transition cons P).2.Has A l.natAbs := by
      rcases hl with rfl | hl
      · exact hroots.bad
      · exact hroots.cons l hl
    rw [litVal_primeLit σ hroots.ok hhas (LitOk.ne_zero hok)]
    refine litVal_congr (Circuit.cone_value h1' (fun a ha => ?_) (mem_primeRoots hl))
    have hin := List.mem_reverse.mp (coneGates_subset _ _ ha)
    exact (cnfSat_primed hroots.ok hin (transition_has cons hP.ok ha)).mp (hpg a ha)
  have hroot : ∀ l : Int, l = A.bad ∨ l ∈ A.constraints → litVal σ l = A.val σ l := fun l hl =>
    hval l (List.mem_append_right _ (mem_primeRoots hl))
  refine ⟨⟨?_, ?_, ?_⟩, ⟨hroot _ (.inl rfl), fun l hl => hroot l (.inr hl), hval' _ (.inl rfl),
    fun l hl => hval' l (.inr hl)⟩⟩
  · intro hb
    have : A.val σ A.bad = true := hb
    rw [← hroot _ (.inl rfl), (litVal_neg_eq_true (LitOk.ne_zero A.wf.bad_ok)).mp hbad] at this
    cases this
  · intro hc l hl
    rw [hc, if_pos rfl, cnfSat_units] at hcons
    rw [← hroot l (.inr hl)]
    exact hcons l hl
  · intro i hi
    have hleaf := (latchClauses_iff hP.ok).mp hlatch i hi
    have hsame : unprimed A (A.transition cons P).2 σ (A.latch i) = unprimed A P σ (A.latch i) := by
      unfold unprimed
      rw [primeOf_ext (Primes.has_latch hi) hext]
    rw [hsame, hleaf]
    have hin : i < A.nexts.length := by rw [A.wf.nexts_length]; exact hi
    refine hval _ (List.mem_append_left _ (List.mem_map_of_mem ?_))
    rw [List.getD_eq_getElem?_getD, List.getElem?_eq_getElem hin, Option.getD_some]
    exact List.getElem_mem hin

/-- Every transition satisfies the transition clauses. -/
theorem transition_complete (hP : P.Roots A) {w w' : Assignment} (h : IsTransition A cons w w') :
    CnfSat (joint A (A.transition cons P).2 w w') (A.transition cons P).1 := by
  obtain ⟨rest, hout, hsat⟩ := transition_out cons hP.ok
  have hok := transition_ok cons hP.ok
  set σ := joint A (A.transition cons P).2 w w' with hσ
  rw [hout, cnfSat_append]
  constructor
  · unfold Aiger.passStart
    simp only [cnfSat_append, cnfSat_cons, clauseSat_singleton, cnfSat_nil, and_true]
    refine ⟨⟨⟨?_, ?_⟩, ?_⟩, ?_⟩
    · rw [litVal_neg_eq_true (by omega), hσ, litVal_joint (A := A) ⟨by simp, by
        unfold Aiger.max_var; simp⟩]
      exact Circuit.eval_one w
    · rw [litVal_neg_eq_true (LitOk.ne_zero A.wf.bad_ok), hσ, litVal_joint A.wf.bad_ok]
      exact Bool.not_eq_true _ ▸ h.notBad
    · cases hc : cons with
      | false => simp
      | true =>
          rw [if_pos rfl, cnfSat_units]
          intro l hl
          rw [hσ, litVal_joint (A.wf.constraints_ok l hl)]
          exact h.cons hc l hl
    · rw [latchClauses_iff hP.ok]
      intro i hi
      have hj : unprimed A P σ (A.latch i) = w' (A.latch i) := by
        unfold unprimed
        rw [← primeOf_ext (Primes.has_latch hi) (transition_ext cons hP.ok), hσ]
        refine (joint_primeOf hok ?_ (Primes.has_latch hi)).trans ?_
        · unfold Aiger.latch; omega
        · exact Circuit.eval_latch w' (Circuit.isLatch_latch hi)
      rw [hj, hσ, litVal_joint (Circuit.next_ok hi)]
      exact h.next i hi
  · rw [hsat]
    constructor
    · intro a ha
      have hin := List.mem_reverse.mp (coneGates_subset _ _ ha)
      rw [cnfSat_gate A.topo hin]
      have hg := Circuit.eval_gate w hin
      unfold GateHolds at hg ⊢
      rw [hσ, litVal_joint (litOk_i1 hin), litVal_joint (litOk_i2 hin),
        joint_of_le (Circuit.o_range hin).2]
      exact hg
    · intro a ha
      have hin := List.mem_reverse.mp (coneGates_subset _ _ ha)
      have hhas := transition_has cons hP.ok ha
      have hg := Circuit.eval_gate w' hin
      have ho : (A.transition cons P).2.Has A (a.o : Int).natAbs := by simpa using hhas.o
      unfold primedClauses
      rw [cnfSat_andClauses (primeLit_ne_zero hok ho (LitOk.ne_zero (litOk_o hin)))
        (primeLit_ne_zero hok hhas.i1 (LitOk.ne_zero (litOk_i1 hin)))
        (primeLit_ne_zero hok hhas.i2 (LitOk.ne_zero (litOk_i2 hin)))]
      have e0 : litVal σ (primeLit A (A.transition cons P).2 a.o) = A.val w' a.o :=
        litVal_joint_prime hok (litOk_o hin) ho
      have e1 : litVal σ (primeLit A (A.transition cons P).2 a.i1) = A.val w' a.i1 :=
        litVal_joint_prime hok (litOk_i1 hin) hhas.i1
      have e2 : litVal σ (primeLit A (A.transition cons P).2 a.i2) = A.val w' a.i2 :=
        litVal_joint_prime hok (litOk_i2 hin) hhas.i2
      refine e0.trans ?_
      rw [show litVal σ _ = _ from e1, show litVal σ _ = _ from e2]
      unfold Aiger.val
      rw [litVal_natCast]
      exact hg

/-- A second pass finds every copy it needs. -/
theorem transition_again (c c' : Bool) (hP : P.Ok A) :
    (A.transition c' (A.transition c P).2).2 = (A.transition c P).2 :=
  (transition_pass c' (transition_ok c hP)).same (transition_pass c hP).has

theorem transition_nonZero (hP : P.Ok A) : ∀ c ∈ (A.transition cons P).1, NonZero c := by
  obtain ⟨rest, hout, _, hnz, _⟩ := (transition_pass cons hP).out
  have hout' : (A.transition cons P).1 = (A.passStart cons P).out ++ rest := hout
  intro c hc
  rw [hout'] at hc
  rcases List.mem_append.mp hc with hc | hc
  · unfold Aiger.passStart at hc
    simp only [List.mem_append, List.mem_cons, List.not_mem_nil, or_false] at hc
    rcases hc with ((rfl | rfl) | hc) | hc
    · intro l hl; simp at hl; omega
    · intro l hl
      have := LitOk.ne_zero A.wf.bad_ok
      simp at hl; omega
    · cases cons with
      | false => simp at hc
      | true =>
          obtain ⟨l, hl, rfl⟩ := List.mem_map.mp (by simpa using hc)
          intro m hm
          rw [List.mem_singleton.mp hm]
          exact LitOk.ne_zero (A.wf.constraints_ok l hl)
    · obtain ⟨i, hi, hc⟩ := List.mem_flatMap.mp hc
      have hi' := List.mem_range.mp hi
      have hhas : P.Has A (A.latch i : Int).natAbs := by
        rw [Int.natAbs_natCast]; exact Primes.has_latch hi'
      have hne : (A.prime_lit P (A.latch i)).1 ≠ 0 :=
        primeLit_ne_zero hP hhas (LitOk.ne_zero (litOk_latch hi'))
      have hnx := LitOk.ne_zero (Circuit.next_ok hi')
      simp only [List.mem_cons, List.not_mem_nil, or_false] at hc
      rcases hc with rfl | rfl <;> intro l hl <;> simp only [List.mem_cons, List.not_mem_nil, or_false] at hl <;>
        omega
  · exact hnz c hc

/-- Minisat knows every primed variable when it is asked to simplify. -/
theorem transition_size (hP : P.Ok A) {n : Nat} (hn : P.size ≤ n + 1)
    (hv : ∀ c ∈ (A.transition cons P).1, VarsLe n c) : (A.transition cons P).2.size ≤ n + 1 := by
  obtain ⟨rest, hout, _, _, hsize⟩ := (transition_pass cons hP).out
  have hout' : (A.transition cons P).1 = (A.passStart cons P).out ++ rest := hout
  refine hsize n hn fun c hc => hv c ?_
  rw [hout']
  exact List.mem_append_right _ hc

end ModelChecker
