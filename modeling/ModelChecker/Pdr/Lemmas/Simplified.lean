import ModelChecker.Pdr.Lemmas.Encode

/-!
# Initial condition and simplified transition relation

What a model of `encode_init_condition`, `encode_bad_state` and Minisat's simplified clauses says about
the circuit, and which assignments are models of them.
-/

namespace ModelChecker

open Logic

variable {A : Circuit}

/-! ## Initial condition and bad cone -/

theorem varsLe_gate {a : AndGate} (ha : a ∈ A.ands) : ∀ c ∈ a.clauses, VarsLe A.max_var c := by
  have ho := (litOk_o ha).2
  have h1 := (litOk_i1 ha).2
  have h2 := (litOk_i2 ha).2
  intro c hc l hl
  simp only [AndGate.clauses, andClauses, List.mem_cons, List.not_mem_nil, or_false] at hc
  rcases hc with rfl | rfl | rfl <;> simp only [List.mem_cons, List.not_mem_nil, or_false] at hl <;>
    rcases hl with rfl | rfl | rfl <;> omega

theorem mem_cone {s : List Nat} {a : AndGate} (ha : a ∈ coneGates s A.ands.reverse) : a ∈ A.ands :=
  List.mem_reverse.mp (coneGates_subset _ _ ha)

/-- A clause of `encode_init_condition` is a unit clause or belongs to a gate. -/
theorem init_clause {c : Clause} (hc : c ∈ A.encode_init_condition) :
    (∃ l, A.LitOk l ∧ c = [l]) ∨ ∃ a ∈ A.ands, c ∈ a.clauses := by
  simp only [Aiger.encode_init_condition, List.mem_append, List.mem_map, List.mem_flatMap,
    List.mem_singleton] at hc
  rcases hc with ((rfl | ⟨l, hl, rfl⟩) | ⟨l, hl, rfl⟩) | ⟨a, ha, hc⟩
  · exact Or.inl ⟨-1, ⟨by simp, by simp [Aiger.max_var]⟩, rfl⟩
  · exact Or.inl ⟨l, litOk_of_latch (A.wf.init_latch l hl), rfl⟩
  · exact Or.inl ⟨l, A.wf.constraints_ok l hl, rfl⟩
  · exact Or.inr ⟨a, mem_cone ha, hc⟩

theorem init_nonZero : ∀ c ∈ A.encode_init_condition, NonZero c := by
  intro c hc
  rcases init_clause hc with ⟨l, hl, rfl⟩ | ⟨a, ha, hc⟩
  · intro m hm; rw [List.mem_singleton] at hm; exact hm ▸ LitOk.ne_zero hl
  · exact nonZero_clauses ha c hc

theorem init_varsLe : ∀ c ∈ A.encode_init_condition, VarsLe A.max_var c := by
  intro c hc
  rcases init_clause hc with ⟨l, hl, rfl⟩ | ⟨a, ha, hc⟩
  · intro m hm; rw [List.mem_singleton] at hm; exact hm ▸ hl.2
  · exact varsLe_gate ha c hc

theorem init_sound {σ : Assignment} (h : CnfSat σ A.encode_init_condition) :
    σ 1 = false ∧ A.system.Init σ ∧ A.system.Cons σ := by
  simp only [Aiger.encode_init_condition, cnfSat_append, cnfSat_units, cnfSat_flatMap] at h
  obtain ⟨⟨⟨h1, hi⟩, hc⟩, hg⟩ := h
  have hone : σ 1 = false := by
    have := h1 [-1] List.mem_cons_self
    simpa [litVal] using this
  refine ⟨hone, hi, fun l hl => ?_⟩
  have hcone : ∀ a ∈ coneGates (A.constraints.map Int.natAbs) A.ands.reverse, GateHolds σ a :=
    fun a ha => (cnfSat_gate A.topo (mem_cone ha)).mp (hg a ha)
  have hv := Circuit.cone_value hone hcone (List.mem_map_of_mem hl)
  show litVal (A.eval σ) l = true
  rw [← litVal_congr hv]
  exact hc l hl

theorem init_complete {w : Assignment} (hi : A.system.Init w) (hc : A.system.Cons w) :
    CnfSat (A.eval w) A.encode_init_condition := by
  simp only [Aiger.encode_init_condition, cnfSat_append, cnfSat_units, cnfSat_flatMap]
  refine ⟨⟨⟨?_, fun l hl => ?_⟩, hc⟩, fun a ha => ?_⟩
  · intro c hc
    rw [List.mem_singleton.mp hc, clauseSat_singleton]
    simp [litVal]
  · rw [litVal_congr (Circuit.eval_latch w (A.wf.init_latch l hl))]
    exact hi l hl
  · exact (cnfSat_gate A.topo (mem_cone ha)).mpr (Circuit.eval_gate w (mem_cone ha))

theorem bad_nonZero : ∀ c ∈ A.encode_bad_state, NonZero c := by
  intro c hc
  obtain ⟨a, ha, hc⟩ := List.mem_flatMap.mp hc
  exact nonZero_clauses (mem_cone ha) c hc

theorem bad_sound {σ : Assignment} (h1 : σ 1 = false) (h : CnfSat σ A.encode_bad_state) :
    litVal σ A.bad = A.val σ A.bad := by
  refine litVal_congr (Circuit.cone_value h1 ?_ (List.mem_singleton_self _))
  intro a ha
  exact (cnfSat_gate A.topo (mem_cone ha)).mp (cnfSat_flatMap.mp h a ha)

theorem bad_complete (w : Assignment) : CnfSat (A.eval w) A.encode_bad_state :=
  cnfSat_flatMap.mpr fun _ ha =>
    (cnfSat_gate A.topo (mem_cone ha)).mpr (Circuit.eval_gate w (mem_cone ha))

/-! ## Minisat's input -/

section Minisat

variable (cons : Bool) {P : Primes} (E : Eliminator)

theorem foldl_set_frozen (s : MinisatSimp) (ls : List Int) :
    ls.foldl MinisatSimp.set_frozen s =
      { s with nVars := CaDiCaL.maxVar s.nVars ls
               frozen := (ls.map Int.natAbs).reverse ++ s.frozen } := by
  induction ls generalizing s with
  | nil => simp [CaDiCaL.maxVar]
  | cons l ls ih =>
      rw [List.foldl_cons, ih]
      simp [MinisatSimp.set_frozen, MinisatSimp.var_enlarge_to, CaDiCaL.maxVar]

/-- `abs` of the literals primed by `PDR::translate_to_dimacs`. -/
def badPrime (A : Circuit) (P : Primes) : Int := primeLit A P A.bad

def consPrime (A : Circuit) (P : Primes) : List Int := A.constraints.map (primeLit A P)

/-- Minisat's input for `encode_translation` or `encode_lift`. -/
def minisatOf (A : Circuit) (cons : Bool) (P : Primes) : MinisatSimp :=
  A.minisat cons (badPrime A P) (consPrime A P) P

/-- The last variable Minisat knows. -/
def simpVars (A : Circuit) (cons : Bool) (P : Primes) : Nat := (minisatOf A cons P).nVars

def simpCnf (A : Circuit) (cons : Bool) (P : Primes) (E : Eliminator) : Cnf :=
  (minisatOf A cons P).simplify E

theorem minisatOf_eq (P : Primes) :
    minisatOf A cons P =
      { nVars := CaDiCaL.maxVars (CaDiCaL.maxVar (P.size - 1)
          (A.frozenVars (badPrime A P) (consPrime A P) P)) (A.transition cons P).1
        frozen := ((A.frozenVars (badPrime A P) (consPrime A P) P).map Int.natAbs).reverse
        clauses := (A.transition cons P).1 } := by
  unfold minisatOf Aiger.minisat
  rw [foldl_set_frozen, MinisatSimp.addAll_eq]
  simp [MinisatSimp.var_enlarge_to]

theorem minisatOf_wf (hP : P.Ok A) :
    ∀ c ∈ (minisatOf A cons P).clauses, NonZero c ∧ VarsLe (minisatOf A cons P).nVars c := by
  rw [minisatOf_eq]
  exact fun c hc => ⟨transition_nonZero cons hP c hc, CaDiCaL.varsLe_maxVars _ hc⟩

theorem size_le_simpVars (hP : P.Ok A) : (A.transition cons P).2.size ≤ simpVars A cons P + 1 := by
  unfold simpVars
  rw [minisatOf_eq]
  refine transition_size cons hP ?_ fun c hc => CaDiCaL.varsLe_maxVars _ hc
  have h1 := CaDiCaL.le_maxVar (P.size - 1) (A.frozenVars (badPrime A P) (consPrime A P) P)
  have h2 := CaDiCaL.le_maxVars (CaDiCaL.maxVar (P.size - 1)
    (A.frozenVars (badPrime A P) (consPrime A P) P)) (A.transition cons P).1
  simp only
  omega

theorem max_var_lt_simpVars (hP : P.Ok A) : A.max_var ≤ simpVars A cons P := by
  have h1 := (transition_ok cons hP).size_le
  have h2 := size_le_simpVars cons hP
  unfold Aiger.primed_first_dimacs at h1
  omega

theorem simpVars_pos (hP : P.Ok A) : 0 < simpVars A cons P := by
  have := max_var_lt_simpVars cons hP
  unfold Aiger.max_var at this
  omega

theorem simpCnf_nonZero (hP : P.Ok A) : ∀ c ∈ simpCnf A cons P E, NonZero c := by
  intro c hc
  rcases List.mem_cons.mp hc with rfl | hc
  · have := simpVars_pos cons hP
    unfold simpVars at this
    intro l hl
    simp only [List.mem_cons, List.not_mem_nil, or_false] at hl
    rcases hl with rfl | rfl <;> omega
  · exact E.nonZero _ _ _ c hc

theorem simpCnf_varsLe : ∀ c ∈ simpCnf A cons P E, VarsLe (simpVars A cons P) c := by
  intro c hc
  rcases List.mem_cons.mp hc with rfl | hc
  · intro l hl
    simp only [List.mem_cons, List.not_mem_nil, or_false] at hl
    unfold simpVars
    rcases hl with rfl | rfl <;> simp
  · exact E.varsLe _ _ _ c hc

/-- The tautology makes the last variable a variable of the clauses. -/
theorem simpVars_le_maxVars (n : Nat) :
    simpVars A cons P ≤ CaDiCaL.maxVars n (simpCnf A cons P E) := by
  have h := CaDiCaL.varsLe_maxVars n (F := simpCnf A cons P E)
    (c := [(simpVars A cons P : Int), -(simpVars A cons P : Int)]) List.mem_cons_self
    (simpVars A cons P : Int) List.mem_cons_self
  simpa using h

variable {cons E}

/-- Two valuations that form a transition satisfy the simplified clauses. -/
theorem simpCnf_complete (hP : P.Roots A) {w w' : Assignment} (h : IsTransition A cons w w') :
    CnfSat (joint A (A.transition cons P).2 w w') (simpCnf A cons P E) := by
  refine cnfSat_cons.mpr ⟨?_, ?_⟩
  · have hpos := simpVars_pos cons hP.ok
    unfold simpVars at hpos
    rw [clauseSat_cons, clauseSat_singleton, litVal_natCast, litVal_neg_natCast _ hpos]
    cases joint A (A.transition cons P).2 w w' (minisatOf A cons P).nVars <;> simp
  · refine E.keeps _ _ _ _ ?_
    rw [minisatOf_eq]
    exact transition_complete cons hP h

/-- What a model `σ` of the simplified clauses has in common with the transition from `w` to `w'`. -/
structure Matches (A : Circuit) (P : Primes) (σ w w' : Assignment) : Prop where
  leaf : ∀ u, 2 ≤ u → u < A.first_and → w u = σ u
  leaf' : ∀ u, 2 ≤ u → u < A.first_and → w' u = σ (primeOf A P u)
  cons : ∀ l ∈ A.constraints, A.val w l = litVal σ l
  bad' : A.val w' A.bad = litVal σ (primeLit A P A.bad)
  cons' : ∀ l ∈ A.constraints, A.val w' l = litVal σ (primeLit A P l)

theorem mem_frozen {l : Int} (cons : Bool) (P : Primes)
    (h : l = A.bad ∨ l ∈ A.constraints ∨ (2 ≤ l.natAbs ∧ l.natAbs < A.first_and)) :
    l.natAbs ∈ (minisatOf A cons P).frozen ∧ primeOf A P l.natAbs ∈ (minisatOf A cons P).frozen := by
  rw [minisatOf_eq]
  simp only [List.mem_reverse, Aiger.frozenVars, List.map_append, List.mem_append]
  rcases h with rfl | h | ⟨h2, hlt⟩
  · refine ⟨Or.inl (Or.inl (Or.inr ?_)), Or.inl (Or.inl (Or.inr ?_))⟩
    · simp
    · simp [badPrime, primeLit_natAbs]
  · refine ⟨Or.inl (Or.inr (List.mem_map_of_mem h)), Or.inr (List.mem_map.mpr ⟨primeLit A P l, ?_, ?_⟩)⟩
    · exact List.mem_map_of_mem h
    · exact primeLit_natAbs l
  · have hi : l.natAbs - 2 < A.num_inputs + A.num_latches := by
      unfold Aiger.first_and at hlt; omega
    have hback : 2 + (l.natAbs - 2) = l.natAbs := by omega
    have hmem : ∀ v : Nat, (v = l.natAbs ∨ v = primeOf A P l.natAbs) →
        v ∈ ((List.range (A.num_inputs + A.num_latches)).flatMap fun i =>
          [((2 + i : Nat) : Int), ((A.prime_var P (2 + i)).1 : Int)]).map Int.natAbs := by
      intro v hv
      refine List.mem_map.mpr ⟨(v : Int), List.mem_flatMap.mpr ⟨_, List.mem_range.mpr hi, ?_⟩, by simp⟩
      rw [hback]
      rcases hv with rfl | rfl
      · simp
      · simp [primeOf]
    exact ⟨Or.inl (Or.inl (Or.inl (hmem _ (Or.inl rfl)))),
      Or.inl (Or.inl (Or.inl (hmem _ (Or.inr rfl))))⟩

/-- Where the models of the simplified clauses can be relied on: there is a transition at all, or the
preprocessor is exact. -/
def Trusted (A : Circuit) (E : Eliminator) (cons : Bool) : Prop :=
  (∃ w w', IsTransition A cons w w') ∨ E.Exact

/-- A model of the simplified clauses comes from a transition. -/
theorem simpCnf_sound (hP : P.Roots A) (hsat : Trusted A E cons) {σ : Assignment}
    (h : CnfSat σ (simpCnf A cons P E)) :
    ∃ w w', IsTransition A cons w w' ∧ Matches A P σ w w' := by
  have hF : (minisatOf A cons P).clauses = (A.transition cons P).1 := by rw [minisatOf_eq]
  obtain ⟨τ, hτ, hag⟩ : ∃ τ, CnfSat τ (minisatOf A cons P).clauses ∧
      ∀ v ∈ (minisatOf A cons P).frozen, τ v = σ v := by
    rcases hsat with ⟨v, v', hv⟩ | hexact
    · exact E.lifts _ _ _ (minisatOf_wf cons hP.ok)
        ⟨_, by rw [hF]; exact transition_complete cons hP hv⟩ σ (cnfSat_cons.mp h).2
    · exact hexact _ _ _ (minisatOf_wf cons hP.ok) σ (cnfSat_cons.mp h).2
  rw [hF] at hτ
  obtain ⟨htr, hfix⟩ := transition_sound cons hP hτ
  have hext := transition_ext cons hP.ok
  have hfroz := fun {l : Int} (hl : l = A.bad ∨ l ∈ A.constraints ∨
      (2 ≤ l.natAbs ∧ l.natAbs < A.first_and)) => mem_frozen cons P hl
  have hprime : ∀ l : Int, (l = A.bad ∨ l ∈ A.constraints) → P.Has A l.natAbs →
      litVal τ (primeLit A (A.transition cons P).2 l) = litVal σ (primeLit A P l) := by
    intro l hl hh
    rw [primeLit_ext hh hext]
    refine litVal_congr (hag _ ?_)
    rw [primeLit_natAbs]
    exact (hfroz (hl.elim Or.inl fun h => Or.inr (Or.inl h))).2
  refine ⟨τ, unprimed A (A.transition cons P).2 τ, htr, ?_, ?_, ?_, ?_, ?_⟩
  · intro u h2 hu
    have := (hfroz (l := (u : Int)) (Or.inr (Or.inr ⟨by simpa using h2, by simpa using hu⟩))).1
    exact hag u (by simpa using this)
  · intro u h2 hu
    unfold unprimed
    rw [primeOf_ext (Primes.has_of_small hu) hext]
    have := (hfroz (l := (u : Int)) (Or.inr (Or.inr ⟨by simpa using h2, by simpa using hu⟩))).2
    exact hag _ (by simpa using this)
  · intro l hl
    rw [← hfix.cons l hl]
    exact litVal_congr (hag _ (hfroz (Or.inr (Or.inl hl))).1)
  · rw [← hfix.bad']
    exact hprime _ (Or.inl rfl) hP.bad
  · intro l hl
    rw [← hfix.cons' l hl]
    exact hprime l (Or.inr hl) (hP.cons l hl)

end Minisat

end ModelChecker
