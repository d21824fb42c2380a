import ModelChecker.Pdr.Invariant

/-!
# Models of the solvers of a run

Which assignments satisfy everything a solver holds, whatever queries came before: the transitions of
the circuit that start in the solver's level, with all old activation variables false.
-/

namespace ModelChecker

open Logic

variable {A : Circuit} {E : Eliminator}

/-! ## Primed variables -/

theorem primes0_roots : (primes0 A).Roots A := translate_to_prime_spec.1

theorem primes1_ext : (primes0 A).Ext (primes1 A) := transition_ext true primes0_roots.ok

theorem primes1_roots : (primes1 A).Roots A :=
  primes0_roots.ext (transition_ok true primes0_roots.ok) primes1_ext

theorem badPrime_eq : badPrime A (primes1 A) = badPrime A (primes0 A) :=
  primeLit_ext primes0_roots.bad primes1_ext

theorem consPrime_eq : consPrime A (primes1 A) = consPrime A (primes0 A) :=
  List.map_congr_left fun l hl => primeLit_ext (primes0_roots.cons l hl) primes1_ext

/-- A second pass allocates nothing. -/
theorem transition_primes1 (cons : Bool) : (A.transition cons (primes1 A)).2 = primes1 A :=
  transition_again true cons primes0_roots.ok

theorem Primes.has_lt_size {P : Primes} (hP : P.Ok A) {u : Nat} (h1 : 1 ≤ u) (h : P.Has A u) :
    primeOf A P u < P.size := by
  have hsz := hP.size_le
  by_cases hs : u < A.first_and
  · by_cases h2 : 2 ≤ u
    · rw [primeOf_leaf h2 hs]; unfold Aiger.first_and at hs; omega
    · obtain rfl : u = 1 := by omega
      rw [primeOf_one]; unfold Aiger.primed_first_dimacs Aiger.max_var at hsz; omega
  · rcases h with h | ⟨v, hv⟩
    · exact absurd h hs
    · rw [primeOf_gate (by omega) hv]; exact (hP.vals _ (lookup_mem hv)).2

theorem primeLit_le_frameVars {l : Int} (hl : A.LitOk l) (h : (primes1 A).Has A l.natAbs) :
    (primeLit A (primes1 A) l).natAbs ≤ frameVars A := by
  have h1 := Primes.has_lt_size primes1_roots.ok hl.1 h
  have h2 := size_le_simpVars (A := A) true primes0_roots.ok
  rw [primeLit_natAbs]
  unfold frameVars primes1 at *
  omega

theorem primeLit_le_liftVars {l : Int} (hl : A.LitOk l) (h : (primes1 A).Has A l.natAbs) :
    (primeLit A (primes1 A) l).natAbs ≤ liftVars A := by
  have h1 := Primes.has_lt_size primes1_roots.ok hl.1 h
  have h2 := size_le_simpVars (A := A) false primes1_roots.ok
  rw [transition_primes1] at h2
  rw [primeLit_natAbs]
  unfold liftVars
  omega

theorem max_var_le_frameVars : A.max_var ≤ frameVars A := max_var_lt_simpVars true primes0_roots.ok

theorem max_var_le_liftVars : A.max_var ≤ liftVars A := max_var_lt_simpVars false primes1_roots.ok

theorem has_of_latch {P : Primes} {l : Int} (h : A.IsLatch l.natAbs) : P.Has A l.natAbs :=
  Primes.has_of_small h.2

theorem Circuit.LatchCube.varsLe {c : List Int} (h : A.LatchCube c) : VarsLe A.max_var c :=
  fun l hl => (litOk_of_latch (h l hl)).2

theorem Circuit.LatchCube.negCube {c : List Int} (h : A.LatchCube c) :
    NonZero (negCube c) ∧ VarsLe A.max_var (negCube c) := by
  constructor <;> intro l hl <;> obtain ⟨m, hm, rfl⟩ := List.mem_map.mp hl
  · have := h.nonZero m hm; omega
  · have := h.varsLe m hm; omega

/-! ## Extending an assignment by activation variables -/

/-- `σ` up to `n`; above, only `act` is true. -/
def activate (n : Nat) (σ : Assignment) (act : Nat) : Assignment := fun v =>
  if v ≤ n then σ v else decide (v = act)

theorem litVal_activate {n : Nat} {σ : Assignment} {act : Nat} {l : Int} (h : l.natAbs ≤ n) :
    litVal (activate n σ act) l = litVal σ l :=
  litVal_congr (by simp [activate, h])

theorem clauseSat_activate {n : Nat} {σ : Assignment} {act : Nat} {c : Clause} (h : VarsLe n c) :
    ClauseSat (activate n σ act) c ↔ ClauseSat σ c :=
  clauseSat_congr fun l hl => by simp [activate, h l hl]

theorem activate_self {n : Nat} {σ : Assignment} {act : Nat} (h : n < act) :
    litVal (activate n σ act) (act : Int) = true := by
  rw [litVal_natCast]; simp [activate, show ¬ act ≤ n by omega]

/-- Query clauses of other activation variables are satisfied. -/
theorem IsQuery.activate {lo hi : Nat} {c : Clause} (h : IsQuery lo hi c) {σ : Assignment} {act : Nat}
    (hact : hi < act) : ClauseSat (activate lo σ act) c := by
  obtain ⟨v, d, hlo, hhi, _, _, rfl⟩ := h
  rw [clauseSat_cons, litVal_neg_natCast _ (by omega)]
  left
  simp [ModelChecker.activate, show ¬ v ≤ lo by omega, show v ≠ act by omega]

theorem IsQuery.mono {lo hi hi' : Nat} {c : Clause} (h : IsQuery lo hi c) (hh : hi ≤ hi') :
    IsQuery lo hi' c := by
  obtain ⟨v, d, hlo, hhi, hd⟩ := h
  exact ⟨v, d, hlo, by omega, hd⟩

/-- A query clause is no lemma: its activation variable is not a latch. -/
theorem IsQuery.not_lemma {hi : Nat} {c : Clause} (h : IsQuery (frameVars A) hi c) {d : Cube}
    (hd : A.LatchCube d) : c ≠ negCube d := by
  obtain ⟨v, e, hlo, _, _, _, rfl⟩ := h
  intro heq
  have hmem : -(v : Int) ∈ negCube d := heq ▸ List.mem_cons_self
  have := hd.negCube.2 _ hmem
  have := max_var_le_frameVars (A := A)
  simp only [Int.natAbs_neg, Int.natAbs_natCast] at *
  omega

/-! ## The clauses of a new solver -/

theorem base_nonZero {k : Nat} : ∀ c ∈ frameBase A E k, NonZero c := by
  intro c hc
  simp only [frameBase, List.mem_append, List.mem_map] at hc
  rcases hc with ((hc | hc) | ⟨l, hl, rfl⟩) | hc
  · exact simpCnf_nonZero true E primes0_roots.ok c hc
  · split at hc
    · rw [List.mem_singleton.mp hc]; intro l hl; rw [List.mem_singleton.mp hl]; decide
    · cases hc
  · obtain ⟨m, hm, rfl⟩ := List.mem_map.mp hl
    intro l hl
    rw [List.mem_singleton.mp hl]
    exact primeLit_ne_zero primes1_roots.ok (primes1_roots.cons m hm)
      (LitOk.ne_zero (A.wf.constraints_ok m hm))
  · split at hc
    · exact init_nonZero c hc
    · cases hc

theorem base_varsLe {k : Nat} : ∀ c ∈ frameBase A E k, VarsLe (frameVars A) c := by
  intro c hc
  have hmax := max_var_le_frameVars (A := A)
  simp only [frameBase, List.mem_append, List.mem_map] at hc
  rcases hc with ((hc | hc) | ⟨l, hl, rfl⟩) | hc
  · exact simpCnf_varsLe true E c hc
  · split at hc
    · rw [List.mem_singleton.mp hc]
      intro l hl
      rw [List.mem_singleton.mp hl]
      unfold Aiger.max_var at hmax
      simp only [Int.natAbs_one]
      omega
    · cases hc
  · obtain ⟨m, hm, rfl⟩ := List.mem_map.mp hl
    intro l hl
    rw [List.mem_singleton.mp hl]
    exact primeLit_le_frameVars (A.wf.constraints_ok m hm) (primes1_roots.cons m hm)
  · split at hc
    · exact fun l hl => (init_varsLe c hc l hl).trans hmax
    · cases hc

/-- Constrained transitions that start in an initial state (for level `0`) satisfy the encoding. -/
theorem base_complete {k : Nat} {w w' : Assignment} (hst : A.system.Step w w')
    (h0 : k = 0 → A.system.Init w) : CnfSat (joint A (primes1 A) w w') (frameBase A E k) := by
  unfold frameBase
  rw [cnfSat_append, cnfSat_append, cnfSat_append, cnfSat_units]
  refine ⟨⟨⟨?_, ?_⟩, ?_⟩, ?_⟩
  · exact simpCnf_complete primes0_roots ⟨hst.notBad, fun _ => hst.cons, hst.next⟩
  · split
    · rename_i h
      -- the bad literal would be a constraint
      have hmem : A.bad ∈ A.constraints := by simpa [Aiger.satelite_unsat] using h
      exact absurd (hst.cons A.bad hmem) hst.notBad
    · simp
  · intro l hl
    obtain ⟨m, hm, rfl⟩ := List.mem_map.mp hl
    rw [litVal_joint_prime primes1_roots.ok (A.wf.constraints_ok m hm) (primes1_roots.cons m hm)]
    exact hst.cons' m hm
  · split
    · rename_i hk
      intro c hc
      rw [clauseSat_congr fun l hl => joint_of_le (init_varsLe c hc l hl)]
      exact init_complete (h0 hk) hst.cons c hc
    · simp

/-- A model of the encoding comes from a constrained transition. -/
theorem base_sound {k : Nat} (hsat : Trusted A E true) {σ : Assignment}
    (h : CnfSat σ (frameBase A E k)) :
    ∃ w w', A.system.Step w w' ∧ (k = 0 → A.system.Init w) ∧ Matches A (primes1 A) σ w w' := by
  unfold frameBase at h
  rw [cnfSat_append, cnfSat_append, cnfSat_append, cnfSat_units] at h
  obtain ⟨⟨⟨hT, _⟩, hc⟩, hi⟩ := h
  obtain ⟨w, w', htr, hm⟩ := simpCnf_sound primes0_roots hsat hT
  have hcons' : ∀ l ∈ A.constraints, A.val w' l = litVal σ (primeLit A (primes1 A) l) := by
    intro l hl
    rw [hm.cons' l hl, primeLit_ext (primes0_roots.cons l hl) primes1_ext]
  refine ⟨w, w', ⟨htr.cons rfl, htr.notBad, htr.next, ?_⟩, ?_, ⟨hm.leaf, ?_, hm.cons, ?_, hcons'⟩⟩
  · intro l hl
    rw [hcons' l hl]
    exact hc _ (List.mem_map_of_mem hl)
  · intro hk l hl
    rw [if_pos hk] at hi
    have hlatch := A.wf.init_latch l hl
    have h2 := hlatch.1
    rw [litVal_congr (hm.leaf _ (by omega) hlatch.2)]
    exact (init_sound hi).2.1 l hl
  · intro u h2 hu
    rw [hm.leaf' u h2 hu, primeOf_ext (Primes.has_of_small hu) primes1_ext]
  · rw [hm.bad', primeLit_ext primes0_roots.bad primes1_ext]

/-! ## Frame solvers -/

theorem FrameSolver.clauses_eq {k : Nat} {s : CaDiCaL} (h : FrameSolver A E k s) :
    s.clauses = frameBase A E k ++ frameExtra A E k s := by
  obtain ⟨rest, hr⟩ := h.base
  unfold frameExtra
  rw [← hr, List.drop_left]

theorem IsLemma.bounds {c : Clause} (h : IsLemma A c) : NonZero c ∧ VarsLe (frameVars A) c := by
  obtain ⟨d, hd, rfl⟩ := h
  exact ⟨hd.negCube.1, fun l hl => (hd.negCube.2 l hl).trans max_var_le_frameVars⟩

theorem IsQuery.bounds {lo hi : Nat} {c : Clause} (h : IsQuery lo hi c) :
    NonZero c ∧ VarsLe (max lo hi) c := by
  obtain ⟨v, d, hlo, hhi, hd, hn, rfl⟩ := h
  constructor <;> intro l hl <;> rcases List.mem_cons.mp hl with rfl | hl
  · omega
  · exact hn l hl
  · simp only [Int.natAbs_neg, Int.natAbs_natCast]; omega
  · have := hd l hl; omega

theorem FrameSolver.nonZero {k : Nat} {s : CaDiCaL} (h : FrameSolver A E k s) :
    ∀ c ∈ s.clauses, NonZero c := by
  intro c hc
  rw [h.clauses_eq, List.mem_append] at hc
  rcases hc with hc | hc
  · exact base_nonZero c hc
  · rcases h.extra c hc with hl | hq
    · exact hl.bounds.1
    · exact hq.bounds.1

theorem FrameSolver.varsLe {k : Nat} {s : CaDiCaL} (h : FrameSolver A E k s) :
    ∀ c ∈ s.clauses, VarsLe s.nv c := by
  intro c hc l hl
  have hnv := h.nv
  rw [h.clauses_eq, List.mem_append] at hc
  rcases hc with hc | hc
  · exact (base_varsLe c hc l hl).trans hnv
  · rcases h.extra c hc with hm | hq
    · exact (hm.bounds.2 l hl).trans hnv
    · have := hq.bounds.2 l hl; omega

/-- One more clause. -/
theorem FrameSolver.addClause {k : Nat} {s : CaDiCaL} (h : FrameSolver A E k s) {c : Clause}
    (hc : IsLemma A c ∨ IsQuery (frameVars A) (max s.nv (CaDiCaL.maxVar 0 c)) c) :
    FrameSolver A E k (s.addClause c) ∧ frameExtra A E k (s.addClause c) = frameExtra A E k s ++ [c] ∧
      s.nv ≤ (s.addClause c).nv := by
  have h0 : NonZero c := hc.elim (fun h => h.bounds.1) fun h => h.bounds.1
  have hle := CaDiCaL.le_maxVar s.nv c
  have hmax : CaDiCaL.maxVar s.nv c = max s.nv (CaDiCaL.maxVar 0 c) := by
    refine le_antisymm (CaDiCaL.maxVar_le (by omega) fun l hl => ?_) (max_le hle ?_)
    · have := CaDiCaL.varsLe_maxVar 0 c l hl; omega
    · exact CaDiCaL.maxVar_le (by omega) fun l hl => CaDiCaL.varsLe_maxVar s.nv c l hl
  have hex : frameExtra A E k (s.addClause c) = frameExtra A E k s ++ [c] := by
    rw [CaDiCaL.addClause_eq h0 h.clause]
    unfold frameExtra
    rw [List.drop_append_of_le_length h.base.length_le]
  refine ⟨⟨?_, ?_, ?_, ?_, ?_⟩, hex, ?_⟩
  · rw [CaDiCaL.addClause_eq h0 h.clause]; exact h.clause
  · rw [CaDiCaL.addClause_eq h0 h.clause]; exact h.assumptions
  · rw [CaDiCaL.addClause_eq h0 h.clause]
    exact h.base.trans (List.prefix_append _ _)
  · rw [hex, CaDiCaL.addClause_eq h0 h.clause]
    intro d hd
    rcases List.mem_append.mp hd with hd | hd
    · exact (h.extra d hd).imp id fun hq => hq.mono hle
    · rw [List.mem_singleton.mp hd]
      exact hc.imp id fun hq => hq.mono hmax.ge
  · rw [CaDiCaL.addClause_eq h0 h.clause]; exact h.nv.trans hle
  · rw [CaDiCaL.addClause_eq h0 h.clause]; exact hle

theorem mem_lemmaClauses {i : Nat} {s : CaDiCaL} (hs : FrameSolver A E i s) {c : Clause} :
    c ∈ lemmaClauses A E i s ↔ ∃ d, A.LatchCube d ∧ c = negCube d ∧ negCube d ∈ frameExtra A E i s := by
  unfold lemmaClauses
  simp only [List.mem_filter, List.all_eq_true, decide_eq_true_eq]
  constructor
  · rintro ⟨hc, hl⟩
    rcases hs.extra c hc with ⟨d, hd, rfl⟩ | hq
    · exact ⟨d, hd, rfl, hc⟩
    · -- the activation variable is above all latches
      obtain ⟨v, d, hv, _, _, _, rfl⟩ := hq
      have hlt := (hl _ List.mem_cons_self).2
      have hmax := max_var_le_frameVars (A := A)
      rw [Int.natAbs_neg, Int.natAbs_natCast] at hlt
      have := A.first_and_le_max
      omega
  · rintro ⟨d, hd, rfl, hm⟩
    refine ⟨hm, fun l hl => ?_⟩
    obtain ⟨m, hm, rfl⟩ := List.mem_map.mp hl
    rw [Int.natAbs_neg]
    exact hd m hm

/-- A transition out of a solver's level is a model of everything the solver holds. -/
theorem FrameSolver.models {k : Nat} {s : CaDiCaL} (h : FrameSolver A E k s) {w w' : Assignment}
    (hst : A.system.Step w w') (h0 : k = 0 → A.system.Init w)
    (hlem : ∀ d, A.LatchCube d → negCube d ∈ frameExtra A E k s → ¬ CubeSat w d) {act : Nat}
    (hact : s.nv < act) :
    CnfSat (activate (frameVars A) (joint A (primes1 A) w w') act) s.clauses := by
  rw [h.clauses_eq, cnfSat_append]
  constructor
  · intro c hc
    rw [clauseSat_activate (base_varsLe c hc)]
    exact base_complete hst h0 c hc
  · intro c hc
    rcases h.extra c hc with ⟨d, hd, rfl⟩ | hq
    · rw [clauseSat_activate (fun l hl => (hd.negCube.2 l hl).trans max_var_le_frameVars),
        clauseSat_negCube hd.nonZero]
      intro hsat
      refine hlem d hd hc ?_
      refine (hd.congr fun u hu => ?_).mp hsat
      have := hu.2
      rw [joint_of_le (by unfold Aiger.first_and Aiger.max_var at *; omega)]
      exact Circuit.eval_latch w hu
    · exact hq.activate hact

theorem cubeSat_joint {w w' : Assignment} {c : Cube} (hc : A.LatchCube c) :
    CubeSat (joint A (primes1 A) w w') c ↔ CubeSat w c := by
  refine hc.congr fun u hu => ?_
  have := hu.2
  rw [joint_of_le (by unfold Aiger.first_and Aiger.max_var at *; omega)]
  exact Circuit.eval_latch w hu

theorem litVal_joint_prime_latch {w w' : Assignment} {l : Int} (hl : A.IsLatch l.natAbs) :
    litVal (joint A (primes1 A) w w') (primeLit A (primes1 A) l) = litVal w' l := by
  rw [litVal_joint_prime primes1_roots.ok (litOk_of_latch hl) (has_of_latch hl),
    Circuit.val_latch w' hl]

end ModelChecker
