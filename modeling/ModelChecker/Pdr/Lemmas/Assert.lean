import ModelChecker.Logic.Fuel
import ModelChecker.Pdr.Lemmas.Cex

/-!
# The assertion of the lift query

The lift query is about a model of a frame solver. It has no model of its own, unless the frame solver
was given clauses that describe no transition at all.
-/

namespace ModelChecker

open Logic

variable {A : Circuit} {E : Eliminator} {p : PDR} {n k : Nat} {r : Run} {env : PdrEnv}

/-- The frame solvers describe the circuit: some point satisfies the constraints and is not bad, or what
Minisat left of the contradictory transition relation is contradictory, too. -/
def Consistent (A : Circuit) (E : Eliminator) : Prop :=
  (∃ w, A.system.Cons w ∧ ¬ A.system.Bad w) ∨ ∀ σ, ¬ CnfSat σ (frameBase A E 1)

theorem base_one {σ : Assignment} (h : CnfSat σ (frameBase A E k)) : CnfSat σ (frameBase A E 1) := by
  unfold frameBase at *
  rw [cnfSat_append] at h
  simpa using h.1

theorem Consistent.trusted (h : Consistent A E) {ls : List Int} (hm : HasModel A E p k ls) :
    Trusted A E true := by
  rcases h with ⟨w, hc, hb⟩ | hun
  · obtain ⟨w', hn⟩ := A.system.total w
    exact .inl ⟨w, w', hb, fun _ => hc, hn⟩
  · obtain ⟨m, _, hm⟩ := hm
    exact absurd (base_one (hm _ (completes_complete m fun _ => false)).1) (hun _)

theorem Trusted.lift (h : Trusted A E true) : Trusted A E false := by
  rcases h with ⟨w, w', ht⟩ | h
  · exact .inl ⟨w, w', ht.notBad, Bool.noConfusion, ht.next⟩
  · exact .inr h

/-- What the successor of the model satisfies. -/
def liftLits (A : Circuit) (p : PDR) (succ : Option Nat) : List Int :=
  match succ with
  | none => [badPrime A (primes1 A)]
  | some t => (p.state t).latches.map (primeLit A (primes1 A))

theorem reaches_of_matches {σ w w' : Assignment} (hsh : Shape A E p)
    (h : Matches A (primes1 A) σ w w') (succ : Option Nat) (hσ : CubeSat σ (liftLits A p succ)) :
    Reaches A p succ w' := by
  cases succ with
  | none => exact h.bad'.trans (hσ _ List.mem_cons_self)
  | some t => exact cubeSat_of_matches h (hsh.states t) hσ

theorem litVal_prime_latch {σ w w' : Assignment} (h : Matches A (primes1 A) σ w w') {l : Int}
    (hl : A.IsLatch l.natAbs) : litVal σ (primeLit A (primes1 A) l) = litVal w' l := by
  have h2 := hl.1
  rw [litVal_primeLit σ primes1_roots.ok (has_of_latch hl) (by rintro rfl; simp at h2)]
  exact litVal_congr (h.leaf' _ (by omega) hl.2).symm

/-- The target of the lift query, read in the transition an assignment describes. -/
theorem liftTarget_of_matches {σ w w' : Assignment} (hsh : Shape A E p)
    (h : Matches A (primes1 A) σ w w') {succ : Option Nat} (hc : A.system.Cons w)
    (hc' : A.system.Cons w') (hr : Reaches A p succ w') : CubeSat σ (liftTarget A p succ) := by
  intro l hl
  simp only [liftTarget, List.mem_append] at hl
  rcases hl with (hl | hl) | hl
  · rw [← h.cons l hl]; exact hc l hl
  · obtain ⟨x, hx, rfl⟩ := List.mem_map.mp hl
    rw [← h.cons' x hx]; exact hc' x hx
  · cases succ with
    | none =>
        rw [List.mem_singleton.mp hl]
        exact h.bad'.symm.trans hr
    | some t =>
        obtain ⟨x, hx, rfl⟩ := List.mem_map.mp hl
        rw [litVal_prime_latch h (hsh.states t x hx)]
        exact hr x hx

/-- A point and a successor that agree with a model of the frame solver reach the target. -/
theorem HasModel.reaches (hsh : Shape A E p) {succ : Option Nat}
    (hm : HasModel A E p k (liftLits A p succ)) (ht : Trusted A E true) (w w' : Assignment)
    (hl : CubeSat w (modelState A.toAiger (p.frame k).solver).latches)
    (hi : CubeSat w (modelState A.toAiger (p.frame k).solver).inputs)
    (hi' : CubeSat w' (modelState' A.toAiger (p.frame k).solver).inputs) (hn : A.system.Next w w') :
    A.system.Cons w ∧ A.system.Cons w' ∧ Reaches A p succ w' := by
  obtain ⟨m, ha, hm⟩ := hm
  obtain ⟨σ, v, v', hσ, hst, _, hmat, hv, hv'⟩ := step_of_model ha hm ht hl hi hi'
  have hlatch := next_unique hv hst.next hn
  have hleaf : ∀ u, 2 ≤ u → u < A.first_and → v' u = w' u := by
    intro u h2 hu
    by_cases hiu : A.IsInput u
    · exact hv' u hiu
    · exact hlatch u ⟨by unfold Aiger.IsInput at hiu; omega, hu⟩
  refine ⟨fun l hl => ?_, fun l hl => ?_, ?_⟩
  · rw [← Circuit.val_congr hv (A.wf.constraints_ok l hl)]; exact hst.cons l hl
  · rw [← Circuit.val_congr hleaf (A.wf.constraints_ok l hl)]; exact hst.cons' l hl
  · have hr := reaches_of_matches hsh hmat succ hσ
    cases succ with
    | none => exact (Circuit.val_congr hleaf A.wf.bad_ok).symm.trans hr
    | some t => exact (hsh.states t).congr hlatch |>.mp hr

theorem Matches.assumed {σ w w' : Assignment} (h : Matches A (primes1 A) σ w w') (sat : CaDiCaL) :
    (∀ x ∈ (modelState A.toAiger sat).inputs, litVal w x = litVal σ x) ∧
    (∀ x ∈ (modelState A.toAiger sat).latches, litVal w x = litVal σ x) ∧
    ∀ y ∈ modelLits sat A.primed_first_dimacs A.num_inputs,
      litVal w' (unprimeLit A.toAiger y) = litVal σ y := by
  have hin : ∀ x, 2 ≤ x.natAbs → x.natAbs < A.first_and → litVal w x = litVal σ x :=
    fun x h2 hx => litVal_congr (h.leaf _ h2 hx)
  refine ⟨fun x hx => ?_, fun x hx => ?_, fun y hy => ?_⟩
  · have hix := modelState_inputs hx
    exact hin x hix.1 (by have := hix.2; unfold Aiger.first_and; omega)
  · have hlx := modelState_latches x hx
    exact hin x (by have := hlx.1; omega) hlx.2
  · obtain ⟨⟨i, hi, hab⟩, _⟩ := mem_modelLits (by have := two_le_primed (A := A); omega) hy
    have hv := litVal_unprimeLit (A := A) (by omega) hab primes1_roots.ok σ
    have hu := (unprimeLit_spec (A := A) (by omega) hab (primes1 A)).1
    have hval : litVal w' (unprimeLit A.toAiger y) =
        litVal (unprimed A (primes1 A) σ) (unprimeLit A.toAiger y) :=
      litVal_congr (h.leaf' _ (by omega) (by unfold Aiger.first_and; omega))
    rw [hval, hv]

/-- The lift query for a model of the frame solver has no model. -/
theorem lift_unsat (hsh : Shape A E p) {l : CaDiCaL} (hl : LiftSolver A E l) {succ : Option Nat}
    (hm : HasModel A E p k (liftLits A p succ)) (ht : Trusted A E true) {sorted : Cube}
    (hperm : sorted.Perm (modelState A.toAiger (p.frame k).solver).latches) :
    ¬ (p.liftQuery l succ ((modelState A.toAiger (p.frame k).solver).inputs ++
      modelLits (p.frame k).solver A.primed_first_dimacs A.num_inputs) sorted).query.Satisfiable := by
  rintro ⟨σ, hcl, has⟩
  have hq := hsh.liftQueryOf hl succ ((modelState A.toAiger (p.frame k).solver).inputs ++
    modelLits (p.frame k).solver A.primed_first_dimacs A.num_inputs) sorted
  simp only [CaDiCaL.query, hq.clauses, hq.assumptions, cnfSat_append, cnfSat_cons] at hcl has
  obtain ⟨hbase, hact, -⟩ := hcl
  obtain ⟨rest, hlc, -⟩ := hl.clauses
  rw [hlc, cnfSat_append] at hbase
  obtain ⟨w, w', htr, hmat⟩ := simpCnf_sound primes1_roots ht.lift hbase.1
  obtain ⟨hin, hlat, hprime⟩ := hmat.assumed (p.frame k).solver
  have hreach := hm.reaches hsh ht w w' ?_ ?_ ?_ htr.next
  · -- then the target holds, against the activated clause
    have htarget := liftTarget_of_matches hsh hmat hreach.1 hreach.2.1 hreach.2.2
    rw [clauseSat_cons] at hact
    rcases hact with hact | hact
    · rw [litVal_neg_eq_true (by omega), has _ List.mem_cons_self] at hact
      cases hact
    · exact (clauseSat_negCube fun x hx => (liftTarget_bounds hsh succ x hx).1).mp hact htarget
  · intro x hx
    rw [hlat x hx]
    refine has x (List.mem_cons_of_mem _ (List.mem_append_right _ ?_))
    exact hperm.mem_iff.mpr hx
  · intro x hx
    rw [hin x hx]
    exact has x (List.mem_cons_of_mem _ (List.mem_append_left _ (List.mem_append_left _ hx)))
  · intro x hx
    obtain ⟨y, hy, rfl⟩ := List.mem_map.mp hx
    rw [hprime y hy]
    exact has y (List.mem_cons_of_mem _ (List.mem_append_left _ (List.mem_append_right _ hy)))

end ModelChecker
