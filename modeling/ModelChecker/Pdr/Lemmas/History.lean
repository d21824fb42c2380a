import ModelChecker.Pdr.Lemmas.Check

/-!
# Queries after any history

What a query of `is_inductive` or of the lift solver asks depends only on the encoding, the lemmas and
the query itself: clauses of earlier queries are switched off by their activation variables.
-/

namespace ModelChecker

open Logic

variable {A : Circuit} {E : Eliminator} {p : PDR} {k : Nat} {c : Cube}

/-! ## `is_inductive` -/

/-- The lemmas of frame `k` (and the initial condition for `k = 0`), the transition relation with the
constraints of both steps and no bad state, `¬ c` and `c'`. -/
def InductiveFormula (A : Circuit) (E : Eliminator) (p : PDR) (k : Nat) (c : Cube) : Prop :=
  ∃ w w', (k = 0 → A.system.Init w) ∧ CnfSat w (lemmaClauses A E k (p.frame k).solver) ∧
    A.system.Step w w' ∧ ¬ CubeSat w c ∧ CubeSat w' c

theorem FrameSolver.lemma_iff {s : CaDiCaL} (h : FrameSolver A E k s) {w : Assignment} :
    CnfSat w (lemmaClauses A E k s) ↔
      ∀ d, A.LatchCube d → negCube d ∈ frameExtra A E k s → ¬ CubeSat w d := by
  constructor
  · intro hw d hd hm
    exact (clauseSat_negCube hd.nonZero).mp (hw _ ((mem_lemmaClauses h).mpr ⟨d, hd, rfl, hm⟩))
  · intro hw c hc
    obtain ⟨d, hd, rfl, hm⟩ := (mem_lemmaClauses h).mp hc
    exact (clauseSat_negCube hd.nonZero).mpr (hw d hd hm)

theorem cubeSat_of_leaf {σ w : Assignment} (h : ∀ u, 2 ≤ u → u < A.first_and → w u = σ u)
    (hc : A.LatchCube c) : CubeSat w c ↔ CubeSat σ c :=
  hc.congr fun u hu => by have := hu.1; exact h u (by omega) hu.2

/-- The query is satisfiable iff the formula is. -/
theorem QueryOf.satisfiable_iff {sorted : Cube} {s : CaDiCaL} (h : QueryOf A E p k c sorted s)
    (hs : FrameSolver A E k (p.frame k).solver) (hc : A.LatchCube c) (hperm : sorted.Perm c)
    (hE : Trusted A E true) : s.query.Satisfiable ↔ InductiveFormula A E p k c := by
  constructor
  · rintro ⟨σ, hF, hA⟩
    simp only [CaDiCaL.query, h.clauses, h.assumptions, cnfSat_append, cnfSat_cons] at hF hA
    obtain ⟨hF, hq, _⟩ := hF
    rw [hs.clauses_eq, cnfSat_append] at hF
    obtain ⟨w, w', hst, h0, hm⟩ := base_sound hE hF.1
    refine ⟨w, w', h0, hs.lemma_iff.mpr fun d hd hmem => ?_, hst, ?_, ?_⟩
    · rw [cubeSat_of_leaf hm.leaf hd]
      exact (clauseSat_negCube hd.nonZero).mp (hF.2 _ hmem)
    · rw [cubeSat_of_leaf hm.leaf hc, ← clauseSat_negCube hc.nonZero]
      have hact := hA _ List.mem_cons_self
      rw [clauseSat_cons, litVal_neg_eq_true (by omega), hact] at hq
      exact hq.resolve_left (by rintro ⟨⟩)
    · refine cubeSat_of_matches hm hc fun l hl => hA l (List.mem_cons_of_mem _ ?_)
      obtain ⟨m, hm, rfl⟩ := List.mem_map.mp hl
      exact List.mem_map_of_mem (hperm.mem_iff.mpr hm)
  · rintro ⟨w, w', h0, hlem, hst, hcw, hcw'⟩
    obtain ⟨σ, hF, hact, hpr⟩ := h.models hs hc hst h0 (hs.lemma_iff.mp hlem) hcw
    refine ⟨σ, hF, fun l hl => ?_⟩
    simp only [CaDiCaL.query, h.assumptions] at hl
    rcases List.mem_cons.mp hl with rfl | hl
    · exact hact
    · obtain ⟨m, hm, rfl⟩ := List.mem_map.mp hl
      have hmc := hperm.mem_iff.mp hm
      rw [hpr m (hc m hmc)]
      exact hcw' m hmc

/-! ## The lift query -/

/-- `encode_lift` on an empty solver. -/
def freshLift (E : Eliminator) (p : PDR) : CaDiCaL :=
  ({} : CaDiCaL).addAll ((p.fillSatelite2 E).satelite2.getD [])

theorem Shape.freshLift (h : Shape A E p) : LiftSolver A E (freshLift E p) := by
  unfold ModelChecker.freshLift
  rw [h.fillSatelite2.1]
  exact newLift

/-- What a lift query asks. -/
theorem LiftQueryOf.satisfiable_iff {l s : CaDiCaL} {succ : Option Nat} {ls : List Int}
    (h : LiftQueryOf A E p l succ ls s) (hsh : Shape A E p) (hl : LiftSolver A E l)
    (hls : ∀ x ∈ ls, x.natAbs ≤ liftVars A) :
    s.query.Satisfiable ↔ ∃ σ, CnfSat σ (liftBase A E) ∧ ClauseSat σ (negCube (liftTarget A p succ)) ∧
      CubeSat σ ls := by
  obtain ⟨rest, hrest, hq⟩ := hl.clauses
  have hnv := hl.nv
  constructor
  · rintro ⟨σ, hF, hA⟩
    simp only [CaDiCaL.query, h.clauses, h.assumptions, hrest, cnfSat_append, cnfSat_cons] at hF hA
    obtain ⟨⟨hbase, _⟩, hcl, _⟩ := hF
    have hact := hA _ List.mem_cons_self
    rw [clauseSat_cons, litVal_neg_eq_true (by omega), hact] at hcl
    exact ⟨σ, hbase, hcl.resolve_left (by rintro ⟨⟩), fun x hx => hA x (List.mem_cons_of_mem _ hx)⟩
  · rintro ⟨σ, hbase, hcl, hA⟩
    have htarget : VarsLe (liftVars A) (negCube (liftTarget A p succ)) := by
      intro x hx
      obtain ⟨y, hy, rfl⟩ := List.mem_map.mp hx
      have := (liftTarget_bounds hsh succ y hy).2
      omega
    refine ⟨activate (liftVars A) σ (l.nv + 1), ?_, fun x hx => ?_⟩
    · simp only [CaDiCaL.query, h.clauses, hrest, cnfSat_append, cnfSat_cons]
      refine ⟨⟨fun c hc => ?_, fun c hc => (hq c hc).activate (by omega)⟩, ?_, cnfSat_nil _⟩
      · rw [clauseSat_activate (n := liftVars A) (simpCnf_varsLe false E c hc)]
        exact hbase c hc
      · rw [clauseSat_cons]
        exact Or.inr ((clauseSat_activate htarget).mpr hcl)
    · simp only [CaDiCaL.query, h.assumptions] at hx
      rcases List.mem_cons.mp hx with rfl | hx
      · exact activate_self (by omega)
      · rw [litVal_activate (hls x hx)]
        exact hA x hx

end ModelChecker
