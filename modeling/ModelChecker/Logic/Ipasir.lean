import ModelChecker.Logic.Cnf

/-!
# The contract of an incremental SAT solver

A query is the clauses added so far and the assumptions made since the last query. A solver may
answer with any partial model all of whose completions satisfy the query, and with any subset of the
assumptions that is already contradictory with the clauses. `Ipasir` is a solver that keeps to this
contract; the first argument of `solve` is the time of the query, so two equal queries may be
answered differently.
-/

namespace ModelChecker.Logic

structure Query where
  clauses : Cnf
  assumptions : List Int
deriving DecidableEq, Repr

inductive Answer where
  | sat (model : Nat → Option Bool)
  | unsat (core : List Int)

/-- What a solver may answer. -/
def Legal (q : Query) : Answer → Prop
  | .sat m => ∀ σ, Completes m σ → CnfSat σ q.clauses ∧ CubeSat σ q.assumptions
  | .unsat core => core ⊆ q.assumptions ∧ ∀ σ, CnfSat σ q.clauses → ¬ CubeSat σ core

structure Ipasir where
  solve : Nat → Query → Answer
  legal : ∀ n q, Legal q (solve n q)

/-- A query is satisfiable when some assignment meets its clauses and its assumptions. -/
def Query.Satisfiable (q : Query) : Prop := ∃ σ, CnfSat σ q.clauses ∧ CubeSat σ q.assumptions

theorem Legal.satisfiable {q : Query} {m} (h : Legal q (.sat m)) : q.Satisfiable :=
  ⟨complete m fun _ => false, h _ (completes_complete m _)⟩

theorem Legal.not_satisfiable {q : Query} {core} (h : Legal q (.unsat core)) :
    ¬ q.Satisfiable := by
  rintro ⟨σ, hF, ha⟩
  exact h.2 σ hF (ha.mono h.1)

theorem exists_legal (q : Query) : ∃ a, Legal q a := by
  by_cases h : q.Satisfiable
  · obtain ⟨σ, hF, ha⟩ := h
    refine ⟨.sat fun v => some (σ v), fun τ hτ => ?_⟩
    have : τ = σ := funext fun v => hτ v _ rfl
    exact this ▸ ⟨hF, ha⟩
  · exact ⟨.unsat q.assumptions, fun _ hl => hl, fun σ hF ha => h ⟨σ, hF, ha⟩⟩

open Classical in
/-- The solver that answers a query with `f` wherever that is legal. -/
noncomputable def insist (f : Query → Answer) : Ipasir where
  solve _ q := if Legal q (f q) then f q else (exists_legal q).choose
  legal _ q := by
    split
    · assumption
    · exact (exists_legal q).choose_spec

theorem insist_solve {f : Query → Answer} {q : Query} (h : Legal q (f q)) (n : Nat) :
    (insist f).solve n q = f q :=
  if_pos h

/-! ## Checking an answer

Unit propagation refutes the queries of small runs. `replay` is the solver that gives a list of
answers one after the other, as long as they can be checked. -/

/-- One clause under the literals made true so far: `none` for a conflict. -/
def propagateClause (trail : List Int) (c : Clause) : Option (List Int) :=
  if c.any (trail.contains ·) then some trail
  else
    match c.filter (fun l => !trail.contains (-l)) with
    | [] => none
    | [l] => some (l :: trail)
    | _ => some trail

def propagatePass : Cnf → List Int → Option (List Int)
  | [], trail => some trail
  | c :: F, trail => (propagateClause trail c).bind (propagatePass F)

/-- `n` passes of unit propagation find a conflict. -/
def refutes (F : Cnf) : Nat → List Int → Bool
  | 0, _ => false
  | n + 1, trail =>
    match propagatePass F trail with
    | none => true
    | some trail' => refutes F n trail'

theorem propagateClause_sound {σ : Assignment} {trail : List Int} {c : Clause} (h0 : NonZero c)
    (hc : ClauseSat σ c) (ht : CubeSat σ trail) :
    ∃ trail', propagateClause trail c = some trail' ∧ CubeSat σ trail' := by
  have hmem : ∀ l ∈ c, litVal σ l = true → l ∈ c.filter (fun l => !trail.contains (-l)) := by
    intro l hl hv
    refine List.mem_filter.mpr ⟨hl, ?_⟩
    simp only [Bool.not_eq_true', List.contains_eq_mem, decide_eq_false_iff_not]
    intro hn
    have := (litVal_neg_eq_true (h0 l hl)).mp (ht _ hn)
    rw [hv] at this; cases this
  unfold propagateClause
  split
  · exact ⟨_, rfl, ht⟩
  · obtain ⟨l, hl, hv⟩ := hc
    have hin := hmem l hl hv
    split
    · rename_i he; rw [he] at hin; cases hin
    · rename_i l' he
      rw [he, List.mem_singleton] at hin
      refine ⟨_, rfl, ?_⟩
      intro m hm
      rcases List.mem_cons.mp hm with rfl | hm
      · exact hin ▸ hv
      · exact ht m hm
    · exact ⟨_, rfl, ht⟩

theorem propagatePass_sound {σ : Assignment} {F : Cnf} (h0 : ∀ c ∈ F, NonZero c) (hF : CnfSat σ F)
    {trail : List Int} (ht : CubeSat σ trail) :
    ∃ trail', propagatePass F trail = some trail' ∧ CubeSat σ trail' := by
  induction F generalizing trail with
  | nil => exact ⟨_, rfl, ht⟩
  | cons c F ih =>
      obtain ⟨t, he, ht'⟩ := propagateClause_sound (h0 c (by simp)) (hF c (by simp)) ht
      simp only [propagatePass, he, Option.bind_some]
      exact ih (fun d hd => h0 d (by simp [hd])) (fun d hd => hF d (by simp [hd])) ht'

theorem refutes_sound {F : Cnf} (h0 : ∀ c ∈ F, NonZero c) {n : Nat} {trail : List Int}
    (h : refutes F n trail = true) {σ : Assignment} (hF : CnfSat σ F) : ¬ CubeSat σ trail := by
  induction n generalizing trail with
  | zero => simp [refutes] at h
  | succ n ih =>
      intro ht
      obtain ⟨t, he, ht'⟩ := propagatePass_sound h0 hF ht
      simp only [refutes, he] at h
      exact ih h ht'

/-- A literal the partial model makes true. -/
def modelTrue (m : Nat → Option Bool) (l : Int) : Bool := m l.natAbs == some (decide (0 ≤ l))

theorem modelTrue_sound {m : Nat → Option Bool} {σ : Assignment} (hσ : Completes m σ) {l : Int}
    (h : modelTrue m l = true) : litVal σ l = true := by
  have hv := hσ l.natAbs _ (by simpa [modelTrue] using h)
  by_cases hl : l < 0
  · simp [litVal, hl, hv, not_le.mpr hl]
  · simp [litVal, hl, hv, not_lt.mp hl]

/-- A check that is enough for an answer to be legal. -/
def checkAnswer (q : Query) : Answer → Bool
  | .sat m => q.clauses.all (fun c => c.any (modelTrue m)) && q.assumptions.all (modelTrue m)
  | .unsat core => core.all (q.assumptions.contains ·) && q.clauses.all (fun c => !c.contains 0) &&
      refutes q.clauses (q.clauses.length + 1) core

theorem checkAnswer_sound {q : Query} {a : Answer} (h : checkAnswer q a = true) : Legal q a := by
  cases a with
  | sat m =>
      simp only [checkAnswer, Bool.and_eq_true, List.all_eq_true, List.any_eq_true] at h
      intro σ hσ
      refine ⟨fun c hc => ?_, fun l hl => modelTrue_sound hσ (h.2 l hl)⟩
      obtain ⟨l, hl, hm⟩ := h.1 c hc
      exact ⟨l, hl, modelTrue_sound hσ hm⟩
  | unsat core =>
      simp only [checkAnswer, Bool.and_eq_true, List.all_eq_true, List.contains_eq_mem,
        decide_eq_true_eq, Bool.not_eq_true', decide_eq_false_iff_not] at h
      obtain ⟨⟨hsub, h0⟩, href⟩ := h
      exact ⟨fun l hl => hsub l hl, fun σ hF =>
        refutes_sound (fun c hc l hl he => h0 c hc (he ▸ hl)) href hF⟩

/-- The solver that answers the `n`-th query with `script n` whenever that answer checks. -/
noncomputable def replay (script : Nat → Answer) : Ipasir where
  solve n q := if checkAnswer q (script n) = true then script n else (exists_legal q).choose
  legal n q := by
    split
    · rename_i h; exact checkAnswer_sound h
    · exact (exists_legal q).choose_spec

end ModelChecker.Logic
