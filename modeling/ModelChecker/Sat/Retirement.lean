import ModelChecker.Sat.Solver

/-!
# Retiring activation variables

A query adds its clause together with a new variable, which it assumes; `set_clear_act` at its end and
`clear_act` at the start of the next query are to fix that variable to false. They are not virtual, so the
static type of the pointer decides what they do: through `CaDiCaL *` every variable is retired, through
`SATSolver *` none is.
-/

namespace ModelChecker

open Logic

/-! ## Calls on a solver -/

/-- The functions a pointer calls. -/
structure Dispatch where
  clear_act : CaDiCaL → CaDiCaL
  set_clear_act : CaDiCaL → CaDiCaL

def viaSATSolver : Dispatch := ⟨SATSolver.clear_act, SATSolver.set_clear_act⟩

def viaCaDiCaL : Dispatch := ⟨CaDiCaL.clear_act, CaDiCaL.set_clear_act⟩

/-- A query with the clause `body`, or a clause that is added for good. -/
inductive SolverCall where
  | query (body : Clause) (assumed : List Int) (answer : Answer)
  | add (clause : Clause)

def SolverCall.clause : SolverCall → Clause
  | .query body _ _ => body
  | .add clause => clause

def SolverCall.IsQuery : SolverCall → Prop
  | .query _ _ _ => True
  | .add _ => False

/-- A solver, and the activation variables it has been given, the last one first. -/
structure Log where
  solver : CaDiCaL
  acts : List Nat := []

namespace Dispatch

variable (d : Dispatch)

/-- The variable of the next query. -/
def act (s : CaDiCaL) : Nat := (d.clear_act s).max_var + 1

def query (s : CaDiCaL) (body : Clause) (assumed : List Int) (answer : Answer) : CaDiCaL :=
  let s := d.clear_act s
  let act : Int := (s.max_var : Int) + 1
  d.set_clear_act ((((s.addClause (-act :: body)).assume act).assumeAll assumed).solved answer)

def step (x : Log) : SolverCall → Log
  | .query body assumed answer => ⟨d.query x.solver body assumed answer, d.act x.solver :: x.acts⟩
  | .add clause => ⟨x.solver.addClause clause, x.acts⟩

def run (s : CaDiCaL) (calls : List SolverCall) : Log := calls.foldl d.step ⟨s, []⟩

end Dispatch

/-- The variable is false from now on. -/
def Fixed (s : CaDiCaL) (v : Nat) : Prop := [-(v : Int)] ∈ s.clauses

/-- When a query starts to add its clause, the variables of all earlier ones are fixed; at any time at most
one is not; and what `clear_act` adds are units of activation variables, none of which is among the `n`
variables of the encoding. -/
structure Retires (d : Dispatch) (n : Nat) (s : CaDiCaL) (calls : List SolverCall) : Prop where
  fixed : ∀ pre body assumed answer post, calls = pre ++ .query body assumed answer :: post →
    ∀ v ∈ (d.run s pre).acts, Fixed (d.clear_act (d.run s pre).solver) v
  one : ∀ pre post, calls = pre ++ post → ∀ v ∈ (d.run s pre).acts, ∀ w ∈ (d.run s pre).acts,
    ¬ Fixed (d.run s pre).solver v → ¬ Fixed (d.run s pre).solver w → v = w
  unit : ∀ pre body assumed answer post, calls = pre ++ .query body assumed answer :: post →
    ∀ c ∈ (d.clear_act (d.run s pre).solver).clauses, c ∈ (d.run s pre).solver.clauses ∨
      ∃ v ∈ (d.run s pre).acts, n < v ∧ c = [-(v : Int)]

/-! ## One call -/

variable {d : Dispatch} {n : Nat} {s : CaDiCaL} {x : Log} {c : Clause} {calls : List SolverCall}

/-- A clause over the first `n` variables. -/
def Over (n : Nat) (c : Clause) : Prop := NonZero c ∧ VarsLe n c

/-- A solver between two calls that has the `n` variables of its encoding. -/
structure Solid (n : Nat) (s : CaDiCaL) : Prop where
  clause : s.clause = []
  nv : n ≤ s.nv
  vars : ∀ c ∈ s.clauses, VarsLe s.nv c

theorem Solid.add (h : Solid n s) (hc : Over n c) :
    Solid n (s.addClause c) ∧ (s.addClause c).clauses = s.clauses ++ [c] ∧ (s.addClause c).nv = s.nv ∧
      (s.addClause c).clear_flag = s.clear_flag := by
  have hvars : VarsLe s.nv c := fun l hl => (hc.2 l hl).trans h.nv
  have hnv : CaDiCaL.maxVar s.nv c = s.nv :=
    le_antisymm (CaDiCaL.maxVar_le le_rfl hvars) (CaDiCaL.le_maxVar _ _)
  rw [CaDiCaL.addClause_eq hc.1 h.clause]
  refine ⟨⟨h.clause, ?_, ?_⟩, rfl, hnv, rfl⟩
  · simpa [hnv] using h.nv
  · simp only [hnv, List.mem_append, List.mem_singleton]
    rintro e (he | rfl)
    · exact h.vars e he
    · exact hvars

theorem Solid.activate (h : Solid n s) (hc : Over n c) :
    Solid n (s.addClause (-((s.nv : Int) + 1) :: c)) ∧
      (s.addClause (-((s.nv : Int) + 1) :: c)).clauses = s.clauses ++ [-((s.nv + 1 : Nat) : Int) :: c] ∧
      (s.addClause (-((s.nv : Int) + 1) :: c)).nv = s.nv + 1 ∧
      (s.addClause (-((s.nv : Int) + 1) :: c)).clear_flag = s.clear_flag := by
  have h0 : NonZero (-((s.nv : Int) + 1) :: c) := by
    intro l hl
    cases hl with
    | head => omega
    | tail _ hl => exact hc.1 l hl
  have hvars : VarsLe (s.nv + 1) (-((s.nv : Int) + 1) :: c) := by
    intro l hl
    cases hl with
    | head => omega
    | tail _ hl =>
        have := hc.2 l hl
        have := h.nv
        omega
  have hnv : CaDiCaL.maxVar s.nv (-((s.nv : Int) + 1) :: c) = s.nv + 1 := by
    refine le_antisymm (CaDiCaL.maxVar_le (Nat.le_succ _) hvars) ?_
    have := CaDiCaL.varsLe_maxVar s.nv (-((s.nv : Int) + 1) :: c) _ List.mem_cons_self
    omega
  rw [CaDiCaL.addClause_eq h0 h.clause]
  refine ⟨⟨h.clause, ?_, ?_⟩, by simp, hnv, rfl⟩
  · have := h.nv
    simp only [hnv]
    omega
  · simp only [hnv, List.mem_append, List.mem_singleton]
    rintro e (he | rfl)
    · exact fun l hl => (h.vars e he l hl).trans (Nat.le_succ _)
    · exact hvars

/-- Both versions of `set_clear_act` change the flag at most. -/
def Dispatch.Flags (d : Dispatch) : Prop := ∀ s, ∃ b, d.set_clear_act s = { s with clear_flag := b }

theorem flags_viaSATSolver : viaSATSolver.Flags := fun s => ⟨s.clear_flag, rfl⟩

theorem flags_viaCaDiCaL : viaCaDiCaL.Flags := fun _ => ⟨true, rfl⟩

/-- What a query does to the clauses, once `clear_act` has run. -/
theorem Solid.query (h : Solid n (d.clear_act s)) (hd : d.Flags) (hc : Over n c) (assumed : List Int)
    (a : Answer) :
    Solid n (d.query s c assumed a) ∧
      (d.query s c assumed a).clauses = (d.clear_act s).clauses ++ [-(d.act s : Int) :: c] ∧
      (d.query s c assumed a).nv = d.act s := by
  obtain ⟨hs, hcl, hnv, _⟩ := h.activate hc
  simp only [Dispatch.query, Dispatch.act, CaDiCaL.max_var, CaDiCaL.assumeAll_eq]
  obtain ⟨b, hb⟩ := hd (CaDiCaL.solved _ a)
  rw [hb]
  exact ⟨⟨hs.clause, hs.nv, hs.vars⟩, hcl, hnv⟩

theorem Solid.fresh {F : Cnf} (h0 : ∀ c ∈ F, NonZero c) :
    Solid (({} : CaDiCaL).addAll F).max_var (({} : CaDiCaL).addAll F) ∧
      (({} : CaDiCaL).addAll F).clear_flag = false := by
  rw [CaDiCaL.addAll_eq h0 rfl]
  exact ⟨⟨rfl, le_rfl, fun c hc => CaDiCaL.varsLe_maxVars 0 hc⟩, rfl⟩

/-! ## Runs -/

theorem Dispatch.run_concat (d : Dispatch) (s : CaDiCaL) (calls : List SolverCall) (e : SolverCall) :
    d.run s (calls ++ [e]) = d.step (d.run s calls) e := by
  simp [Dispatch.run]

/-- The variables given out lie above the encoding and below the next one. -/
structure Tracked (n : Nat) (x : Log) : Prop where
  solid : Solid n x.solver
  act : ∀ v ∈ x.acts, n < v ∧ v ≤ x.solver.nv

theorem Tracked.start (hs : Solid n s) : Tracked n (d.run s []) := ⟨hs, by rintro v ⟨⟩⟩

/-- A solver on which `clear_act` only adds clauses. -/
structure Cleared (d : Dispatch) (n : Nat) (x : Log) : Prop extends Tracked n x where
  clear : Solid n (d.clear_act x.solver)
  clearNv : (d.clear_act x.solver).nv = x.solver.nv
  sub : x.solver.clauses ⊆ (d.clear_act x.solver).clauses

theorem Tracked.cleared (h : Tracked n x) : Cleared viaSATSolver n x :=
  ⟨h, h.solid, rfl, fun _ hc => hc⟩

theorem Cleared.step (h : Cleared d n x) (hd : d.Flags) {e : SolverCall} (he : Over n e.clause) :
    Tracked n (d.step x e) := by
  cases e with
  | query body assumed a =>
      obtain ⟨hs, _, hq⟩ := h.clear.query hd he assumed a
      have hact : d.act x.solver = x.solver.nv + 1 := congrArg (· + 1) h.clearNv
      refine ⟨hs, fun v hv => ?_⟩
      have hle : (d.step x (.query body assumed a)).solver.nv = x.solver.nv + 1 := hq.trans hact
      have hn := h.solid.nv
      rw [hle]
      cases hv with
      | head => omega
      | tail _ hv =>
          have := h.act v hv
          omega
  | add c =>
      obtain ⟨hs, _, hq, _⟩ := h.solid.add he
      exact ⟨hs, fun v hv => ⟨(h.act v hv).1, (h.act v hv).2.trans hq.ge⟩⟩

/-- A call keeps the clauses, and a query those of `clear_act`. -/
theorem Cleared.keeps (h : Cleared d n x) (hd : d.Flags) {e : SolverCall} (he : Over n e.clause) :
    x.solver.clauses ⊆ (d.step x e).solver.clauses ∧
      (e.IsQuery → (d.clear_act x.solver).clauses ⊆ (d.step x e).solver.clauses) := by
  cases e with
  | query body assumed a =>
      have hq : (d.step x (.query body assumed a)).solver.clauses = _ :=
        (h.clear.query hd he assumed a).2.1
      have hsub : (d.clear_act x.solver).clauses ⊆ (d.step x (.query body assumed a)).solver.clauses :=
        hq ▸ List.subset_append_left _ _
      exact ⟨List.Subset.trans h.sub hsub, fun _ => hsub⟩
  | add b =>
      have hq : (d.step x (.add b)).solver.clauses = _ := (h.solid.add he).2.1
      exact ⟨hq ▸ List.subset_append_left _ _, fun hf => hf.elim⟩

/-- All variables but the last one are fixed at any time, if `clear_act` fixes the last one before the next
query. -/
theorem tail_fixed (hcl : ∀ pre post, calls = pre ++ post → Cleared d n (d.run s pre)) (hd : d.Flags)
    (hc : ∀ e ∈ calls, Over n e.clause)
    (hfix : ∀ pre body assumed a post, calls = pre ++ .query body assumed a :: post →
      (∀ v ∈ (d.run s pre).acts.tail, Fixed (d.run s pre).solver v) →
      ∀ v ∈ (d.run s pre).acts, Fixed (d.clear_act (d.run s pre).solver) v) :
    ∀ v ∈ (d.run s calls).acts.tail, Fixed (d.run s calls).solver v := by
  induction calls using List.reverseRecOn with
  | nil => rintro v ⟨⟩
  | append_singleton calls e ih =>
      have htail : ∀ v ∈ (d.run s calls).acts.tail, Fixed (d.run s calls).solver v := by
        refine ih (fun pre post hcalls => ?_) (fun e he => ?_) fun pre body assumed a post hcalls => ?_
        · exact hcl pre (post ++ [e]) (by rw [hcalls, List.append_assoc])
        · exact hc e (List.mem_append_left _ he)
        · exact hfix pre body assumed a (post ++ [e]) (by rw [hcalls, List.append_assoc]; rfl)
      obtain ⟨hold, hnew⟩ := (hcl calls [e] rfl).keeps hd (hc e List.mem_concat_self)
      rw [Dispatch.run_concat]
      intro v hv
      cases e with
      | query body assumed a => exact hnew trivial (hfix calls body assumed a [] rfl htail v hv)
      | add c => exact hold (htail v hv)

theorem Retires.of_fixed (hcl : ∀ pre post, calls = pre ++ post → Cleared d n (d.run s pre)) (hd : d.Flags)
    (hc : ∀ e ∈ calls, Over n e.clause)
    (hfix : ∀ pre body assumed a post, calls = pre ++ .query body assumed a :: post →
      (∀ v ∈ (d.run s pre).acts.tail, Fixed (d.run s pre).solver v) →
      ∀ v ∈ (d.run s pre).acts, Fixed (d.clear_act (d.run s pre).solver) v)
    (hunit : ∀ pre post, calls = pre ++ post → ∀ c ∈ (d.clear_act (d.run s pre).solver).clauses,
      c ∈ (d.run s pre).solver.clauses ∨ ∃ v ∈ (d.run s pre).acts, n < v ∧ c = [-(v : Int)]) :
    Retires d n s calls := by
  have htail : ∀ pre post, calls = pre ++ post →
      ∀ v ∈ (d.run s pre).acts.tail, Fixed (d.run s pre).solver v := by
    intro pre post hcalls
    refine tail_fixed (n := n) (fun p q hpq => ?_) hd (fun e he => ?_) fun p body assumed a q hpq => ?_
    · exact hcl p (q ++ post) (by rw [hcalls, hpq, List.append_assoc])
    · exact hc e (hcalls ▸ List.mem_append_left _ he)
    · exact hfix p body assumed a (q ++ post) (by rw [hcalls, hpq, List.append_assoc]; rfl)
  refine ⟨fun pre body assumed a post hcalls => ?_, fun pre post hcalls v hv w hw hnv hnw => ?_,
    fun pre _ _ _ _ hcalls => hunit pre _ hcalls⟩
  · exact hfix pre body assumed a post hcalls (htail pre _ hcalls)
  · have ht := htail pre post hcalls
    cases hacts : (d.run s pre).acts with
    | nil => rw [hacts] at hv; cases hv
    | cons u us =>
        rw [hacts] at hv hw ht
        rcases List.mem_cons.mp hv with rfl | hv
        · rcases List.mem_cons.mp hw with rfl | hw
          · rfl
          · exact absurd (ht w hw) hnw
        · exact absurd (ht v hv) hnv

/-! ## Through `SATSolver` -/

theorem Tracked.run_frame (hs : Solid n s) (hc : ∀ e ∈ calls, Over n e.clause) :
    Tracked n (viaSATSolver.run s calls) := by
  induction calls using List.reverseRecOn with
  | nil => exact .start hs
  | append_singleton calls e ih =>
      have h := ih fun e he => hc e (List.mem_append_left _ he)
      rw [Dispatch.run_concat]
      exact h.cleared.step flags_viaSATSolver (hc e List.mem_concat_self)

theorem Tracked.fixed_step (h : Tracked n x) {e : SolverCall} (he : Over n e.clause) {v : Nat} (hn : n < v)
    (hv : v ≤ x.solver.nv) : Fixed (viaSATSolver.step x e).solver v ↔ Fixed x.solver v := by
  have hnew : ∃ c, (viaSATSolver.step x e).solver.clauses = x.solver.clauses ++ [c] ∧
      c ≠ [-(v : Int)] := by
    cases e with
    | query body assumed a =>
        refine ⟨_, (Solid.query (d := viaSATSolver) h.solid flags_viaSATSolver he assumed a).2.1, ?_⟩
        intro hcontra
        have hhead : -(viaSATSolver.act x.solver : Int) = -(v : Int) := (List.cons.inj hcontra).1
        have hact : viaSATSolver.act x.solver = x.solver.nv + 1 := rfl
        omega
    | add c =>
        refine ⟨c, (h.solid.add he).2.1, fun hcontra => ?_⟩
        have hle : (-(v : Int)).natAbs ≤ n := he.2 _ (by simp [SolverCall.clause, hcontra])
        omega
  obtain ⟨c, hcl, hne⟩ := hnew
  unfold Fixed
  rw [hcl, List.mem_append, List.mem_singleton]
  exact ⟨fun hor => hor.resolve_right fun heq => hne heq.symm, .inl⟩

/-- The clause of a query is a unit when nothing follows the variable. -/
theorem Solid.fixed_act (h : Solid n s) (hc : Over n c) (assumed : List Int) (a : Answer) :
    Fixed (viaSATSolver.query s c assumed a) (viaSATSolver.act s) ↔ c = [] := by
  have hold : [-(viaSATSolver.act s : Int)] ∉ s.clauses := by
    intro hmem
    have hle := h.vars _ hmem _ (List.mem_singleton.mpr rfl)
    have hact : viaSATSolver.act s = s.nv + 1 := rfl
    omega
  unfold Fixed
  rw [(Solid.query (d := viaSATSolver) h flags_viaSATSolver hc assumed a).2.1, List.mem_append,
    List.mem_singleton, List.cons.injEq]
  exact ⟨fun hor => (hor.resolve_left hold).2.symm, fun hnil => .inr ⟨rfl, hnil.symm⟩⟩

theorem frame_fixed (hs : Solid n s) (hc : ∀ e ∈ calls, Over n e.clause) :
    (∀ v ∈ (viaSATSolver.run s calls).acts, Fixed (viaSATSolver.run s calls).solver v) ↔
      ∀ e ∈ calls, e.IsQuery → e.clause = [] := by
  induction calls using List.reverseRecOn with
  | nil => simp [Dispatch.run]
  | append_singleton calls e ih =>
      have hpre : ∀ e ∈ calls, Over n e.clause := fun e he => hc e (List.mem_append_left _ he)
      have hlast := hc e List.mem_concat_self
      have h := Tracked.run_frame hs hpre
      rw [Dispatch.run_concat, List.forall_mem_append, ← ih hpre, List.forall_mem_singleton]
      have hold : (∀ v ∈ (viaSATSolver.run s calls).acts,
          Fixed (viaSATSolver.step (viaSATSolver.run s calls) e).solver v) ↔
          ∀ v ∈ (viaSATSolver.run s calls).acts, Fixed (viaSATSolver.run s calls).solver v :=
        forall₂_congr fun v hv => h.fixed_step hlast (h.act v hv).1 (h.act v hv).2
      cases e with
      | query body assumed a =>
          have hnew := h.solid.fixed_act hlast assumed a
          show (∀ v ∈ _ :: _, _) ↔ _
          rw [List.forall_mem_cons, hold, and_comm]
          exact and_congr_right fun _ => hnew.trans (imp_iff_right trivial).symm
      | add c =>
          refine hold.trans ⟨fun hall => ⟨hall, fun hq => hq.elim⟩, And.left⟩

/-- Through `SATSolver *` nothing is retired: a variable is fixed only by a query with the empty clause. -/
theorem retires_viaSATSolver (hs : Solid n s) (hc : ∀ e ∈ calls, Over n e.clause) :
    Retires viaSATSolver n s calls ↔ ∀ pre body assumed a post,
      calls = pre ++ .query body assumed a :: post → (∃ e ∈ post, e.IsQuery) → body = [] := by
  have hpre : ∀ pre post, calls = pre ++ post → ∀ e ∈ pre, Over n e.clause :=
    fun pre post hcalls e he => hc e (hcalls ▸ List.mem_append_left _ he)
  constructor
  · rintro h pre body assumed a post hcalls ⟨e, he, hq⟩
    obtain ⟨p, q, rfl⟩ := List.append_of_mem he
    cases e with
    | add c => exact hq.elim
    | query body' assumed' a' =>
        have hsplit : calls = (pre ++ .query body assumed a :: p) ++ .query body' assumed' a' :: q := by
          rw [hcalls, List.append_assoc]; rfl
        have hall := (frame_fixed hs (hpre _ _ hsplit)).mp (h.fixed _ _ _ _ _ hsplit)
        exact hall _ (List.mem_append_right _ List.mem_cons_self) trivial
  · intro hempty
    refine Retires.of_fixed (fun pre post hcalls => (Tracked.run_frame hs (hpre pre post hcalls)).cleared)
      flags_viaSATSolver hc (fun pre body assumed a post hcalls _ => ?_) fun pre post _ c hmem => .inl hmem
    refine (frame_fixed hs (hpre pre _ hcalls)).mpr fun e he hq => ?_
    obtain ⟨p, q, rfl⟩ := List.append_of_mem he
    cases e with
    | add c => exact hq.elim
    | query body' assumed' a' =>
        refine hempty p body' assumed' a' (q ++ .query body assumed a :: post) ?_
          ⟨_, List.mem_append_right _ List.mem_cons_self, trivial⟩
        rw [hcalls, List.append_assoc]
        rfl

/-! ## Through `CaDiCaL` -/

/-- The flag is set from the first query on, and the last variable is the largest one. -/
structure Flagged (n : Nat) (x : Log) : Prop extends Tracked n x where
  flag : x.solver.clear_flag = true ↔ x.acts ≠ []
  last : ∀ v ∈ x.acts.head?, v = x.solver.nv

theorem CaDiCaL.clear_act_eq (hs : s.clause = []) (hf : s.clear_flag = true) (hpos : 0 < s.nv) :
    s.clear_act = { s with clauses := s.clauses ++ [[-(s.nv : Int)]], clear_flag := false } := by
  have h0 : NonZero [-(s.nv : Int)] := by
    intro l hl
    rw [List.mem_singleton] at hl
    omega
  have hadd := addClause_eq h0 hs
  have hmax : maxVar s.nv [-(s.nv : Int)] = s.nv := by simp [maxVar]
  rw [hmax] at hadd
  simp only [clear_act, hf, ↓reduceIte]
  exact congrArg (fun t : CaDiCaL => { t with clear_flag := false }) hadd

theorem Flagged.clear_act (h : Flagged n x) : Cleared viaCaDiCaL n x ∧
    x.solver.clear_act.clauses = x.solver.clauses ++ x.acts.head?.toList.map fun v : Nat => [-(v : Int)] := by
  cases hacts : x.acts with
  | nil =>
      have hflag : ¬ x.solver.clear_flag = true := fun hf => h.flag.mp hf hacts
      have heq : x.solver.clear_act = { x.solver with clear_flag := false } := by
        simp [CaDiCaL.clear_act, hflag]
      refine ⟨⟨h.toTracked, ?_, ?_, ?_⟩, ?_⟩ <;> simp only [viaCaDiCaL, heq]
      · exact ⟨h.solid.clause, h.solid.nv, h.solid.vars⟩
      · exact fun _ hc => hc
      · simp
  | cons v vs =>
      have hflag : x.solver.clear_flag = true := h.flag.mpr (by simp [hacts])
      have hv : v = x.solver.nv := h.last v (by simp [hacts])
      have hpos : n < v := (h.act v (by simp [hacts])).1
      have heq := CaDiCaL.clear_act_eq h.solid.clause hflag (by omega)
      refine ⟨⟨h.toTracked, ?_, ?_, ?_⟩, ?_⟩ <;> simp only [viaCaDiCaL, heq]
      · refine ⟨h.solid.clause, h.solid.nv, List.forall_mem_append.mpr ⟨h.solid.vars, ?_⟩⟩
        simp [VarsLe]
      · exact List.subset_append_left _ _
      · simp [hv]

/-- At the start of a query all variables are fixed. -/
theorem Flagged.fixed (h : Flagged n x) (htail : ∀ v ∈ x.acts.tail, Fixed x.solver v) :
    ∀ v ∈ x.acts, Fixed x.solver.clear_act v := by
  obtain ⟨_, heq⟩ := h.clear_act
  unfold Fixed at *
  rw [heq]
  cases hacts : x.acts with
  | nil => rintro v ⟨⟩
  | cons u us =>
      rw [hacts] at htail
      intro v hv
      rcases List.mem_cons.mp hv with rfl | hv
      · exact List.mem_append_right _ (by simp)
      · exact List.mem_append_left _ (htail v hv)

theorem Flagged.step (h : Flagged n x) {e : SolverCall} (he : Over n e.clause) :
    Flagged n (viaCaDiCaL.step x e) := by
  obtain ⟨hcl, _⟩ := h.clear_act
  refine ⟨hcl.step flags_viaCaDiCaL he, ?_, ?_⟩
  · cases e with
    | query body assumed a => exact ⟨fun _ => List.cons_ne_nil _ _, fun _ => rfl⟩
    | add c =>
        have hflag : (viaCaDiCaL.step x (.add c)).solver.clear_flag = _ := (h.solid.add he).2.2.2
        rw [hflag]
        exact h.flag
  · cases e with
    | query body assumed a =>
        have hnv : (viaCaDiCaL.step x (.query body assumed a)).solver.nv = _ :=
          (hcl.clear.query flags_viaCaDiCaL he assumed a).2.2
        intro v hv
        rw [hnv]
        exact (Option.some.inj hv).symm
    | add c =>
        have hnv : (viaCaDiCaL.step x (.add c)).solver.nv = _ := (h.solid.add he).2.2.1
        rw [hnv]
        exact h.last

theorem Flagged.run (hs : Solid n s) (hf : s.clear_flag = false) (hc : ∀ e ∈ calls, Over n e.clause) :
    Flagged n (viaCaDiCaL.run s calls) := by
  induction calls using List.reverseRecOn with
  | nil => exact ⟨.start hs, by simp [Dispatch.run, hf], by rintro v ⟨⟩⟩
  | append_singleton calls e ih =>
      rw [Dispatch.run_concat]
      exact (ih fun e he => hc e (List.mem_append_left _ he)).step (hc e List.mem_concat_self)

/-- Through `CaDiCaL *` every variable is retired. -/
theorem retires_viaCaDiCaL (hs : Solid n s) (hf : s.clear_flag = false)
    (hc : ∀ e ∈ calls, Over n e.clause) : Retires viaCaDiCaL n s calls := by
  have hpre : ∀ pre post, calls = pre ++ post → ∀ e ∈ pre, Over n e.clause :=
    fun pre post hcalls e he => hc e (hcalls ▸ List.mem_append_left _ he)
  refine Retires.of_fixed (fun pre post hcalls => (Flagged.run hs hf (hpre pre post hcalls)).clear_act.1)
    flags_viaCaDiCaL hc (fun pre body assumed a post hcalls => ?_) fun pre post hcalls c hmem => ?_
  · exact (Flagged.run hs hf (hpre pre _ hcalls)).fixed
  · have h := Flagged.run hs hf (hpre pre post hcalls)
    have hmem : c ∈ (viaCaDiCaL.run s pre).solver.clear_act.clauses := hmem
    rw [h.clear_act.2] at hmem
    rcases List.mem_append.mp hmem with hmem | hmem
    · exact .inl hmem
    · obtain ⟨v, hv, rfl⟩ := List.mem_map.mp hmem
      have hv : v ∈ (viaCaDiCaL.run s pre).acts := List.mem_of_mem_head? (Option.mem_toList.mp hv)
      exact .inr ⟨v, hv, (h.act v hv).1, rfl⟩

end ModelChecker
