import ModelChecker.Sat.Retirement
import ModelChecker.Pdr.Incremental

/-!
# Which queries of the engine are retired

The solvers of the frames are held as `SATSolver *` and the lift solver as `CaDiCaL *`, so the calls of
`clear_act` and `set_clear_act` in `is_inductive` do nothing, and those in `extract_state_from_sat` retire
the last activation variable.
-/

namespace ModelChecker

open Logic

variable {A : Circuit} {E : Eliminator} {p : PDR} {k : Nat} {c : Cube} {env : PdrEnv} {r : Run}

/-! ## The calls -/

/-- A call on the solver of a frame. -/
inductive FrameCall (A : Circuit) where
  | is_inductive (latches : Cube) (ok : A.LatchCube latches) (sorted : Cube) (answer : Answer)
  | add_cube (cube : Cube) (ok : A.LatchCube cube)

def FrameCall.onSolver : FrameCall A → SolverCall
  | .is_inductive latches _ sorted answer =>
    .query (negCube latches) (sorted.map (primeLit A (primes1 A))) answer
  | .add_cube cube _ => .add (negCube cube)

def FrameCall.IsInductive : FrameCall A → Prop
  | .is_inductive _ _ _ _ => True
  | .add_cube _ _ => False

/-- A call of `extract_state_from_sat` in the state `pdr` of the engine. -/
structure LiftCall (A : Circuit) (E : Eliminator) where
  pdr : PDR
  shape : Shape A E pdr
  succ : Option Nat
  assumed : List Int
  answer : Answer

def LiftCall.onSolver (x : LiftCall A E) : SolverCall := .query (x.pdr.liftClause x.succ) x.assumed x.answer

/-! ## What the engine does -/

theorem is_init_frames :
    (is_init env c).Wp (fun _ r' => r'.pdr.frames = r.pdr.frames) (fun _ => False) r := rfl

theorem takeCore_frames (s : CaDiCaL) :
    (takeCore env s c).Wp (fun _ r' => r'.pdr.frames = r.pdr.frames) (fun _ => False) r := by
  unfold takeCore
  simp only [Exec.wp_bind, wp_modifyP, wp_getP, setP_pdr]
  refine is_init_frames.mono ?_ fun _ hf => hf
  intro b r' h'
  rw [Exec.wp_ite]
  exact ⟨fun _ => h', fun _ => h'⟩

theorem askInductive_onSolver (h : Shape A E r.pdr) (hk : k < r.pdr.frames.length) (hc : A.LatchCube c)
    (x : Log) (hx : x.solver = (r.pdr.frame k).solver) :
    (askInductive env k c).Wp (fun _ r' => ∃ sorted a, (r'.pdr.frame k).solver =
      (viaSATSolver.step x (FrameCall.is_inductive c hc sorted a).onSolver).solver) (fun _ => False) r := by
  unfold askInductive
  simp only [Exec.wp_bind, wp_reorder, wp_getP, wp_ask, wp_modifyP, wp_record, Exec.wp_pure, tick_pdr,
    record_pdr, setP_pdr, PDR.frame_setSolver hk, ↓reduceIte]
  refine ⟨env.order r.clock c,
    env.solver.solve r.tick.clock (r.pdr.inductiveQuery k c (env.order r.clock c)).query, ?_⟩
  generalize env.solver.solve r.tick.clock _ = a
  simp only [PDR.inductiveQuery, prime_lit_eq h]
  rw [← hx]
  rfl

/-- `is_inductive` is a query through `SATSolver *`. -/
theorem is_inductive_onSolver (h : Shape A E r.pdr) (hk : k < r.pdr.frames.length) (hc : A.LatchCube c)
    (g : Bool) (x : Log) (hx : x.solver = (r.pdr.frame k).solver) :
    (is_inductive env k c g).Wp (fun _ r' => ∃ sorted a, (r'.pdr.frame k).solver =
      (viaSATSolver.step x (FrameCall.is_inductive c hc sorted a).onSolver).solver) (fun _ => False) r := by
  unfold is_inductive
  refine (askInductive_onSolver h hk hc x hx).bind ?_
  rintro s r1 ⟨sorted, a, h1⟩
  rw [Exec.wp_ite]
  refine ⟨fun _ => ⟨sorted, a, h1⟩, fun _ => ?_⟩
  cases g with
  | false => exact ⟨sorted, a, h1⟩
  | true =>
      refine (takeCore_frames s).bind fun _ r2 h2 => ⟨sorted, a, ?_⟩
      rw [← h1]
      unfold PDR.frame
      rw [h2]

/-- `add_cube` adds its clause to the solver of a frame, or leaves it alone. -/
theorem add_cube_onSolver {v : CubeVar} (hc : A.LatchCube (sortLits (p.cube v))) {i : Nat}
    (hi : i < p.frames.length) (to_all isp : Bool) (x : Log) (hx : x.solver = (p.frame k).solver) :
    ((p.add_cube v i to_all isp).frame k).solver = x.solver ∨
      ((p.add_cube v i to_all isp).frame k).solver =
        (viaSATSolver.step x (FrameCall.add_cube _ hc).onSolver).solver := by
  have hadd : (p.add_cube v i to_all isp).frame k = p.frame k ∨ (p.add_cube v i to_all isp).frame k =
      (p.setFrames (insertCube p.frames (sortLits (p.cube v)) i to_all)).frame k := by
    unfold PDR.add_cube
    cases isp <;> cases v <;> simp only [Bool.false_eq_true, ↓reduceIte] <;> split <;>
      first | exact .inl rfl | exact .inr rfl
  rcases hadd with hadd | hadd
  · exact .inl (by rw [hadd, hx])
  · rw [hadd, PDR.frame_insertCube hi, hx]
    split_ifs with h1
    · exact .inr (by rw [← h1, ← hx]; rfl)
    · exact .inr (by rw [← hx]; rfl)
    · exact .inl rfl

theorem loadLift_onSolver (h : Shape A env.minisat r.pdr) : (loadLift env).Wp (fun l r' =>
    l = (r.pdr.lift.getD (freshLift env.minisat r.pdr)).clear_act ∧
      ∀ succ, r'.pdr.liftClause succ = r.pdr.liftClause succ) (fun _ => False) r := by
  unfold loadLift
  simp only [Exec.wp_bind, wp_getP]
  cases r.pdr.lift with
  | some l => exact ⟨rfl, fun _ => rfl⟩
  | none =>
      refine ⟨rfl, fun succ => ?_⟩
      have hstates : (r.pdr.fillSatelite2 env.minisat).states = r.pdr.states := by
        unfold PDR.fillSatelite2
        split <;> rfl
      rw [setP_pdr, liftClause_eq h.fillSatelite2.2, liftClause_eq h]
      cases succ with
      | none => rfl
      | some t => simp only [liftTarget, PDR.state, hstates]

theorem askLift_onSolver (h : Shape A env.minisat r.pdr) (succ : Option Nat) (x : Log)
    (hx : x.solver = r.pdr.lift.getD (freshLift env.minisat r.pdr)) :
    (askLift env k succ).Wp (fun y _ => ∃ assumed a, y.1.set_clear_act =
      (viaCaDiCaL.step x (LiftCall.mk r.pdr h succ assumed a).onSolver).solver) (fun _ => True) r := by
  unfold askLift
  refine ((loadLift_onSolver h).mono (fun _ _ h' => h') fun _ h' => h'.elim).bind ?_
  rintro l r1 ⟨hl, hcl⟩
  simp only [Exec.wp_bind, wp_getP, wp_reorder, wp_ask, Exec.wp_ite, Exec.wp_throw, Exec.wp_pure]
  refine ⟨fun _ => trivial, fun _ => ?_⟩
  generalize env.solver.solve _ _ = a
  generalize (modelState r1.pdr.circuit (r1.pdr.frame k).solver).inputs ++ _ = ins
  generalize env.order r1.clock _ = sorted
  refine ⟨ins ++ sorted, a, ?_⟩
  rw [hl, ← hx]
  simp only [PDR.liftQuery, hcl]
  rfl

/-- `extract_state_from_sat` is a query through `CaDiCaL *`. -/
theorem extract_onSolver (h : Shape A env.minisat r.pdr) (s : Nat) (succ : Option Nat) (findex : Nat)
    (x : Log) (hx : x.solver = r.pdr.lift.getD (freshLift env.minisat r.pdr)) :
    (extract_state_from_sat env k s succ findex).Wp (fun _ r' => ∃ assumed a, r'.pdr.lift = some
      (viaCaDiCaL.step x (LiftCall.mk r.pdr h succ assumed a).onSolver).solver) (fun _ => True) r := by
  unfold extract_state_from_sat
  refine (askLift_onSolver h succ x hx).bind ?_
  rintro ⟨l, st⟩ r1 ⟨assumed, a, hl⟩
  exact ⟨assumed, a, congrArg some hl⟩

/-! ## Retirement -/

theorem FrameCall.over (x : FrameCall A) : Over (freshSolver A E k).max_var x.onSolver.clause := by
  have hle : A.max_var ≤ (freshSolver A E k).nv :=
    max_var_le_frameVars.trans (frameSolver_fresh (A := A) (E := E) (k := k)).nv
  cases x with
  | is_inductive latches ok sorted answer =>
      exact ⟨ok.negCube.1, fun l hl => (ok.negCube.2 l hl).trans hle⟩
  | add_cube cube ok => exact ⟨ok.negCube.1, fun l hl => (ok.negCube.2 l hl).trans hle⟩

theorem LiftCall.over (h : Shape A E p) (x : LiftCall A E) :
    Over (freshLift E p).max_var x.onSolver.clause := by
  have hb := liftTarget_bounds x.shape x.succ
  show Over _ (x.pdr.liftClause x.succ)
  rw [liftClause_eq x.shape]
  constructor <;> intro l hl <;> obtain ⟨m, hm, rfl⟩ := List.mem_map.mp hl
  · exact neg_ne_zero.mpr (hb m hm).1
  · rw [Int.natAbs_neg]
    exact (hb m hm).2.trans h.freshLift.nv

theorem solid_freshSolver : Solid (freshSolver A E k).max_var (freshSolver A E k) :=
  (Solid.fresh base_nonZero).1

theorem solid_freshLift (h : Shape A E p) :
    Solid (freshLift E p).max_var (freshLift E p) ∧ (freshLift E p).clear_flag = false := by
  unfold freshLift
  rw [h.fillSatelite2.1]
  exact Solid.fresh (simpCnf_nonZero false E primes1_roots.ok)

theorem FrameCall.isQuery_onSolver (x : FrameCall A) : x.onSolver.IsQuery ↔ x.IsInductive := by
  cases x <;> exact Iff.rfl

/-- The calls that are queries with a non-empty clause and are followed by another query. -/
theorem onSolver_followed (calls : List (FrameCall A)) :
    (∀ pre body assumed a post, calls.map FrameCall.onSolver = pre ++ .query body assumed a :: post →
      (∃ e ∈ post, e.IsQuery) → body = []) ↔
    ∀ pre latches ok sorted answer post, calls = pre ++ .is_inductive latches ok sorted answer :: post →
      (∃ x ∈ post, x.IsInductive) → latches = [] := by
  constructor
  · rintro h pre latches ok sorted answer post rfl ⟨x, hx, hq⟩
    have hbody := h (pre.map FrameCall.onSolver) (negCube latches) _ answer (post.map FrameCall.onSolver)
      (by rw [List.map_append]; rfl) ⟨x.onSolver, List.mem_map_of_mem hx, x.isQuery_onSolver.mpr hq⟩
    exact List.map_eq_nil_iff.mp hbody
  · rintro h pre body assumed a post hcalls ⟨e, he, hq⟩
    obtain ⟨pre', rest, rfl, rfl, hrest⟩ := List.map_eq_append_iff.mp hcalls
    obtain ⟨y, post', rfl, hy, rfl⟩ := List.map_eq_cons_iff.mp hrest
    obtain ⟨x, hx, rfl⟩ := List.mem_map.mp he
    cases y with
    | add_cube cube ok => cases hy
    | is_inductive latches ok sorted answer =>
        have hempty := h pre' latches ok sorted answer post' rfl ⟨x, hx, x.isQuery_onSolver.mp hq⟩
        rw [← (SolverCall.query.inj hy).1, hempty]
        rfl

/-- On the lift solver every query is retired. On the solver of a frame, none is: the variable of a query
is false from then on only where its cube was empty, so that the clause of the query is a unit. -/
theorem queries_retired (hp : Shape A E p) (calls : List (FrameCall A)) (lifts : List (LiftCall A E)) :
    (Retires viaSATSolver (freshSolver A E k).max_var (freshSolver A E k) (calls.map FrameCall.onSolver) ∧
      Retires viaCaDiCaL (freshLift E p).max_var (freshLift E p) (lifts.map LiftCall.onSolver)) ↔
    ∀ pre latches ok sorted answer post, calls = pre ++ .is_inductive latches ok sorted answer :: post →
      (∃ x ∈ post, x.IsInductive) → latches = [] := by
  have hcalls : ∀ e ∈ calls.map FrameCall.onSolver, Over (freshSolver A E k).max_var e.clause := by
    intro e he
    obtain ⟨x, _, rfl⟩ := List.mem_map.mp he
    exact x.over
  have hlifts : ∀ e ∈ lifts.map LiftCall.onSolver, Over (freshLift E p).max_var e.clause := by
    intro e he
    obtain ⟨x, _, rfl⟩ := List.mem_map.mp he
    exact x.over hp
  obtain ⟨hsolid, hflag⟩ := solid_freshLift hp
  rw [retires_viaSATSolver solid_freshSolver hcalls, onSolver_followed]
  exact and_iff_left (retires_viaCaDiCaL hsolid hflag hlifts)

namespace Sample

theorem stuck_latchCube : stuck.LatchCube [2] := by
  intro l hl
  rw [List.mem_singleton.mp hl]
  decide

/-- `is_inductive` for the cube `[2]`, whose activation variable is `act`. -/
def stuckQuery (act : Int) : FrameCall stuck := .is_inductive [2] stuck_latchCube [2] (.unsat [act, 4])

end Sample

/-- One query on a frame and two on the lift solver, after `initialize` and the first frame. -/
theorem queries_retired_stuck :
    Retires viaSATSolver (freshSolver Sample.stuck .keepAll 1).max_var (freshSolver Sample.stuck .keepAll 1)
      ([Sample.stuckQuery 6].map FrameCall.onSolver) ∧
    Retires viaCaDiCaL (freshLift .keepAll (firstPdr Sample.stuck .keepAll)).max_var
      (freshLift .keepAll (firstPdr Sample.stuck .keepAll))
      ((List.replicate 2 (LiftCall.mk _ (shape_first (A := Sample.stuck) (E := .keepAll)) none [2, 3]
        (.unsat []))).map LiftCall.onSolver) := by
  refine (queries_retired (k := 1) shape_first [Sample.stuckQuery 6] _).mpr ?_
  intro pre latches ok sorted answer post hcalls hpost
  cases pre with
  | nil =>
      obtain ⟨x, hx, _⟩ := hpost
      rw [← (List.cons.inj hcalls).2] at hx
      cases hx
  | cons y pre => exact absurd (List.cons.inj hcalls).2 (by simp)

/-- The same query twice: the variable of the first one is not fixed when the second one starts. -/
theorem second_query_not_retired : ¬ Retires viaSATSolver (freshSolver Sample.stuck .keepAll 1).max_var
    (freshSolver Sample.stuck .keepAll 1)
    ([Sample.stuckQuery 6, Sample.stuckQuery 7].map FrameCall.onSolver) := by
  intro h
  have hfixed := h.fixed [(Sample.stuckQuery 6).onSolver] _ _ _ [] rfl 6 (by decide +kernel)
  unfold Fixed at hfixed
  revert hfixed
  decide +kernel

end ModelChecker
