import ModelChecker.Pdr.Lemmas.Logged
import ModelChecker.Pdr.Theorems

/-!
# Sequences of calls on shared solvers

Any sequence of `new_frame`, `is_inductive`, `add_cube`, `get_pre_of_bad` and `extract_state_from_sat`,
in any order and with any cubes, leaves the solvers in a shape in which the next query means what it
would mean on a fresh solver that holds the encoding and the cubes given to `add_cube` so far.
-/

namespace ModelChecker

open Logic

variable {A : Circuit} {E : Eliminator} {p : PDR} {k : Nat} {c : Cube} {env : PdrEnv} {r : Run}
  {log : List Addition}

/-- One call; `newState` stands for the caller's `new State`. -/
inductive Call where
  | new_frame
  | newState (latches : Cube)
  | is_inductive (k : Nat) (latches : Cube) (gen_core : Bool)
  | add_cube (cube : Cube) (k : Nat) (to_all ispropagate : Bool)
  | get_pre_of_bad (s : Nat)
  | extract_state_from_sat (k s : Nat) (succ : Option Nat) (findex : Nat)

def Call.run (env : PdrEnv) : Call → PdrM Unit
  | .new_frame => ModelChecker.new_frame env
  | .newState latches => do
      let _ ← ModelChecker.newState { latches := latches }
  | .is_inductive k latches gen_core => do
      let _ ← ModelChecker.is_inductive env k latches gen_core
  | .add_cube cube k to_all ispropagate => do
      modifyP fun p => p.setCube .tmp_core cube
      ModelChecker.add_cube .tmp_core k to_all ispropagate
  | .get_pre_of_bad s => do
      let _ ← ModelChecker.get_pre_of_bad env s
  | .extract_state_from_sat k s succ findex => ModelChecker.extract_state_from_sat env k s succ findex

/-- Frames exist, and cubes are over latches. -/
def Call.Valid (A : Circuit) (p : PDR) : Call → Prop
  | .new_frame => True
  | .newState latches => A.LatchCube latches
  | .is_inductive k latches _ => k < p.frames.length ∧ A.LatchCube latches
  | .add_cube cube k _ _ => k < p.frames.length ∧ A.LatchCube cube
  | .get_pre_of_bad _ => 2 ≤ p.frames.length
  | .extract_state_from_sat k _ _ _ => k < p.frames.length

instance {x : Call} : Decidable (x.Valid A p) := by
  cases x <;> unfold Call.Valid Circuit.LatchCube <;> infer_instance

/-- What the call adds to the log. -/
def Call.additions : Call → List Addition
  | .add_cube cube k to_all _ => [⟨cube, k, to_all⟩]
  | _ => []

/-- The states after `initialize`, the first frame and any sequence of calls, with the log of the calls
of `add_cube`, the last one first. -/
inductive Reached (A : Circuit) (env : PdrEnv) : List Addition → Run → Prop
  | start {r : Run} (h : (initializePdr >>= fun _ => firstFrame env)
      { pdr := { circuit := A.toAiger } } = (.ok (), r)) : Reached A env [] r
  | call {log : List Addition} {r r' : Run} {x : Call} (hr : Reached A env log r)
      (hv : x.Valid A r.pdr) (h : x.run env r = (.ok (), r')) :
      Reached A env (x.additions ++ log) r'

/-! ## The shape of the solvers -/

/-- `n` frames, all of whose solvers have their shape and the lemmas of the log. -/
structure Formed (A : Circuit) (E : Eliminator) (n : Nat) (log : List Addition) (r : Run) : Prop where
  shape : Shape A E r.pdr
  len : r.pdr.frames.length = n
  logged : Logged A E log r.pdr

variable {n : Nat}

theorem Formed.congr {r' : Run} (h : Formed A E n log r) (hp : r'.pdr = r.pdr) : Formed A E n log r' :=
  ⟨hp ▸ h.shape, hp ▸ h.len, hp ▸ h.logged⟩

/-- The formula of `is_inductive` over the lemmas `cubes`: they and the transition relation with the
constraints of both steps and no bad state (for `k = 0` also the initial condition), `¬ c` and `c'`. -/
def InductionFormula (A : Circuit) (cubes : List Cube) (k : Nat) (c : Cube) : Prop :=
  ∃ w w', (k = 0 → A.system.Init w) ∧ (∀ d ∈ cubes, ¬ CubeSat w d) ∧ A.system.Step w w' ∧
    ¬ CubeSat w c ∧ CubeSat w' c

theorem Formed.formula_iff (h : Formed A E n log r) (hk : k < n) :
    InductiveFormula A E r.pdr k c ↔ InductionFormula A (Addition.lemmas k log) k c := by
  have hk' : k < r.pdr.frames.length := by rw [h.len]; exact hk
  unfold InductiveFormula InductionFormula
  simp only [h.logged.lemma_iff hk']

theorem is_init_formed (h : Formed A E n log r) :
    (is_init env c).Wp (fun _ r' => Formed A E n log r') (fun _ => False) r := by
  unfold is_init
  simp only [Exec.wp_bind, wp_getP, wp_ask, wp_modifyP, Exec.wp_pure, tick_pdr]
  exact ⟨h.shape.setInit (h.shape.initSolved _), h.len, h.logged.of_frames rfl⟩

theorem askInductive_formed (h : Formed A E n log r) (hc : A.LatchCube c) (hk : k < n)
    (hE : Trusted A E true) :
    (askInductive env k c).Wp (fun s r' => Formed A E n log r' ∧
      (s.isSat = true ↔ InductionFormula A (Addition.lemmas k log) k c)) (fun _ => False) r := by
  have hk' : k < r.pdr.frames.length := by rw [h.len]; exact hk
  unfold askInductive
  simp only [Exec.wp_bind, wp_reorder, wp_getP, wp_ask, wp_modifyP, wp_record, Exec.wp_pure,
    SATSolver.set_clear_act, tick_pdr, tick_clock]
  have hq := h.shape.queryOf hk' hc (env.order r.clock c)
  refine ⟨⟨h.shape.setSolver hk' (hq.solver _), by simp [h.len],
    h.logged.setSolver hk' (hq.lemmaClauses_eq (h.shape.frames k hk') _)⟩, ?_⟩
  rw [← h.formula_iff hk, ← hq.satisfiable_iff (h.shape.frames k hk') hc (env.order_perm _ _) hE, ← isSat_iff
    (S := env.solver) (t := r.clock + 1)]
  cases env.solver.solve (r.clock + 1) (r.pdr.inductiveQuery k c (env.order r.clock c)).query <;>
    simp [CaDiCaL.isSat, CaDiCaL.solved, Answer.isSat]

theorem takeCore_formed (h : Formed A E n log r) (hc : A.LatchCube c) (s : CaDiCaL) :
    (takeCore env s c).Wp (fun _ r' => Formed A E n log r') (fun _ => False) r := by
  have hsub : A.LatchCube (r.pdr.failedCore s c) := hc.mono List.filter_sublist.subset
  unfold takeCore
  simp only [Exec.wp_bind, wp_modifyP, wp_getP, setP_pdr]
  refine (is_init_formed (r := r.setP { r.pdr with core := r.pdr.failedCore s c })
    ⟨h.shape.setCore hsub, h.len, h.logged.of_frames rfl⟩).mono ?_ fun _ h => h
  intro b r' h'
  rw [Exec.wp_ite]
  exact ⟨fun _ => ⟨h'.shape.setCore hc, h'.len, h'.logged.of_frames rfl⟩, fun _ => h'⟩

theorem is_inductive_formed (h : Formed A E n log r) (hc : A.LatchCube c) (hk : k < n)
    (hE : Trusted A E true) (g : Bool) :
    (is_inductive env k c g).Wp (fun b r' => Formed A E n log r' ∧
      (b = true ↔ ¬ InductionFormula A (Addition.lemmas k log) k c)) (fun _ => False) r := by
  unfold is_inductive
  refine (askInductive_formed h hc hk hE).bind ?_
  rintro s r1 ⟨h1, hs⟩
  rw [Exec.wp_ite]
  constructor
  · intro hsat
    exact ⟨h1, (by rintro ⟨⟩), fun hn => absurd (hs.mp hsat) hn⟩
  · intro hsat
    have hn : ¬ InductionFormula A (Addition.lemmas k log) k c := fun hf => hsat (hs.mpr hf)
    cases g with
    | false => exact ⟨h1, fun _ => hn, fun _ => rfl⟩
    | true =>
        refine (takeCore_formed h1 hc s).bind ?_
        exact fun _ r2 h2 => ⟨h2, fun _ => hn, fun _ => rfl⟩

theorem add_cube_formed (h : Formed A E n log r) (hc : A.LatchCube c) (hk : k < n) (b isp : Bool) :
    Formed A E n (⟨c, k, b⟩ :: log)
      (r.setP ((r.pdr.setCube .tmp_core c).add_cube .tmp_core k b isp)) := by
  have hlc : A.LatchCube (sortLits c) := fun l hl => hc l (mem_sortLits.mp hl)
  set p1 : PDR := if isp then r.pdr.setCube .tmp_core c else
    { r.pdr.setCube .tmp_core c with
      earliest_strengthened_frame := min (r.pdr.setCube .tmp_core c).earliest_strengthened_frame k }
    with hp1
  have hshape : Shape A E (p1.setCube .tmp_core (sortLits c)) := by
    rw [hp1]; cases isp <;> exact { h.shape with tmp_core := hlc }
  have hlen : (p1.setCube .tmp_core (sortLits c)).frames.length = n := by
    rw [hp1]; cases isp <;> exact h.len
  have hlog : Logged A E log (p1.setCube .tmp_core (sortLits c)) := by
    rw [hp1]; cases isp <;> exact h.logged.of_frames rfl
  have hadd : (r.pdr.setCube .tmp_core c).add_cube .tmp_core k b isp =
      if sortLits c ∈ ((p1.setCube .tmp_core (sortLits c)).frame k).cubes then
        p1.setCube .tmp_core (sortLits c)
      else (p1.setCube .tmp_core (sortLits c)).insert (sortLits c) k b := by
    rw [hp1]; cases isp <;> rfl
  rw [hadd]
  have hk' : k < (p1.setCube .tmp_core (sortLits c)).frames.length := by rw [hlen]; exact hk
  by_cases hm : sortLits c ∈ ((p1.setCube .tmp_core (sortLits c)).frame k).cubes
  · rw [if_pos hm]; exact ⟨hshape, hlen, hlog.again hk' hm⟩
  · rw [if_neg hm]
    exact ⟨hshape.insertCube hk' hlc (sortLits_sortLits c) hm,
      by rw [setP_pdr, length_insert, hlen], hlog.insert hshape hk' hlc hm⟩

theorem new_frame_formed (h : Formed A env.minisat n log r) (hn : 1 ≤ n) :
    (new_frame env).Wp (fun _ r' => Formed A env.minisat (n + 1) log r') (fun _ => False) r :=
  have hlen : 1 ≤ r.pdr.frames.length := by rw [h.len]; exact hn
  new_frame_eq h.shape.translated
    ⟨h.shape.extend hlen, by rw [setP_pdr, length_extend, h.len], h.logged.extend hlen⟩

theorem newState_formed (h : Formed A E n log r) {st : State} (hst : A.LatchCube st.latches) :
    Formed A E n log (r.setP (r.pdr.pushState st)) := by
  refine ⟨{ h.shape with states := fun s => ?_ }, h.len, h.logged.of_frames rfl⟩
  rw [setP_pdr, PDR.state_pushState]
  split
  · exact hst
  · exact h.shape.states s

/-- The lift query for the model of frame `k`, on a fresh solver. -/
def freshLiftQuery (E : Eliminator) (p : PDR) (k : Nat) (succ : Option Nat) : Query :=
  let m := modelState p.circuit (p.frame k).solver
  let pipts := modelLits (p.frame k).solver p.circuit.primed_first_dimacs p.circuit.num_inputs
  (p.liftQuery (freshLift E p) succ (m.inputs ++ pipts) m.latches).query

theorem loadLift_formed (h : Formed A env.minisat n log r) :
    (loadLift env).Wp (fun l r' => Formed A env.minisat n log r' ∧ LiftSolver A env.minisat l ∧
      r'.pdr.frames = r.pdr.frames ∧ r'.pdr.states = r.pdr.states) (fun _ => False) r := by
  unfold loadLift
  simp only [Exec.wp_bind, wp_getP]
  cases hl : r.pdr.lift with
  | some l => exact ⟨h, (h.shape.lift l hl).clear_act, rfl, rfl⟩
  | none =>
      obtain ⟨hsat, hsh⟩ := h.shape.fillSatelite2
      have hsame : (r.pdr.fillSatelite2 env.minisat).frames = r.pdr.frames ∧
          (r.pdr.fillSatelite2 env.minisat).states = r.pdr.states := by
        unfold PDR.fillSatelite2; split <;> exact ⟨rfl, rfl⟩
      simp only [encode_lift, Exec.wp_bind, wp_modifyP, wp_getP, Exec.wp_pure, setP_pdr]
      refine ⟨⟨hsh, by rw [setP_pdr, hsame.1]; exact h.len, h.logged.of_frames hsame.1⟩, ?_,
        hsame.1, hsame.2⟩
      rw [hsat]
      exact newLift.clear_act

/-- The lift query is answered as on a fresh solver; the assertion fails iff that one is
satisfiable. -/
theorem askLift_formed (h : Formed A env.minisat n log r) (succ : Option Nat) :
    (askLift env k succ).Wp (fun x r' => Formed A env.minisat n log r' ∧
      LiftSolver A env.minisat x.1.set_clear_act ∧ A.LatchCube x.2.latches ∧
      ¬ (freshLiftQuery env.minisat r.pdr k succ).Satisfiable)
      (fun _ => (freshLiftQuery env.minisat r.pdr k succ).Satisfiable) r := by
  unfold askLift
  refine ((loadLift_formed h).mono (fun _ _ h => h) fun _ h => h.elim).bind ?_
  rintro l r1 ⟨h1, hl, hf1, hst1⟩
  simp only [Exec.wp_bind, wp_getP, wp_reorder, wp_ask, Exec.wp_ite, Exec.wp_throw, Exec.wp_pure]
  rw [h1.shape.circuit, tick_clock]
  have hsat : (r1.pdr.frame k).solver = (r.pdr.frame k).solver := by unfold PDR.frame; rw [hf1]
  have htarget : liftTarget A r1.pdr succ = liftTarget A r.pdr succ := by
    cases succ with
    | none => rfl
    | some t => simp only [liftTarget, PDR.state, hst1]
  rw [hsat]
  have hiff : (r1.pdr.liftQuery l succ ((modelState A.toAiger (r.pdr.frame k).solver).inputs ++
      modelLits (r.pdr.frame k).solver A.primed_first_dimacs A.num_inputs)
      (env.order r1.clock (modelState A.toAiger (r.pdr.frame k).solver).latches)).query.Satisfiable ↔
      (freshLiftQuery env.minisat r.pdr k succ).Satisfiable := by
    unfold freshLiftQuery
    rw [h.shape.circuit]
    set sat := (r.pdr.frame k).solver
    obtain ⟨hvi, hvl, hvp⟩ :=
      litVal_assumed (A := A) sat (fun _ => false) fun _ => false
    have hperm := env.order_perm r1.clock (modelState A.toAiger sat).latches
    have hls : ∀ x ∈ ((modelState A.toAiger sat).inputs ++
        modelLits sat A.primed_first_dimacs A.num_inputs) ++ (modelState A.toAiger sat).latches,
        x.natAbs ≤ liftVars A := by
      intro x hx
      simp only [List.mem_append] at hx
      rcases hx with (hx | hx) | hx
      · exact (hvi x hx).1
      · exact (hvp x hx).1
      · exact (hvl x hx).1
    have hmem : ∀ x, x ∈ ((modelState A.toAiger sat).inputs ++
        modelLits sat A.primed_first_dimacs A.num_inputs) ++
          env.order r1.clock (modelState A.toAiger sat).latches ↔
        x ∈ ((modelState A.toAiger sat).inputs ++
          modelLits sat A.primed_first_dimacs A.num_inputs) ++ (modelState A.toAiger sat).latches := by
      intro x; simp only [List.mem_append, hperm.mem_iff]
    rw [(h1.shape.liftQueryOf hl succ _ _).satisfiable_iff h1.shape hl
        fun x hx => hls x ((hmem x).mp hx),
      (h.shape.liftQueryOf h.shape.freshLift succ _ _).satisfiable_iff h.shape h.shape.freshLift hls,
      htarget]
    refine exists_congr fun σ => and_congr Iff.rfl (and_congr Iff.rfl ?_)
    exact ⟨fun hσ x hx => hσ x ((hmem x).mpr hx), fun hσ x hx => hσ x ((hmem x).mp hx)⟩
  have hq := h1.shape.liftQueryOf hl succ ((modelState A.toAiger (r.pdr.frame k).solver).inputs ++
    modelLits (r.pdr.frame k).solver A.primed_first_dimacs A.num_inputs)
    (env.order r1.clock (modelState A.toAiger (r.pdr.frame k).solver).latches)
  refine ⟨fun hs => hiff.mp (isSat_iff.mp hs), fun hs => ⟨h1.congr rfl, hq.solver _,
    modelState_latches.mono List.filter_sublist.subset, fun hn => hs (isSat_iff.mpr (hiff.mpr hn))⟩⟩

theorem extract_formed (h : Formed A env.minisat n log r) (s : Nat) (succ : Option Nat) (findex : Nat) :
    (extract_state_from_sat env k s succ findex).Wp (fun _ r' => Formed A env.minisat n log r' ∧
      ¬ (freshLiftQuery env.minisat r.pdr k succ).Satisfiable)
      (fun _ => (freshLiftQuery env.minisat r.pdr k succ).Satisfiable) r := by
  unfold extract_state_from_sat
  refine (askLift_formed h succ).bind ?_
  rintro ⟨lift, st⟩ r1 ⟨h1, hl, hst, hn⟩
  simp only [Exec.wp_bind, wp_modifyP, wp_record]
  refine ⟨⟨?_, h1.len, h1.logged.of_frames rfl⟩, hn⟩
  exact (h1.shape.setState (f := fun t => { t with latches := st.latches, inputs := st.inputs, next := succ })
    hst).setLift hl _

theorem get_pre_of_bad_formed (h : Formed A env.minisat n log r) (hn : 2 ≤ n) (s : Nat) :
    (get_pre_of_bad env s).Wp (fun _ r' => Formed A env.minisat n log r') (fun _ => True) r := by
  have hclear : Formed A env.minisat n log (r.setP (r.pdr.setState s State.clear)) :=
    ⟨h.shape.setState (by rintro _ ⟨⟩), h.len, h.logged.of_frames rfl⟩
  unfold get_pre_of_bad
  simp only [Exec.wp_bind, wp_modifyP]
  refine Exec.Wp.mono (Q := fun _ r' => Formed A env.minisat n log r') (E := fun _ => True) ?_ ?_
    fun _ h => h
  · unfold askBad
    simp only [Exec.wp_bind, wp_getP, wp_ask, wp_modifyP, wp_record, Exec.wp_pure, tick_pdr]
    have hk : (r.setP (r.pdr.setState s State.clear)).pdr.depth <
        (r.setP (r.pdr.setState s State.clear)).pdr.frames.length := by
      unfold PDR.depth; rw [hclear.len]; omega
    exact ⟨hclear.shape.setSolver hk ((hclear.shape.frames _ hk).asked _ _), by
      rw [record_pdr, setP_pdr, PDR.length_setSolver]; exact h.len, hclear.logged.setSolver hk rfl⟩
  · intro sat r1 h1
    rw [Exec.wp_ite]
    refine ⟨fun _ => ?_, fun _ => h1⟩
    simp only [Exec.wp_bind, wp_getP, wp_newState]
    rw [h1.shape.circuit]
    refine (extract_formed (newState_formed h1 modelState'_latches) s none _).mono ?_ fun _ _ => trivial
    rintro _ r2 ⟨h2, _⟩
    exact ⟨h2.shape.setState (h2.shape.states s), h2.len, h2.logged.of_frames rfl⟩

/-- Every call keeps the shape of the solvers and their lemmas in step with the log. -/
theorem Call.run_formed {x : Call} (h : Formed A env.minisat n log r) (hn : 1 ≤ n) (hv : x.Valid A r.pdr)
    (hE : Trusted A env.minisat true) :
    (x.run env).Wp (fun _ r' => ∃ m, 1 ≤ m ∧ Formed A env.minisat m (x.additions ++ log) r')
      (fun _ => True) r := by
  cases x with
  | new_frame =>
      exact (new_frame_formed h hn).mono (fun _ _ h' => ⟨n + 1, by omega, h'⟩) fun _ _ => trivial
  | newState latches => exact ⟨n, hn, newState_formed h hv⟩
  | is_inductive k latches gen_core =>
      refine Exec.Wp.bind ((is_inductive_formed h hv.2 (h.len ▸ hv.1) hE gen_core).mono
        (fun _ _ h' => h') fun _ _ => trivial) ?_
      exact fun _ _ h' => ⟨n, hn, h'.1⟩
  | add_cube cube k to_all ispropagate =>
      exact ⟨n, hn, (add_cube_formed h hv.2 (h.len ▸ hv.1) to_all ispropagate).congr rfl⟩
  | get_pre_of_bad s =>
      refine Exec.Wp.bind (get_pre_of_bad_formed h (h.len ▸ hv) s) ?_
      exact fun _ _ h' => ⟨n, hn, h'⟩
  | extract_state_from_sat k s succ findex =>
      exact (extract_formed h s succ findex).mono (fun _ _ h' => ⟨n, hn, h'.1⟩) fun _ _ => trivial

theorem start_formed (A : Circuit) (env : PdrEnv) : (initializePdr >>= fun _ => firstFrame env).Wp
    (fun _ r' => Formed A env.minisat 1 [] r') (fun _ => False) { pdr := { circuit := A.toAiger } } := by
  have hlog : Logged A env.minisat [] (firstPdr A env.minisat) := by
    refine ⟨fun k c => by rw [firstPdr_cubes]; exact Iff.rfl, fun i hi => ?_, by rintro a ⟨⟩⟩
    obtain rfl : i = 0 := by simpa [firstPdr] using hi
    exact lemmaClauses_fresh
  rw [Exec.wp_bind]
  exact initializePdr_eq (firstFrame_eq (t := 0) ⟨shape_first, rfl, hlog⟩)

theorem Reached.formed (h : Reached A env log r) (hE : Trusted A env.minisat true) :
    ∃ n, 1 ≤ n ∧ Formed A env.minisat n log r := by
  induction h with
  | start h => exact ⟨1, le_rfl, (start_formed A env).run_ok h⟩
  | call _ hv h ih =>
      obtain ⟨n, hn, hf⟩ := ih
      exact (Call.run_formed hf hn hv hE).run_ok h

/-! ## History independence -/

/-- The next variable of a solver is new if the solver has those of the circuit and the primed copies. -/
theorem next_var_new (hsh : Shape A E p) {s : CaDiCaL} {n : Nat} (hvars : ∀ c ∈ s.clauses, VarsLe s.nv c)
    (hnv : n ≤ s.nv) (hmax : A.max_var ≤ n) (hprimed : ∀ {l}, A.LitOk l → (primes1 A).Has A l.natAbs →
      (primeLit A (primes1 A) l).natAbs ≤ n) :
    (∀ c ∈ s.clauses, ∀ l ∈ c, l.natAbs < s.max_var + 1) ∧
      ∀ l, A.LitOk l → l.natAbs < s.max_var + 1 ∧ (p.primes.Has A l.natAbs →
        (p.circuit.prime_lit p.primes l).1.natAbs < s.max_var + 1) := by
  refine ⟨fun c hc l hl => Nat.lt_succ_of_le (hvars c hc l hl), fun l hl => ⟨?_, fun hh => ?_⟩⟩
  · exact Nat.lt_succ_of_le (hl.2.trans (hmax.trans hnv))
  · rw [prime_lit_eq hsh]
    rw [hsh.primes] at hh
    exact Nat.lt_succ_of_le ((hprimed hl hh).trans hnv)

/-- After any sequence of calls the solver of a level holds one lemma clause for each cube that
`add_cube` stored there, and no other; `is_inductive` decides the formula over these cubes; the lift
query is answered as on a fresh solver; and the next activation variable is new: it is above every
variable of the solver's clauses, of the circuit and of the primed copies, none of which is allocated
later. -/
theorem queries_incremental (hE : env.minisat.Exact) (h : Reached A env log r) :
    (∀ k, (∀ c, c ∈ (r.pdr.frame k).cubes ↔ c ∈ Addition.stored k log) ∧
      (k < r.pdr.frames.length → lemmaClauses A env.minisat k (r.pdr.frame k).solver =
        ((Addition.lemmas k log).map negCube).reverse)) ∧
    (∀ k c gen_core, k < r.pdr.frames.length → A.LatchCube c →
      ∃ b r', is_inductive env k c gen_core r = (.ok b, r') ∧
        (b = true ↔ ¬ InductionFormula A (Addition.lemmas k log) k c)) ∧
    (∀ k s succ findex, k < r.pdr.frames.length →
      ((extract_state_from_sat env k s succ findex r).1 = .ok () ↔
        ¬ (freshLiftQuery env.minisat r.pdr k succ).Satisfiable)) ∧
    r.pdr.primes = primes1 A ∧
    (∀ k, k < r.pdr.frames.length →
      let solver := SATSolver.clear_act (r.pdr.frame k).solver
      (∀ c ∈ solver.clauses, ∀ l ∈ c, l.natAbs < solver.max_var + 1) ∧
        ∀ l, A.LitOk l → l.natAbs < solver.max_var + 1 ∧ (r.pdr.primes.Has A l.natAbs →
          (r.pdr.circuit.prime_lit r.pdr.primes l).1.natAbs < solver.max_var + 1)) ∧
    ∀ lift r', loadLift env r = (.ok lift, r') →
      (∀ c ∈ lift.clauses, ∀ l ∈ c, l.natAbs < lift.max_var + 1) ∧
        ∀ l, A.LitOk l → l.natAbs < lift.max_var + 1 ∧ (r.pdr.primes.Has A l.natAbs →
          (r.pdr.circuit.prime_lit r.pdr.primes l).1.natAbs < lift.max_var + 1) := by
  obtain ⟨n, hn, hf⟩ := h.formed (Or.inr hE)
  refine ⟨fun k => ⟨hf.logged.cubes k, hf.logged.lemmas k⟩, fun k c g hk hc => ?_,
    fun k s succ findex hk => ?_, hf.shape.primes, fun k hk => ?_, fun lift r' hl => ?_⟩
  · obtain ⟨b, r', hr, _, hb⟩ := (is_inductive_formed hf hc (hf.len ▸ hk) (Or.inr hE) g).exists_ok
    exact ⟨b, r', hr, hb⟩
  · have hw := extract_formed (k := k) hf s succ findex
    unfold Exec.Wp at hw
    generalize extract_state_from_sat env k s succ findex r = res at hw
    obtain ⟨e, r'⟩ := res
    cases e with
    | ok a => exact ⟨fun _ => hw.2, fun _ => rfl⟩
    | error e => exact ⟨(by rintro ⟨⟩), fun hns => absurd hw hns⟩
  · have hs := hf.shape.frames k hk
    exact next_var_new hf.shape hs.varsLe hs.nv max_var_le_frameVars primeLit_le_frameVars
  · have hs := ((loadLift_formed hf).run_ok hl).2.1
    exact next_var_new hf.shape hs.varsLe hs.nv max_var_le_liftVars primeLit_le_liftVars

/-- The calls `xs` one after the other, as long as each is valid and returns. -/
def runCalls (A : Circuit) (env : PdrEnv) : List Call → List Addition × Run → Option (List Addition × Run)
  | [], s => some s
  | x :: xs, (log, r) =>
    if x.Valid A r.pdr then
      match x.run env r with
      | (.ok (), r') => runCalls A env xs (x.additions ++ log, r')
      | (.error _, _) => none
    else none

theorem Reached.runCalls (h : Reached A env log r) {xs : List Call} {s : List Addition × Run}
    (hs : runCalls A env xs (log, r) = some s) : Reached A env s.1 s.2 := by
  induction xs generalizing log r with
  | nil =>
      rw [ModelChecker.runCalls, Option.some.injEq] at hs
      exact hs ▸ h
  | cons x xs ih =>
      rw [ModelChecker.runCalls] at hs
      split_ifs at hs with hv
      split at hs
      · rename_i r' hx
        exact ih (h.call hv hx) hs
      · cases hs

namespace Sample

/-- The predecessor of the second latch is found at level 1 and lifted to the first latch, which is then
added to the levels 1 and 2. -/
def stuckCalls : List Call :=
  [.new_frame, .new_frame, .newState [3], .newState [], .is_inductive 1 [3] true,
    .extract_state_from_sat 1 1 (some 0) 1, .add_cube [2] 2 true false]

def stuckCallAnswers : Nat → Answer
  | 1 => model [2, 4, 5, 6]
  | 3 => .unsat [6, 2]
  | 5 => .unsat [7, 5]
  | _ => .unsat [3]

noncomputable def stuckFrame : Except Stop Unit × Run :=
  (initializePdr >>= fun _ => firstFrame (envOf stuckCallAnswers)) { pdr := { circuit := stuck.toAiger } }

noncomputable def stuckCalled : Option (List Addition × Run) :=
  runCalls stuck (envOf stuckCallAnswers) stuckCalls ([], stuckFrame.2)

end Sample

/-- After seven calls the lemma stored at level 2 is in the solver of level 1 too, and the cube that had
a predecessor there has none. -/
theorem queries_incremental_stuck : ∃ r,
    Reached Sample.stuck (Sample.envOf Sample.stuckCallAnswers) [⟨[2], 2, true⟩] r ∧
    lemmaClauses Sample.stuck .keepAll 1 (r.pdr.frame 1).solver = [[-2]] ∧
    (∃ r', is_inductive (Sample.envOf Sample.stuckCallAnswers) 1 [3] true r = (.ok true, r')) ∧
    ¬ InductionFormula Sample.stuck [[2]] 1 [3] ∧ InductionFormula Sample.stuck [] 1 [3] := by
  have hstart : Sample.stuckFrame.1 = .ok () := by decide +kernel
  have hcalls : Sample.stuckCalled.map (fun s => (s.1, s.2.pdr.frames.length,
      (is_inductive (Sample.envOf Sample.stuckCallAnswers) 1 [3] true s.2).1)) =
      some ([⟨[2], 2, true⟩], 3, .ok true) := by decide +kernel
  obtain ⟨⟨log, r⟩, hs, he⟩ := Option.map_eq_some_iff.mp hcalls
  simp only [Prod.mk.injEq] at he
  obtain ⟨rfl, hlen, hb⟩ := he
  have hr := (Reached.start (Prod.ext hstart rfl)).runCalls hs
  have hk : 1 < r.pdr.frames.length := by omega
  have hc : Sample.stuck.LatchCube [3] := by unfold Circuit.LatchCube; decide
  have hlemmas : Addition.lemmas 1 [⟨[2], 2, true⟩] = [[2]] := by decide
  obtain ⟨hlog, hind, _⟩ := queries_incremental Eliminator.keepAll_exact hr
  obtain ⟨b, r', hrun, hiff⟩ := hind 1 [3] true hk hc
  obtain rfl : b = true := by rw [hrun] at hb; exact Except.ok.inj hb
  have hcl := (hlog 1).2 hk
  rw [hlemmas] at hiff hcl
  refine ⟨r, hr, hcl, ⟨r', hrun⟩, hiff.mp rfl, ?_⟩
  -- the first latch is true and stays true
  refine ⟨fun v => decide (v = 2), fun v => decide (v = 2 ∨ v = 3), by omega, by rintro d ⟨⟩, ?_, ?_, ?_⟩
  · have hbad : ¬ Sample.stuck.val (fun v => decide (v = 2)) 3 = true := by decide
    have hnext : ∀ i, i < Sample.stuck.num_latches →
        decide (Sample.stuck.latch i = 2 ∨ Sample.stuck.latch i = 3) =
          Sample.stuck.val (fun v => decide (v = 2)) (Sample.stuck.nexts.getD i 1) := by decide
    exact ⟨by rintro l ⟨⟩, hbad, hnext, by rintro l ⟨⟩⟩
  · intro h
    exact absurd (h 3 (by decide)) (by decide)
  · unfold CubeSat
    decide

end ModelChecker
