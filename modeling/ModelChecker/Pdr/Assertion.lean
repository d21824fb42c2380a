import ModelChecker.Pdr.Lemmas.Assert
import ModelChecker.Pdr.Progress
import ModelChecker.Pdr.Lemmas.Stops

/-!
# The assertion of `extract_state_from_sat`

The lift query is unsatisfiable in every run on a circuit whose frame solvers describe it. Minisat drops
the clause that makes its clauses contradictory and ignores the later ones, and `satelite_unsat` covers
only the case that a constraint is the bad literal. So for other contradictory constraints the frame
solvers may have models that are no transitions, and the assertion fails.
-/

namespace ModelChecker

open Logic

variable {A : Circuit} {n k : Nat} {r : Run} {env : PdrEnv}

/-- No assertion fails. -/
abbrev OutOfFuel (e : Stop) : Prop := e = .fuel

theorem HasModel.of_frames {E : Eliminator} {p p' : PDR} {ls : List Int} (h : HasModel A E p k ls)
    (hf : p'.frames = p.frames) : HasModel A E p' k ls := by
  unfold HasModel PDR.frame at *
  rwa [hf]

/-! ## Predecessors -/

section Walk

variable (hc : Consistent A env.minisat)
include hc

theorem asserts_extract (hI : Inv A env.minisat n r) {succ : Option Nat}
    (hm : HasModel A env.minisat r.pdr k (liftLits A r.pdr succ)) (s findex : Nat) :
    (extract_state_from_sat env k s succ findex).Stops OutOfFuel r := by
  unfold extract_state_from_sat
  refine Exec.Stops.then ?_ fun _ _ => Exec.stops_modify.then fun _ _ => Exec.stops_modify
  unfold askLift
  refine stops_loadLift.bind (loadLift_spec hI (F := fun _ => True)) ?_
  rintro l r1 ⟨hI1, _, hf1, hst1, _, _, hl, _⟩
  have hstate : ∀ t, r1.pdr.state t = r.pdr.state t := by
    intro t
    unfold PDR.state
    rw [hst1]
  have hm1 : HasModel A env.minisat r1.pdr k (liftLits A r1.pdr succ) := by
    have hlits : liftLits A r1.pdr succ = liftLits A r.pdr succ := by
      cases succ with
      | none => rfl
      | some t => simp only [liftLits, hstate]
    rw [hlits]
    exact hm.of_frames hf1
  rw [stops_getP]
  rw [hI1.shape.circuit, stops_reorder, stops_ask]
  have hun := lift_unsat hI1.shape hl hm1 (hc.trusted hm1) (env.order_perm r1.clock _)
  exact Exec.stops_ite (fun hsat => absurd (isSat_iff.mp hsat) hun) fun _ => Exec.stops_pure

theorem asserts_get_pre_of_bad (hI : Inv A env.minisat n r) (hlen : 2 ≤ r.pdr.frames.length) {s : Nat}
    (hn : n ≤ s) : (get_pre_of_bad env s).Stops OutOfFuel r := by
  unfold get_pre_of_bad
  obtain ⟨hI0, hev0⟩ := hI.setFresh hn (f := State.clear) (by rintro _ ⟨⟩)
  rw [stops_modifyP]
  refine Exec.Stops.bind ?_ (askBad_spec hI0 (by rw [hev0.len]; exact hlen)) ?_
  · unfold askBad
    exact Exec.stops_lift.then fun _ _ => Exec.stops_lift.then fun _ _ => Exec.stops_modify.then
      fun _ _ => Exec.stops_modify.then fun _ _ => Exec.stops_pure
  rintro sat r1 ⟨hI1, _, _, _, hsat, _⟩
  refine Exec.stops_ite (fun hs => ?_) fun _ => Exec.stops_pure
  rw [stops_getP]
  rw [hI1.shape.circuit, stops_newState]
  obtain ⟨hI3, _⟩ := hI1.pushState (modelState' A.toAiger sat) modelState'_latches
  have hm : HasModel A env.minisat (r1.setP (r1.pdr.pushState (modelState' A.toAiger sat))).pdr
      r1.pdr.depth (liftLits A (r1.pdr.pushState (modelState' A.toAiger sat)) none) :=
    (hsat hs).of_frames rfl
  exact (asserts_extract hc hI3 hm _ _).then fun _ _ => Exec.stops_modify.then fun _ _ => Exec.stops_pure

/-! ## Generalisation -/

/-- With `fuel`, no assertion fails in `mic`, in its loop or in `CTG_down`. -/
def MicAsserts (A : Circuit) (env : PdrEnv) (fuel : Nat) : Prop :=
  ∀ ⦃n k depth : Nat⦄ ⦃r : Run⦄ ⦃v : CubeVar⦄, MicPre A env.minisat n r v k depth →
    (mic env fuel v k depth).Stops OutOfFuel r

def LoopAsserts (A : Circuit) (env : PdrEnv) (fuel : Nat) : Prop :=
  ∀ ⦃n k depth : Nat⦄ ⦃r : Run⦄ ⦃v : CubeVar⦄, MicPre A env.minisat n r v k depth →
    ∀ tmp required failed, (micLoop env fuel v k depth tmp required failed).Stops OutOfFuel r

def DownAsserts (A : Circuit) (env : PdrEnv) (fuel : Nat) : Prop :=
  ∀ ⦃n k depth : Nat⦄ ⦃r : Run⦄ ⦃c : Cube⦄, DownPre A env.minisat n r k depth c →
    ∀ required ctg join, (CTG_down env fuel c k depth required ctg join).Stops OutOfFuel r

omit hc in
theorem LoopAsserts.mic {fuel : Nat} (hloop : LoopAsserts A env fuel) : MicAsserts A env (fuel + 1) := by
  intro n k depth r v h
  unfold ModelChecker.mic
  rw [stops_getP, stops_reorder, stops_modifyP]
  exact hloop (h.reorder env).1 _ _ _

omit hc in
theorem LoopAsserts.next {fuel : Nat} (hloop : LoopAsserts A env fuel) (hdown : DownAsserts A env fuel) :
    LoopAsserts A env (fuel + 1) := by
  intro n k depth r v h tmp required failed
  unfold micLoop
  cases tmp with
  | nil => exact Exec.stops_pure
  | cons l rest =>
      rw [stops_getP]
      refine Exec.stops_ite (fun _ => hloop h _ _ _) fun _ => ?_
      refine (hdown (h.down l) _ _ _).bind ((mic_spec fuel).2.2 (h.down l) _ _ _) ?_
      rintro ⟨b, cand⟩ r1 hpost
      refine Exec.stops_ite (fun hb => ?_) fun hb => ?_
      · rw [stops_modifyP]
        exact hloop (h.setCube hpost.1 hpost.2.1 (hpost.2.2.2.1 hb).1).1 _ _ _
      · obtain ⟨h1, _⟩ := h.kept hpost (by simpa using hb)
        exact Exec.stops_ite (fun _ => Exec.stops_pure) fun _ => hloop h1 _ _ _

omit hc in
theorem asserts_blockCtg {fuel depth ctg join : Nat} {c required : Cube} (hmic : MicAsserts A env fuel)
    (hdown : DownAsserts A env fuel) (h : DownPre A env.minisat n r k depth c) (hk : 1 < k)
    (hl : Learnable A r (k - 1) r.pdr.core) :
    Exec.Stops (do
      let p ← getP
      let i ← pushLevel env p.core (p.depth + 1 - k) k
      mic env fuel .core (i - 1) (depth + 1)
      add_cube .core i true false
      CTG_down env fuel c k depth required (ctg + 1) join) OutOfFuel r := by
  have hlevel := h.level
  rw [stops_getP]
  refine (stops_pushLevel _ _ _).bind (pushLevel_spec h.inv hl.latches (by omega)
    (by unfold PDR.depth; omega) hl.relInd) ?_
  rintro i r1 ⟨hI1, hev1, hco1, _, _, hki, hik, hrel1⟩
  obtain ⟨h1, hi⟩ := h.core hk hl hI1 hev1 hco1 hik hrel1
  refine (hmic h1).bind ((mic_spec fuel).1 h1) ?_
  rintro _ r2 ⟨hI2, hev2, hl2, _⟩
  refine (stops_add_cube _ _ _ _).bind
    (add_cube_spec hI2 .core (by omega) (by rw [hev2.len]; exact hi) hl2 false) ?_
  rintro _ r3 ⟨hI3, hev3, _⟩
  exact hdown (h.mono hI3 (hev1.trans (hev2.trans hev3)) fun _ hl => hl) _ _ _

theorem DownAsserts.next {fuel : Nat} (hmic : MicAsserts A env fuel) (hdown : DownAsserts A env fuel) :
    DownAsserts A env (fuel + 1) := by
  intro n k depth r c h required ctg join
  unfold CTG_down
  refine (stops_is_init c).bind (is_init_spec h.inv h.latches) ?_
  rintro b r1 ⟨hI1, hev1, _⟩
  refine Exec.stops_ite (fun _ => Exec.stops_pure) fun _ => ?_
  have hk1 : k < r1.pdr.frames.length := by rw [hev1.len]; exact h.level
  refine (stops_is_inductive k c true).bind (is_inductive_spec hI1 h.latches hk1 true) ?_
  rintro b2 r2 ⟨hI2, hev2, _, _, _, _, _, _, hmod⟩
  refine Exec.stops_ite (fun _ => Exec.stops_lift.then fun _ _ => Exec.stops_pure) fun hb2 =>
    Exec.stops_ite (fun _ => Exec.stops_pure) fun _ => ?_
  obtain ⟨hI3, hev3⟩ := hI2.pushState {} (by rintro _ ⟨⟩)
  obtain ⟨hI4, hev4⟩ := hI3.pushState { latches := c } h.latches
  rw [stops_newState, stops_newState]
  have hlits : liftLits A ((r2.pdr.pushState {}).pushState { latches := c })
      (some (r2.pdr.pushState {}).states.length) = c.map (primeLit A (primes1 A)) := by
    simp only [liftLits, PDR.state_pushState, ↓reduceIte]
  have hm4 : HasModel A env.minisat ((r2.pdr.pushState {}).pushState { latches := c }) k
      (liftLits A ((r2.pdr.pushState {}).pushState { latches := c })
        (some (r2.pdr.pushState {}).states.length)) := by
    rw [hlits]
    exact (hmod (by simpa using hb2)).of_frames rfl
  refine (asserts_extract hc hI4 hm4 _ _).bind
    (extract_spec hI4 (by simp [PDR.pushState]) hI2.size _ _) ?_
  rintro _ r5 ⟨hI5, hev5, _⟩
  have hev5' := hev1.trans (hev2.trans (hev3.trans (hev4.trans hev5)))
  have hk5 : k < r5.pdr.frames.length := by rw [hev5'.len]; exact h.level
  rw [stops_getP]
  refine (stops_ctgBlocked _ _ _).bind (ctgBlocked_spec hI5 (hI5.shape.states _) hk5 ctg) ?_
  rintro b6 r6 ⟨hI6, hev6, _, hblock⟩
  have hev6' := hev5'.trans hev6
  refine Exec.stops_ite (fun hb6 => ?_) fun _ => Exec.stops_ite (fun _ =>
    Exec.stops_ite (fun _ => Exec.stops_pure) fun _ => ?_) fun _ => Exec.stops_pure
  · obtain ⟨hk1', hl6⟩ := hblock hb6
    exact asserts_blockCtg hmic hdown (h.mono hI6 hev6' fun _ hl => hl) hk1' hl6
  · exact hdown (h.mono hI6 hev6' (joinCube_sublist _ _ _).subset) _ _ _

theorem asserts_mic (fuel : Nat) :
    MicAsserts A env fuel ∧ LoopAsserts A env fuel ∧ DownAsserts A env fuel := by
  induction fuel with
  | zero =>
      refine ⟨fun n k depth r v _ => ?_, fun n k depth r v _ _ _ _ => ?_, fun n k depth r c _ _ _ _ => ?_⟩
      · unfold mic; exact Exec.stops_throw rfl
      · unfold micLoop; exact Exec.stops_throw rfl
      · unfold CTG_down; exact Exec.stops_throw rfl
  | succ fuel ih =>
      obtain ⟨hmic, hloop, hdown⟩ := ih
      exact ⟨hloop.mic, hloop.next hdown, DownAsserts.next hc hmic hdown⟩

/-! ## Blocking -/

theorem asserts_blockObligation (hI : Inv A env.minisat n r) {o : Obligation}
    (ho : o ∈ r.pdr.obligation_queue) (hlen : 2 ≤ r.pdr.frames.length)
    (hcore : CoreOf A r.pdr o.frame_k (r.pdr.state o.state).latches r.pdr.core) (fuel : Nat) :
    (blockObligation env fuel o).Stops OutOfFuel r := by
  obtain ⟨hos, hok⟩ := hI.queue o ho
  have hla := hI.shape.states o.state
  have hI2 := ((hI.block ho).dequeue (List.tail_subset _)).record
  have hlat := hla.mono hcore.sublist.subset
  obtain ⟨hI3, hev3⟩ := hI2.setTmpCore hlat
  have hk : o.frame_k < r.pdr.frames.length := by unfold PDR.depth at hok; omega
  unfold blockObligation eraseObligation
  refine Exec.Stops.bind (Q := fun _ r' => r' = r.block (r.pdr.state o.state).latches)
    (E := fun _ => True) Exec.stops_modify rfl ?_
  rintro _ _ rfl
  rw [bind_assoc, stops_modifyP]
  refine Exec.Stops.bind (Q := fun _ r' => r' = _) (E := fun _ => True) Exec.stops_modify rfl ?_
  rintro _ _ rfl
  rw [stops_modifyP]
  refine Exec.Stops.then ?_ fun _ _ => ?_
  · refine (asserts_mic hc fuel).1 (v := .tmp_core)
      ⟨hI3, hk, le_rfl, (by rintro ⟨⟩), ⟨hlat, hcore.relInd, fun hm => ?_⟩⟩
    exact ⟨_, List.mem_cons_self, hcore.init hm ▸ hm⟩
  refine Exec.stops_modify.then fun _ _ => Exec.stops_lift.then fun p _ =>
    (stops_pushLevel _ _ _).then fun k _ => Exec.Stops.then ?_ fun b _ =>
    (stops_add_cube _ _ _ _).then fun _ _ => Exec.stops_ite (fun _ => ?_) fun _ => Exec.stops_pure
  · unfold pushObligation
    exact Exec.stops_lift.then fun _ _ => Exec.stops_modify.then fun _ _ => Exec.stops_pure
  · unfold insertObligation
    exact Exec.stops_modify.then fun _ _ => Exec.stops_modify

omit hc in
theorem stops_log_witness (fuel : Nat) (s : Option Nat) : (log_witness fuel s).Stops OutOfFuel r := by
  induction fuel generalizing s r with
  | zero => exact Exec.stops_throw rfl
  | succ fuel ih =>
      cases s with
      | none => exact Exec.stops_pure
      | some s => exact Exec.stops_lift.then fun _ _ => Exec.stops_modify.then fun _ _ => ih _

theorem asserts_expandObligation (hI : Inv A env.minisat n r) {o : Obligation}
    (ho : o ∈ r.pdr.obligation_queue)
    (hmod : HasModel A env.minisat r.pdr o.frame_k
      ((r.pdr.state o.state).latches.map (primeLit A (primes1 A)))) (fuel : Nat) :
    (expandObligation env fuel o).Stops OutOfFuel r := by
  have hos := (hI.queue o ho).1
  have hsz := hI.size
  have herase : ∀ {r : Run}, (eraseObligation).Stops OutOfFuel r := by
    intro r
    unfold eraseObligation
    exact Exec.stops_modify.then fun _ _ => Exec.stops_modify
  unfold expandObligation
  rw [stops_getP]
  refine Exec.stops_ite (fun _ => ?_) fun _ => Exec.stops_ite (fun _ => ?_) fun _ =>
    Exec.stops_ite (fun _ => ?_) fun _ => ?_
  · exact herase.then fun _ _ => Exec.stops_modify.then fun _ _ => Exec.stops_pure
  · exact herase.then fun _ _ => Exec.stops_modify.then fun _ _ => Exec.stops_modify.then
      fun _ _ => Exec.stops_pure
  · exact Exec.stops_lift.then fun _ _ => Exec.stops_modify.then fun _ _ =>
      (stops_log_witness _ _).then fun _ _ => Exec.stops_pure
  · rw [stops_newState]
    obtain ⟨hI1, _⟩ := hI.pushState {} (by rintro _ ⟨⟩)
    have hobl : (r.pdr.pushState {}).state o.state = r.pdr.state o.state := by
      rw [PDR.state_pushState, if_neg (by omega)]
    have hm1 : HasModel A env.minisat (r.pdr.pushState {}) o.frame_k
        (liftLits A (r.pdr.pushState {}) (some o.state)) := by
      simp only [liftLits, hobl]
      exact hmod.of_frames rfl
    refine (asserts_extract hc hI1 hm1 _ _).then fun _ _ => ?_
    unfold insertObligation
    exact (Exec.stops_modify.then fun _ _ => Exec.stops_modify).then fun _ _ => Exec.stops_pure

theorem asserts_rec_block_cube (h : Searching A env.minisat n r) (fuel : Nat) :
    (rec_block_cube env fuel).Stops OutOfFuel r := by
  induction fuel generalizing n r with
  | zero => exact Exec.stops_throw rfl
  | succ fuel ih =>
      have hnext : ∀ {r2}, Round env r r2 → (rec_block_cube env fuel).Stops OutOfFuel r2 := by
        intro r2 hr
        obtain ⟨o, rest, r1, hq, hlook, hI1, hcex, hof⟩ := h.round hr
        obtain ⟨n', _, hs'⟩ := hof.searching h hq hlook hI1 hcex
        exact ih hs'
      have hlen := h.len
      unfold rec_block_cube
      rw [stops_getP]
      cases hq : r.pdr.obligation_queue with
      | nil => exact Exec.stops_pure
      | cons o rest =>
          refine Exec.Stops.bind (Q := fun R r' => R = env.RESULT r.clock ∧ r' = r.tick)
            (E := fun _ => True) Exec.stops_lift ⟨rfl, rfl⟩ ?_
          rintro _ _ ⟨rfl, rfl⟩
          refine Exec.stops_ite (fun _ => Exec.stops_pure) fun hR => ?_
          have hR : env.RESULT r.clock = 0 := not_not.mp hR
          have ho : o ∈ r.pdr.obligation_queue := by rw [hq]; exact List.mem_cons_self
          refine (stops_is_inductive _ _ _).bind (Exec.wp_run _ _) fun b r1 hi => ?_
          obtain ⟨hlook, hI1, hcex, hcore, hmod⟩ := h.is_inductive_run ho hi
          have ho1 : o ∈ r1.pdr.obligation_queue := by rw [hlook.queue]; exact ho
          cases b with
          | true =>
              refine (asserts_blockObligation hc hI1 ho1 (by rw [hlook.len]; omega) (hcore rfl) fuel).bind
                (Exec.wp_run _ _) fun _ r2 hb => hnext (.block hq hR hi hb)
          | false =>
              refine (asserts_expandObligation hc hI1 ho1 (hmod rfl).2 fuel).bind (Exec.wp_run _ _)
                fun go r2 he => Exec.stops_ite (fun hgo => ?_) fun _ => Exec.stops_pure
              subst hgo
              exact hnext (.expand hq hR hi he)

/-! ## The main loop -/

theorem asserts_mainLoop (h : LoopInv A env.minisat r) (fuel : Nat) :
    (mainLoop env fuel).Stops (· ≠ .assertion) r := by
  induction fuel generalizing r with
  | zero => exact Exec.stops_throw (by simp)
  | succ fuel ih =>
      obtain ⟨n, hI⟩ := h.inv
      have hlen := h.len
      rw [mainLoop_succ]
      refine Exec.Stops.bind (Q := fun R r' => R = env.RESULT r.clock ∧ r' = r.tick)
        (E := fun _ => True) Exec.stops_lift ⟨rfl, rfl⟩ ?_
      rintro _ _ ⟨rfl, rfl⟩
      refine Exec.stops_ite (fun _ => Exec.stops_pure) fun hR => ?_
      have hR : env.RESULT r.clock = 0 := not_not.mp hR
      obtain ⟨hI0, hev0⟩ := hI.tick.pushState {} (by rintro _ ⟨⟩)
      have hfind : (findCti env).Stops (· ≠ .assertion) r.tick := by
        unfold findCti
        rw [stops_newState]
        refine ((asserts_get_pre_of_bad hc hI0 ?_ hI.size).mono (by simp)).then fun _ _ => Exec.stops_pure
        rw [hev0.len]
        show 2 ≤ r.pdr.frames.length
        omega
      refine hfind.bind (Exec.wp_run _ _) fun cti r1 hcti => ?_
      obtain ⟨hI1, hev1, hbad, _⟩ := (findCti_spec hI.tick (by rw [tick_pdr]; omega)).run_ok hcti
      have hlen1 : r1.pdr.frames.length = r.pdr.frames.length := hev1.len
      cases cti with
      | some s =>
          refine Exec.Stops.bind (Q := fun _ r' => r' = r1.startBlocking s) (E := fun _ => True)
            Exec.stops_modify rfl ?_
          rintro _ _ rfl
          refine ((asserts_rec_block_cube hc (h.searching hcti).2.2 fuel).mono (by simp)).bind
            (Exec.wp_run _ _) fun b r2 hb => Exec.stops_ite (fun hgo => ?_) fun _ => ?_
          · subst hgo
            exact ih (h.ctiRound ⟨s, r1, fuel, hR, hcti, hb⟩)
          · unfold reportCex
            exact (Exec.stops_lift.then fun _ _ => Exec.stops_modify).then fun _ _ => Exec.stops_pure
      | none =>
          refine Exec.Stops.bind ?_ (strengthen_spec hI1 (by omega) (hev1.earliest h.earliest)
            (hbad rfl)) fun b r2 hb => ?_
          · unfold strengthen
            exact Exec.stops_lift.then fun _ _ => Exec.stops_ite (fun _ => Exec.stops_throw (by simp))
              fun _ => stops_propagate
          refine Exec.stops_ite (fun _ => Exec.stops_pure) fun hno => ?_
          obtain ⟨hI2, hev2, hbad2⟩ := hb.1 (by simpa using hno)
          have hcex2 : r2.pdr.cex_states = [] := hev2.cex.trans (hev1.cex.trans h.cex)
          exact stops_pushFrame.bind (pushFrame_spec hI2 (by rw [hev2.len]; omega) hcex2 fun _ => hbad2)
            fun _ r3 h3 => ih h3

end Walk

/-! ## The theorem -/

/-- What the assertion needs: the frame solvers describe the circuit, or they are not reached since an
initial point is bad. -/
def Asserted (A : Circuit) (E : Eliminator) : Prop :=
  Consistent A E ∨ ∃ w, A.system.Init w ∧ A.system.Cons w ∧ A.system.Bad w

/-- In every run on a circuit that meets the condition, the lift query is unsatisfiable. -/
theorem lift_never_asserts (A : Circuit) (env : PdrEnv) (h : Asserted A env.minisat) (fuel : Nat) :
    (runCheck env A fuel).1 ≠ .error .assertion := by
  have hstops : (check env fuel).Stops (· ≠ .assertion) { pdr := { circuit := A.toAiger } } := by
    rw [check_eq]
    refine stops_prologue.bind (prologue_spec A env) fun b r1 hb => Exec.stops_ite (fun hgo => ?_)
      fun _ => ?_
    · have hL := hb.1 hgo
      obtain ⟨n, hI⟩ := hL.inv
      rcases h with h | ⟨w, hi, hcons, hbad⟩
      · exact asserts_mainLoop h hL fuel
      · exact absurd hbad (hI.reach.init_not_bad w hi hcons)
    · unfold reportCex
      exact (Exec.stops_lift.then fun _ _ => Exec.stops_modify).then fun _ _ => Exec.stops_pure
  exact fun he => hstops _ he rfl

/-- The run on `stuck`, whose second latch may be false. -/
theorem lift_never_asserts_stuck : Asserted Sample.stuck (Sample.envOf Sample.stuckAnswers).minisat ∧
    (runCheck (Sample.envOf Sample.stuckAnswers) Sample.stuck 10).1 ≠ .error .assertion := by
  have h : Asserted Sample.stuck (Sample.envOf Sample.stuckAnswers).minisat := by
    refine .inl (.inl ⟨fun _ => false, ?_, ?_⟩)
    · rintro l ⟨⟩
    · show ¬ Sample.stuck.val (fun _ => false) 3 = true
      decide
  exact ⟨h, lift_never_asserts Sample.stuck (Sample.envOf Sample.stuckAnswers) h 10⟩

namespace Sample

/-- Two constraints on the inputs that exclude each other; the latches become true, and the first one is
bad then. -/
def clash : Circuit where
  num_inputs := 2
  num_latches := 2
  num_ands := 2
  ands := [⟨6, 3, 2⟩, ⟨7, -3, 2⟩]
  nexts := [-1, -1]
  init_state := [-4, -5]
  constraints := [6, 7]
  allbad := [4]
  bad := 4
  default_vals := [0, 0]
  wf := by constructor <;> decide

/-- The solver with the answers `script`, and Minisat without elimination. -/
noncomputable def storeEnv (script : Nat → Answer) : PdrEnv := { envOf script with minisat := .store }

/-- Minisat ignores the definition of the first gate. At time 3 the frame solver has a model, and at
time 5 the lift query. -/
def clashAnswers : Nat → Answer
  | 0 => .unsat [4]
  | 1 => .unsat [10]
  | 3 => model [2, 6, 7, 8, 10, 11, 12, 13]
  | _ => model [2, 7, 8, 10, 11, 13, 14]

noncomputable def clashRun : Except Stop Int × Run := runCheck (storeEnv clashAnswers) clash 10

end Sample

/-- The assertion fails when the first predecessor of a bad state is extracted. -/
theorem lift_asserts_clash : Sample.clashRun.1 = .error .assertion := by decide +kernel

end ModelChecker
