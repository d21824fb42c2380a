import ModelChecker.Logic.Oracle
import ModelChecker.Pdr.Check

/-!
# Time in runs of `PDR::check`

The clock of a run never goes back, and a run depends on the values of `RESULT` up to the time it ends
at: whatever happens to `RESULT` later, the run is the same.
-/

namespace ModelChecker

open Logic

variable {env : PdrEnv} {α : Type}

/-! ## The clock -/

abbrev Timed (x : PdrM α) : Prop := Exec.Grows Run.clock x

theorem timed_getP : Timed getP := fun _ => le_rfl

theorem timed_modifyP {f : PDR → PDR} : Timed (modifyP f) := fun _ => le_rfl

theorem timed_record : Timed record := fun _ => le_rfl

theorem timed_newState (st : State) : Timed (newState st) := fun _ => le_rfl

theorem timed_ask (q : Query) : Timed (ask env q) := fun _ => Nat.le_succ _

theorem timed_reorder (c : Cube) : Timed (reorder env c) := fun _ => Nat.le_succ _

theorem timed_is_init (c : Cube) : Timed (is_init env c) :=
  timed_getP.bind fun _ => (timed_ask _).bind fun _ => timed_modifyP.bind fun _ => .pure _

theorem timed_is_inductive (k : Nat) (c : Cube) (g : Bool) : Timed (is_inductive env k c g) := by
  have hask : Timed (askInductive env k c) :=
    (timed_reorder c).bind fun _ => timed_getP.bind fun _ => (timed_ask _).bind fun _ =>
      timed_modifyP.bind fun _ => timed_record.bind fun _ => .pure _
  have hcore : ∀ s, Timed (takeCore env s c) := fun s =>
    timed_modifyP.bind fun _ => timed_getP.bind fun _ => (timed_is_init _).bind fun _ =>
      .ite timed_modifyP (.pure _)
  refine hask.bind fun s => .ite (.pure _) ?_
  cases g with
  | true => exact (hcore s).bind fun _ => .pure _
  | false => exact .pure _

theorem timed_extract (k s : Nat) (succ : Option Nat) (findex : Nat) :
    Timed (extract_state_from_sat env k s succ findex) := by
  have hload : Timed (loadLift env) := by
    refine timed_getP.bind fun p => ?_
    cases p.lift with
    | some l => exact .pure _
    | none =>
        exact Exec.Grows.bind (timed_modifyP.bind fun _ => timed_getP.bind fun _ => .pure _) fun _ => .pure _
  have hask : Timed (askLift env k succ) :=
    hload.bind fun _ => timed_getP.bind fun _ => (timed_reorder _).bind fun _ => (timed_ask _).bind fun _ =>
      .ite (.throw _) (.pure _)
  exact hask.bind fun _ => timed_modifyP.bind fun _ => timed_record

theorem timed_get_pre_of_bad (s : Nat) : Timed (get_pre_of_bad env s) := by
  have hask : Timed (askBad env) :=
    timed_getP.bind fun _ => (timed_ask _).bind fun _ => timed_modifyP.bind fun _ =>
      timed_record.bind fun _ => .pure _
  exact timed_modifyP.bind fun _ => hask.bind fun _ => .ite (timed_getP.bind fun _ =>
    (timed_newState _).bind fun _ => (timed_extract _ _ _ _).bind fun _ => timed_modifyP.bind fun _ => .pure _)
    (.pure _)

theorem timed_pushLevel (c : Cube) (n k : Nat) : Timed (pushLevel env c n k) := by
  induction n generalizing k with
  | zero => exact .pure _
  | succ n ih => exact (timed_is_inductive _ _ _).bind fun _ => .ite (ih _) (.pure _)

theorem timed_add_cube (v : CubeVar) (k : Nat) (b isp : Bool) : Timed (add_cube v k b isp) :=
  timed_modifyP.bind fun _ => timed_record

theorem timed_ctgBlocked (ct k : Nat) (c : Cube) : Timed (ctgBlocked env ct k c) :=
  .ite ((timed_is_init c).bind fun _ => .ite (.pure _) (timed_is_inductive _ _ _)) (.pure _)

theorem timed_mic (fuel : Nat) :
    (∀ v k d, Timed (mic env fuel v k d)) ∧
    (∀ v k d tmp required failed, Timed (micLoop env fuel v k d tmp required failed)) ∧
    ∀ c k d required ctg join, Timed (CTG_down env fuel c k d required ctg join) := by
  induction fuel with
  | zero =>
      refine ⟨fun v k d => ?_, fun v k d tmp required failed => ?_, fun c k d required ctg join => ?_⟩
      · unfold mic; exact .throw _
      · unfold micLoop; exact .throw _
      · unfold CTG_down; exact .throw _
  | succ fuel ih =>
      obtain ⟨hmic, hloop, hdown⟩ := ih
      refine ⟨fun v k d => ?_, fun v k d tmp required failed => ?_, fun c k d required ctg join => ?_⟩
      · unfold mic
        exact timed_getP.bind fun _ => (timed_reorder _).bind fun _ => timed_modifyP.bind fun _ =>
          hloop _ _ _ _ _ _
      · unfold micLoop
        cases tmp with
        | nil => exact .pure _
        | cons l rest =>
            refine timed_getP.bind fun _ => .ite (hloop _ _ _ _ _ _) ((hdown _ _ _ _ _ _).bind fun _ => ?_)
            exact .ite (timed_modifyP.bind fun _ => hloop _ _ _ _ _ _) (.ite (.pure _) (hloop _ _ _ _ _ _))
      · unfold CTG_down
        refine (timed_is_init _).bind fun _ => .ite (.pure _) ((timed_is_inductive _ _ _).bind fun _ =>
          .ite (timed_getP.bind fun _ => .pure _) (.ite (.pure _) ?_))
        refine (timed_newState _).bind fun _ => (timed_newState _).bind fun _ =>
          (timed_extract _ _ _ _).bind fun _ => timed_getP.bind fun _ => (timed_ctgBlocked _ _ _).bind fun _ =>
          .ite ?_ (.ite (.ite (.pure _) (hdown _ _ _ _ _ _)) (.pure _))
        exact timed_getP.bind fun _ => (timed_pushLevel _ _ _).bind fun _ => (hmic _ _ _).bind fun _ =>
          (timed_add_cube _ _ _ _).bind fun _ => hdown _ _ _ _ _ _

theorem timed_log_witness (fuel : Nat) (s : Option Nat) : Timed (log_witness fuel s) := by
  induction fuel generalizing s with
  | zero => exact .throw _
  | succ fuel ih =>
      cases s with
      | none => exact .pure _
      | some s => exact timed_getP.bind fun _ => timed_modifyP.bind fun _ => ih _

theorem timed_blockObligation (fuel : Nat) (o : Obligation) : Timed (blockObligation env fuel o) := by
  have hpush : ∀ k, Timed (pushObligation env o k) := fun k =>
    timed_getP.bind fun _ => timed_modifyP.bind fun _ => .pure _
  refine Exec.Grows.bind (fun _ => le_rfl) fun _ => Exec.Grows.bind
    (timed_modifyP.bind fun _ => timed_record) fun _ => timed_modifyP.bind fun _ =>
    ((timed_mic fuel).1 _ _ _).bind fun _ => timed_modifyP.bind fun _ => timed_getP.bind fun _ =>
    (timed_pushLevel _ _ _).bind fun k => (hpush k).bind fun _ => (timed_add_cube _ _ _ _).bind fun _ =>
    .ite (timed_modifyP.bind fun _ => timed_record) (.pure _)

theorem timed_expandObligation (fuel : Nat) (o : Obligation) : Timed (expandObligation env fuel o) := by
  have herase : Timed eraseObligation := timed_modifyP.bind fun _ => timed_record
  refine timed_getP.bind fun _ => .ite (herase.bind fun _ => timed_modifyP.bind fun _ => .pure _)
    (.ite (herase.bind fun _ => timed_modifyP.bind fun _ => timed_modifyP.bind fun _ => .pure _)
    (.ite ((timed_newState _).bind fun _ => timed_modifyP.bind fun _ => (timed_log_witness _ _).bind fun _ =>
      .pure _) ((timed_newState _).bind fun _ => (timed_extract _ _ _ _).bind fun _ => Exec.Grows.bind
      (timed_modifyP.bind fun _ => timed_record) fun _ => .pure _)))

theorem timed_propagateCube (i : Nat) (c : Cube) : Timed (propagateCube env i c) :=
  (timed_is_inductive _ _ _).bind fun _ => .ite (timed_getP.bind fun _ => (timed_add_cube _ _ _ _).bind
    fun _ => timed_modifyP.bind fun _ => timed_record) (.pure _)

theorem timed_new_frame : Timed (new_frame env) :=
  Exec.Grows.bind (timed_modifyP.bind fun _ => timed_getP.bind fun _ => .pure _) fun _ => timed_modifyP

theorem timed_pushFrame : Timed (pushFrame env) :=
  timed_new_frame.bind fun _ => timed_modifyP.bind fun _ => timed_record

theorem timed_check_BMC0 : Timed (check_BMC0 env) :=
  timed_getP.bind fun _ => (timed_ask _).bind fun _ => .ite (timed_modifyP.bind fun _ => .pure _)
    (Exec.Grows.bind (timed_new_frame.bind fun _ => timed_modifyP.bind fun _ => timed_record) fun _ => .pure _)

theorem timed_check_BMC1 : Timed (check_BMC1 env) :=
  timed_getP.bind fun _ => Exec.Grows.bind (timed_modifyP.bind fun _ => timed_getP.bind fun _ => .pure _)
    fun _ => timed_getP.bind fun _ => (timed_ask _).bind fun _ => .ite
      (timed_modifyP.bind fun _ => .pure _) (timed_new_frame.bind fun _ => timed_record.bind fun _ => .pure _)

/-! ## Values of `RESULT` -/

/-- The same thread, which reads the values `ρ`. -/
def PdrEnv.reading (env : PdrEnv) (ρ : Nat → Int) : PdrEnv := { env with RESULT := ρ }

/-- The program reads `RESULT` in order. -/
abbrev InOrder (x : PdrEnv → PdrM α) (env : PdrEnv) : Prop :=
  Exec.Causal Run.clock fun ρ => x (env.reading ρ)

theorem inOrder_readRESULT : InOrder readRESULT env := Exec.Causal.read fun _ => rfl

theorem inOrder_reportCex : InOrder reportCex env :=
  inOrder_readRESULT.bind fun _ => ⟨fun _ _ => le_rfl, fun _ _ _ _ => rfl⟩

theorem inOrder_fixpointFound (i : Nat) : InOrder (fixpointFound · i) env :=
  inOrder_readRESULT.bind fun _ => ⟨fun _ _ => le_rfl, fun _ _ _ _ => rfl⟩

theorem pushLevel_reading (ρ : Nat → Int) (c : Cube) (n k : Nat) :
    pushLevel (env.reading ρ) c n k = pushLevel env c n k := by
  have hind : is_inductive (env.reading ρ) = is_inductive env := rfl
  induction n generalizing k with
  | zero => rfl
  | succ n ih => simp only [pushLevel, hind, ih]

theorem mic_reading (ρ : Nat → Int) (fuel : Nat) :
    (∀ v k d, mic (env.reading ρ) fuel v k d = mic env fuel v k d) ∧
    (∀ v k d tmp required failed, micLoop (env.reading ρ) fuel v k d tmp required failed =
      micLoop env fuel v k d tmp required failed) ∧
    ∀ c k d required ctg join, CTG_down (env.reading ρ) fuel c k d required ctg join =
      CTG_down env fuel c k d required ctg join := by
  have hpush := @pushLevel_reading env ρ
  induction fuel with
  | zero =>
      refine ⟨fun _ _ _ => ?_, fun _ _ _ _ _ _ => ?_, fun _ _ _ _ _ _ => ?_⟩
      · simp only [mic]
      · simp only [micLoop]
      · simp only [CTG_down]
  | succ fuel ih =>
      obtain ⟨hmic, hloop, hdown⟩ := ih
      have hind : is_inductive (env.reading ρ) = is_inductive env := rfl
      have hinit : is_init (env.reading ρ) = is_init env := rfl
      have hext : extract_state_from_sat (env.reading ρ) = extract_state_from_sat env := rfl
      have hctg : ctgBlocked (env.reading ρ) = ctgBlocked env := rfl
      have hord : reorder (env.reading ρ) = reorder env := rfl
      refine ⟨fun v k d => ?_, fun v k d tmp required failed => ?_, fun c k d required ctg join => ?_⟩
      · simp only [mic, hloop, hord]
      · cases tmp with
        | nil => simp only [micLoop]
        | cons l rest => simp only [micLoop, hloop, hdown]
      · simp only [CTG_down, hinit, hind, hext, hctg, hpush, hmic, hdown]

theorem inOrder_rec_block_cube (fuel : Nat) : InOrder (rec_block_cube · fuel) env := by
  induction fuel with
  | zero => exact .const (.throw _)
  | succ fuel ih =>
      have hblock : ∀ ρ o, blockObligation (env.reading ρ) fuel o = blockObligation env fuel o := by
        intro ρ o
        have hpush : ∀ k, pushObligation (env.reading ρ) o k = pushObligation env o k := fun _ => rfl
        simp only [blockObligation, generalize, (mic_reading ρ fuel).1, pushLevel_reading, hpush]
      have hexpand : ∀ ρ o, expandObligation (env.reading ρ) fuel o = expandObligation env fuel o :=
        fun _ _ => rfl
      have hind : ∀ ρ, is_inductive (env.reading ρ) = is_inductive env := fun _ => rfl
      simp only [InOrder, rec_block_cube, hblock, hexpand, hind]
      refine Exec.Causal.bind (.const timed_getP) fun p => ?_
      cases p.obligation_queue with
      | nil => exact .const (.pure _)
      | cons o rest =>
          refine inOrder_readRESULT.bind fun R => .ite (.const (.pure _)) ?_
          refine Exec.Causal.bind (.const (timed_is_inductive _ _ _)) fun b => .ite ?_ ?_
          · exact Exec.Causal.bind (.const (timed_blockObligation _ _)) fun _ => ih
          · exact Exec.Causal.bind (.const (timed_expandObligation _ _)) fun _ => .ite ih (.const (.pure _))

theorem inOrder_propagateLevels (n i : Nat) : InOrder (propagateLevels · n i) env := by
  induction n generalizing i with
  | zero => exact .const (.pure _)
  | succ n ih =>
      have hcube : ∀ ρ, propagateCube (env.reading ρ) i = propagateCube env i := fun _ => rfl
      simp only [InOrder, propagateLevels, hcube]
      refine Exec.Causal.bind (.const timed_getP) fun p => Exec.Causal.bind
        (.const (.forEach (timed_propagateCube i) _)) fun _ => Exec.Causal.bind (.const timed_getP) fun p =>
        .ite ((inOrder_fixpointFound i).bind fun _ => .const (.pure _)) (ih _)

theorem inOrder_mainLoop (fuel : Nat) : InOrder (mainLoop · fuel) env := by
  induction fuel with
  | zero => exact .const (.throw _)
  | succ fuel ih =>
      have hpre : ∀ ρ, get_pre_of_bad (env.reading ρ) = get_pre_of_bad env := fun _ => rfl
      have hpush : ∀ ρ, pushFrame (env.reading ρ) = pushFrame env := fun _ => rfl
      simp only [InOrder, mainLoop, hpre, hpush]
      refine inOrder_readRESULT.bind fun R => .ite (.const (.pure _)) ?_
      refine Exec.Causal.bind (.const (timed_newState _)) fun s => Exec.Causal.bind
        (.const (timed_get_pre_of_bad s)) fun b => .ite ?_ ?_
      · refine Exec.Causal.bind (.const timed_modifyP) fun _ => Exec.Causal.bind (.const timed_record) fun _ =>
          (inOrder_rec_block_cube fuel).bind fun b => .ite ih (inOrder_reportCex.bind fun _ => .const (.pure _))
      · refine Exec.Causal.bind (.const timed_getP) fun p => .ite (.const (.throw _)) ?_
        have hprop : InOrder propagate env := Exec.Causal.bind (.const timed_getP) fun p =>
          inOrder_propagateLevels _ _
        exact hprop.bind fun b => .ite (.const (.pure _)) (Exec.Causal.bind (.const timed_pushFrame) fun _ => ih)

theorem inOrder_check (fuel : Nat) : InOrder (check · fuel) env := by
  have h0 : ∀ ρ, check_BMC0 (env.reading ρ) = check_BMC0 env := fun _ => rfl
  have h1 : ∀ ρ, check_BMC1 (env.reading ρ) = check_BMC1 env := fun _ => rfl
  have hpush : ∀ ρ, pushFrame (env.reading ρ) = pushFrame env := fun _ => rfl
  simp only [InOrder, check, h0, h1, hpush]
  refine Exec.Causal.bind (.const timed_modifyP) fun _ => Exec.Causal.bind (.const timed_check_BMC0) fun b =>
    .ite (inOrder_reportCex.bind fun _ => .const (.pure _)) ?_
  exact Exec.Causal.bind (.const timed_check_BMC1) fun b => .ite (inOrder_reportCex.bind fun _ => .const (.pure _))
    (Exec.Causal.bind (.const timed_pushFrame) fun _ => inOrder_mainLoop fuel)

/-! ## Runs -/

/-- The first query takes some time. -/
theorem check_BMC0_clock (r : Run) : r.clock + 1 ≤ (check_BMC0 env r).2.clock := by
  have hget : getP r = (.ok r.pdr, r) := rfl
  have hask : ∀ q, ask env q r = (.ok (env.solver.solve r.clock q), r.tick) := fun _ => rfl
  unfold check_BMC0
  rw [Exec.run_bind_ok hget, Exec.run_bind_ok (hask _)]
  exact (Exec.Grows.ite (timed_modifyP.bind fun _ => .pure _) (Exec.Grows.bind (timed_new_frame.bind fun _ =>
    timed_modifyP.bind fun _ => timed_record) fun _ => .pure _)) r.tick

theorem runCheck_clock {A : Circuit} {fuel : Nat} {v : Int} {r : Run}
    (h : runCheck env A fuel = (.ok v, r)) : 1 ≤ r.clock := by
  have hread : env.reading env.RESULT = env := rfl
  have hloop : Timed (mainLoop env fuel) := hread ▸ (@inOrder_mainLoop env fuel).grows env.RESULT
  have hreport : Timed (reportCex env) := hread ▸ (@inOrder_reportCex env).grows env.RESULT
  unfold runCheck check at h
  obtain ⟨_, r1, h1, h⟩ := Exec.bind_eq_ok.mp h
  obtain ⟨b, r2, h2, h⟩ := Exec.bind_eq_ok.mp h
  have hle := @check_BMC0_clock env r1
  rw [h2] at hle
  have hrest : r2.clock ≤ r.clock := by
    have hgrow : Timed (if !b then do
        reportCex env
        pure 10
      else do
        let b ← check_BMC1 env
        if !b then do
          reportCex env
          pure 10
        else do
          pushFrame env
          mainLoop env fuel) :=
      .ite (hreport.bind fun _ => .pure _) (timed_check_BMC1.bind fun _ =>
        .ite (hreport.bind fun _ => .pure _) (timed_pushFrame.bind fun _ => hloop))
    have hg := hgrow r2
    rw [h] at hg
    exact hg
  have hle' : r1.clock + 1 ≤ r2.clock := hle
  omega

/-- What a run finds does not depend on the values of `RESULT` after its end. -/
theorem runCheck_reading {A : Circuit} {fuel : Nat} {res : Except Stop Int} {r : Run} {ρ ρ' : Nat → Int}
    (h : runCheck (env.reading ρ) A fuel = (res, r)) (hag : ∀ t, t < r.clock → ρ t = ρ' t) :
    runCheck (env.reading ρ') A fuel = (res, r) := by
  have hag' : ∀ t, t < (runCheck (env.reading ρ) A fuel).2.clock → ρ t = ρ' t := by
    rw [h]
    exact hag
  rw [← h]
  exact (@inOrder_check env fuel).agrees ρ ρ' { pdr := { circuit := A.toAiger } } hag'

end ModelChecker
