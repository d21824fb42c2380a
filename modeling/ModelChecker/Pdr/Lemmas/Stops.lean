import ModelChecker.Logic.Fuel
import ModelChecker.Pdr.Lemmas.Check

/-!
# How the operations stop

Most operations always return. Only `extract_state_from_sat` and `mainLoop` have an assertion, and fuel
is spent by the loops. More fuel changes nothing but that, and `mic` needs a bounded number of rounds
whatever the solvers answer.
-/

namespace ModelChecker

open Logic

variable {env : PdrEnv} {r : Run} {P : Stop → Prop}

/-! ## Elementary steps -/

section Steps

variable {α : Type}

theorem stops_getP {f : PDR → PdrM α} : (getP >>= f).Stops P r ↔ (f r.pdr).Stops P r := Iff.rfl

theorem stops_modifyP {f : PDR → PDR} {g : Unit → PdrM α} :
    (modifyP f >>= g).Stops P r ↔ (g ()).Stops P (r.setP (f r.pdr)) := Iff.rfl

theorem stops_ask {q : Query} {f : Answer → PdrM α} :
    (ask env q >>= f).Stops P r ↔ (f (env.solver.solve r.clock q)).Stops P r.tick := Iff.rfl

theorem stops_reorder {c : Cube} {f : Cube → PdrM α} :
    (reorder env c >>= f).Stops P r ↔ (f (env.order r.clock c)).Stops P r.tick := Iff.rfl

theorem stops_newState {st : State} {f : Nat → PdrM α} :
    (newState st >>= f).Stops P r ↔
      (f r.pdr.states.length).Stops P (r.setP (r.pdr.pushState st)) := Iff.rfl

theorem halts_getP {f : Nat → PDR → PdrM α} :
    Exec.Halts .fuel (fun n => getP >>= f n) r ↔ Exec.Halts .fuel (fun n => f n r.pdr) r := Iff.rfl

theorem halts_modifyP {f : PDR → PDR} {g : Nat → Unit → PdrM α} :
    Exec.Halts .fuel (fun n => modifyP f >>= g n) r ↔
      Exec.Halts .fuel (fun n => g n ()) (r.setP (f r.pdr)) := Iff.rfl

theorem halts_newState {st : State} {f : Nat → Nat → PdrM α} :
    Exec.Halts .fuel (fun n => newState st >>= f n) r ↔
      Exec.Halts .fuel (fun n => f n r.pdr.states.length) (r.setP (r.pdr.pushState st)) := Iff.rfl

theorem halts_readRESULT {f : Nat → Int → PdrM α} :
    Exec.Halts .fuel (fun n => readRESULT env >>= f n) r ↔
      Exec.Halts .fuel (fun n => f n (env.RESULT r.clock)) r.tick := Iff.rfl

end Steps

/-! ## Operations that return -/

theorem stops_is_init (c : Cube) : (is_init env c).Stops P r := by
  unfold is_init
  exact Exec.stops_lift.then fun _ _ => Exec.stops_lift.then fun _ _ => Exec.stops_modify.then
    fun _ _ => Exec.stops_pure

theorem stops_is_inductive (k : Nat) (c : Cube) (g : Bool) : (is_inductive env k c g).Stops P r := by
  unfold is_inductive
  refine Exec.Stops.then ?_ fun s r1 => Exec.stops_ite (fun _ => Exec.stops_pure) fun _ => ?_
  · unfold askInductive
    exact Exec.stops_lift.then fun _ _ => Exec.stops_lift.then fun _ _ => Exec.stops_lift.then
      fun _ _ => Exec.stops_modify.then fun _ _ => Exec.stops_modify.then fun _ _ => Exec.stops_pure
  · cases g with
    | false => exact Exec.stops_pure
    | true =>
        refine Exec.Stops.then ?_ fun _ _ => Exec.stops_pure
        unfold takeCore
        exact Exec.stops_modify.then fun _ _ => Exec.stops_lift.then fun _ _ =>
          (stops_is_init _).then fun _ _ => Exec.stops_ite (fun _ => Exec.stops_modify)
            fun _ => Exec.stops_pure

theorem stops_pushLevel (c : Cube) (n k : Nat) : (pushLevel env c n k).Stops P r := by
  induction n generalizing k r with
  | zero => exact Exec.stops_pure
  | succ n ih =>
      unfold pushLevel
      exact (stops_is_inductive k c false).then fun _ _ =>
        Exec.stops_ite (fun _ => ih _) fun _ => Exec.stops_pure

theorem stops_ctgBlocked (ct k : Nat) (c : Cube) : (ctgBlocked env ct k c).Stops P r := by
  unfold ctgBlocked
  exact Exec.stops_ite (fun _ => (stops_is_init c).then fun _ _ =>
    Exec.stops_ite (fun _ => Exec.stops_pure) fun _ => stops_is_inductive _ _ _) fun _ => Exec.stops_pure

theorem stops_add_cube (v : CubeVar) (k : Nat) (b isp : Bool) : (add_cube v k b isp).Stops P r :=
  Exec.stops_modify.then fun _ _ => Exec.stops_modify

theorem stops_new_frame : (new_frame env).Stops P r := by
  unfold new_frame encode_translation
  exact (Exec.stops_modify.then fun _ _ => Exec.stops_lift.then fun _ _ => Exec.stops_pure).then
    fun _ _ => Exec.stops_modify

theorem stops_pushFrame : (pushFrame env).Stops P r :=
  stops_new_frame.then fun _ _ => Exec.stops_modify.then fun _ _ => Exec.stops_modify

theorem stops_propagate : (propagate env).Stops P r := by
  have hcube : ∀ i c r, (propagateCube env i c).Stops P r := by
    intro i c r
    unfold propagateCube
    exact (stops_is_inductive i c true).then fun _ _ => Exec.stops_ite (fun _ =>
      Exec.stops_lift.then fun _ _ => (stops_add_cube _ _ _ _).then fun _ _ =>
        Exec.stops_modify.then fun _ _ => Exec.stops_modify) fun _ => Exec.stops_pure
  have hlevels : ∀ n i r, (propagateLevels env n i).Stops P r := by
    intro n
    induction n with
    | zero => exact fun i r => Exec.stops_pure
    | succ n ih =>
        intro i r
        unfold propagateLevels
        refine Exec.stops_lift.then fun p _ => (Exec.stops_forEach (hcube i) _ _).then fun _ _ =>
          Exec.stops_lift.then fun _ _ => Exec.stops_ite (fun _ => ?_) fun _ => ih _ _
        unfold fixpointFound
        exact (Exec.stops_lift.then fun _ _ => Exec.stops_modify).then fun _ _ => Exec.stops_pure
  unfold propagate
  exact Exec.stops_lift.then fun _ _ => hlevels _ _ _

theorem stops_check_BMC0 : (check_BMC0 env).Stops P r := by
  unfold check_BMC0 firstFrame
  exact Exec.stops_lift.then fun _ _ => Exec.stops_lift.then fun _ _ => Exec.stops_ite
    (fun _ => Exec.stops_modify.then fun _ _ => Exec.stops_pure) fun _ =>
      (stops_new_frame.then fun _ _ => Exec.stops_modify.then fun _ _ => Exec.stops_modify).then
        fun _ _ => Exec.stops_pure

theorem stops_check_BMC1 : (check_BMC1 env).Stops P r := by
  unfold check_BMC1 encode_translation
  exact Exec.stops_lift.then fun _ _ => (Exec.stops_modify.then fun _ _ => Exec.stops_lift.then
    fun _ _ => Exec.stops_pure).then fun _ _ => Exec.stops_lift.then fun _ _ => Exec.stops_lift.then
      fun _ _ => Exec.stops_ite (fun _ => Exec.stops_modify.then fun _ _ => Exec.stops_pure)
        fun _ => stops_new_frame.then fun _ _ => Exec.stops_modify.then fun _ _ => Exec.stops_pure

theorem stops_prologue : (prologue env).Stops P r := by
  unfold prologue initializePdr
  exact Exec.stops_modify.then fun _ _ => stops_check_BMC0.then fun _ _ => Exec.stops_ite
    (fun _ => Exec.stops_pure) fun _ => stops_check_BMC1.then fun _ _ => Exec.stops_ite
      (fun _ => Exec.stops_pure) fun _ => stops_pushFrame.then fun _ _ => Exec.stops_pure

/-! ## The lift query -/

/-- Before its query, `extract_state_from_sat` only loads the lift solver. -/
theorem stops_loadLift : (loadLift env).Stops P r := by
  unfold loadLift
  refine Exec.stops_lift.then fun p _ => ?_
  cases p.lift with
  | some l => exact Exec.stops_pure
  | none =>
      unfold encode_lift
      exact (Exec.stops_modify.then fun _ _ => Exec.stops_lift.then fun _ _ => Exec.stops_pure).then
        fun _ _ => Exec.stops_pure

theorem stops_extract (k s : Nat) (succ : Option Nat) (findex : Nat) (hP : P .assertion) :
    (extract_state_from_sat env k s succ findex).Stops P r := by
  unfold extract_state_from_sat
  refine Exec.Stops.then ?_ fun _ _ => Exec.stops_modify.then fun _ _ => Exec.stops_modify
  unfold askLift
  exact stops_loadLift.then fun _ _ => Exec.stops_lift.then fun _ _ => Exec.stops_lift.then fun _ _ =>
    Exec.stops_lift.then fun _ _ => Exec.stops_ite (fun _ => Exec.stops_throw hP) fun _ => Exec.stops_pure

/-! ## More fuel -/

section Chain

variable (env)

/-- `mic` and `CTG_down` with one more unit of fuel. -/
theorem below_mic (n : Nat) :
    (∀ v k d, Exec.Below .fuel (mic env n v k d) (mic env (n + 1) v k d)) ∧
    (∀ v k d tmp required failed, Exec.Below .fuel (micLoop env n v k d tmp required failed)
      (micLoop env (n + 1) v k d tmp required failed)) ∧
    (∀ c k d required ctg join, Exec.Below .fuel (CTG_down env n c k d required ctg join)
      (CTG_down env (n + 1) c k d required ctg join)) := by
  induction n with
  | zero =>
      refine ⟨fun v k d => ?_, fun v k d tmp required failed => ?_, fun c k d required ctg join => ?_⟩
      · rw [mic]; exact .throw _
      · rw [micLoop]; exact .throw _
      · rw [CTG_down]; exact .throw _
  | succ n ih =>
      obtain ⟨ihmic, ihloop, ihdown⟩ := ih
      refine ⟨fun v k d => ?_, fun v k d tmp required failed => ?_, fun c k d required ctg join => ?_⟩
      · unfold mic
        exact .bind (.refl _) fun _ => .bind (.refl _) fun _ => .bind (.refl _) fun _ =>
          ihloop _ _ _ _ _ _
      · unfold micLoop
        cases tmp with
        | nil => exact .refl _
        | cons l rest =>
            exact .bind (.refl _) fun _ => .ite (ihloop _ _ _ _ _ _) (.bind (ihdown _ _ _ _ _ _)
              fun x => .ite (.bind (.refl _) fun _ => ihloop _ _ _ _ _ _)
                (.ite (.refl _) (ihloop _ _ _ _ _ _)))
      · unfold CTG_down
        refine .bind (.refl _) fun _ => .ite (.refl _) (.bind (.refl _) fun _ => .ite (.refl _)
          (.ite (.refl _) (.bind (.refl _) fun _ => .bind (.refl _) fun _ => .bind (.refl _) fun _ =>
            .bind (.refl _) fun p => .bind (.refl _) fun b => .ite ?_ ?_)))
        · exact .bind (.refl _) fun _ => .bind (.refl _) fun i => .bind (ihmic _ _ _) fun _ =>
            .bind (.refl _) fun _ => ihdown _ _ _ _ _ _
        · exact .ite (.ite (.refl _) (ihdown _ _ _ _ _ _)) (.refl _)

theorem chain_mic (v : CubeVar) (k d : Nat) : Exec.Chain .fuel fun n => mic env n v k d :=
  fun n => (below_mic env n).1 v k d

theorem chain_micLoop (v : CubeVar) (k d : Nat) (tmp required : Cube) (failed : Nat) :
    Exec.Chain .fuel fun n => micLoop env n v k d tmp required failed :=
  fun n => (below_mic env n).2.1 v k d tmp required failed

theorem chain_CTG_down (c : Cube) (k d : Nat) (required : Cube) (ctg join : Nat) :
    Exec.Chain .fuel fun n => CTG_down env n c k d required ctg join :=
  fun n => (below_mic env n).2.2 c k d required ctg join

theorem chain_log_witness (s : Option Nat) : Exec.Chain .fuel fun n => log_witness n s := by
  intro n
  induction n generalizing s with
  | zero => exact .throw _
  | succ n ih =>
      cases s with
      | none => exact .refl _
      | some s => exact .bind (.refl _) fun _ => .bind (.refl _) fun _ => ih _

theorem chain_blockObligation (o : Obligation) : Exec.Chain .fuel fun n => blockObligation env n o := by
  intro n
  unfold blockObligation generalize
  exact .bind (.refl _) fun _ => .bind (.refl _) fun _ => .bind (.refl _) fun _ =>
    .bind (chain_mic env .tmp_core o.frame_k 1 n) fun _ => .refl _

theorem chain_expandObligation (o : Obligation) :
    Exec.Chain .fuel fun n => expandObligation env n o := by
  intro n
  unfold expandObligation
  exact .bind (.refl _) fun _ => .ite (.refl _) (.ite (.refl _) (.ite (.bind (.refl _) fun _ =>
    .bind (.refl _) fun _ => .bind (chain_log_witness _ n) fun _ => .refl _) (.refl _)))

theorem chain_rec_block_cube : Exec.Chain .fuel fun n => rec_block_cube env n := by
  intro n
  induction n with
  | zero => exact .throw _
  | succ n ih =>
      unfold rec_block_cube
      refine .bind (.refl _) fun p => ?_
      cases p.obligation_queue with
      | nil => exact .refl _
      | cons o rest =>
          exact .bind (.refl _) fun _ => .ite (.refl _) (.bind (.refl _) fun _ => .ite
            (.bind (chain_blockObligation env o n) fun _ => ih)
            (.bind (chain_expandObligation env o n) fun _ => .ite ih (.refl _)))

theorem chain_mainLoop : Exec.Chain .fuel fun n => mainLoop env n := by
  intro n
  induction n with
  | zero => exact .throw _
  | succ n ih =>
      unfold mainLoop
      refine .bind (.refl _) fun _ => .ite (.refl _) (.bind (.refl _) fun _ => .bind (.refl _) fun _ => .ite ?_ ?_)
      · exact .bind (.refl _) fun _ => .bind (.refl _) fun _ => .bind (chain_rec_block_cube env n) fun _ =>
          .ite ih (.refl _)
      · exact .bind (.refl _) fun _ => .ite (.refl _) (.bind (.refl _) fun _ => .ite (.refl _)
          (.bind (.refl _) fun _ => ih))

theorem chain_check : Exec.Chain .fuel fun n => check env n := by
  intro n
  unfold check
  exact .bind (.refl _) fun _ => .bind (.refl _) fun _ => .ite (.refl _) (.bind (.refl _) fun _ =>
    .ite (.refl _) (.bind (.refl _) fun _ => chain_mainLoop env n))

end Chain

/-- A run has one outcome. -/
theorem runCheck_unique {A : Circuit} {fuel fuel' : Nat} {res res' : Except Stop Int} {r' : Run}
    (h : runCheck env A fuel = (res, r)) (hres : res ≠ .error .fuel)
    (h' : runCheck env A fuel' = (res', r')) (hres' : res' ≠ .error .fuel) : res = res' ∧ r = r' := by
  have key : ∀ {n m : Nat} {a b : Except Stop Int} {s t : Run}, n ≤ m → runCheck env A n = (a, s) →
      a ≠ .error .fuel → runCheck env A m = (b, t) → (a, s) = (b, t) := by
    intro n m a b s t hle ha hne hb
    rcases (chain_check env).below hle { pdr := { circuit := A.toAiger } } with he | he
    · have hea : (runCheck env A n).1 = .error .fuel := he
      rw [ha] at hea
      exact absurd hea hne
    · exact ha.symm.trans (Eq.trans he hb)
  rcases le_total fuel fuel' with hle | hle
  · exact Prod.mk.inj (key hle h hres h')
  · exact Prod.mk.inj (key hle h' hres' h).symm

/-! ## Generalisation halts -/

section Halts

variable {k d : Nat}

theorem halts_pure {α : Type} (a : α) : Exec.Halts Stop.fuel (fun _ => (pure a : PdrM α)) r :=
  Exec.halts_of_stops Exec.stops_pure

/-- Inside a counterexample to generalisation there is one round only. -/
theorem halts_CTG_down_deep (hd : d > option_ctg_max_depth) (c required : Cube) (ctg join : Nat) :
    Exec.Halts .fuel (fun n => CTG_down env n c k d required ctg join) r := by
  refine .succ ?_
  simp only [CTG_down]
  refine .then_const (stops_is_init c) fun _ _ => .ite (fun _ => halts_pure _) fun _ => ?_
  refine .then_const (stops_is_inductive k c true) fun _ _ => .ite (fun _ => ?_) fun _ =>
    .ite (fun _ => halts_pure _) fun hno => absurd hd hno
  exact .then_const Exec.stops_lift fun _ _ => halts_pure _

/-- The loop goes once through the literals. -/
theorem halts_micLoop (v : CubeVar)
    (hdown : ∀ c required r, Exec.Halts .fuel (fun n => CTG_down env n c k d required 0 0) r)
    (tmp required : Cube) (failed : Nat) :
    Exec.Halts .fuel (fun n => micLoop env n v k d tmp required failed) r := by
  induction tmp generalizing required failed r with
  | nil =>
      refine .succ ?_
      simp only [micLoop]
      exact halts_pure _
  | cons l rest ih =>
      refine .succ ?_
      simp only [micLoop]
      refine .then_const Exec.stops_lift fun p r1 => .ite (fun _ => ih _ _) fun _ => ?_
      refine .then (hdown _ _ r1) (chain_CTG_down env _ _ _ _ _ _) (fun x n => ?_) fun x r2 => ?_
      · exact .ite (.bind (.refl _) fun _ => chain_micLoop env _ _ _ _ _ _ n)
          (.ite (.refl _) (chain_micLoop env _ _ _ _ _ _ n))
      · exact .ite (fun _ => .then_const Exec.stops_modify fun _ _ => ih _ _) fun _ =>
          .ite (fun _ => halts_pure _) fun _ => ih _ _

theorem halts_mic (v : CubeVar)
    (hdown : ∀ c required r, Exec.Halts .fuel (fun n => CTG_down env n c k d required 0 0) r) :
    Exec.Halts .fuel (fun n => mic env n v k d) r := by
  refine .succ ?_
  simp only [mic]
  exact .then_const Exec.stops_lift fun _ _ => .then_const Exec.stops_lift fun _ _ =>
    .then_const Exec.stops_modify fun _ _ => halts_micLoop v hdown _ _ _

theorem ctgBlocked_tries (ct k : Nat) (c : Cube) :
    (ctgBlocked env ct k c).Wp (fun b _ => b = true → ct < option_ctg_tries) (fun _ => True) r := by
  unfold ctgBlocked
  rw [Exec.wp_ite]
  refine ⟨fun h => ?_, fun _ => Bool.noConfusion⟩
  exact Exec.wp_skip fun _ _ => (Exec.wp_run _ _).mono (fun _ _ _ _ => h.1) fun _ h => h

/-- The rounds that block a counterexample to generalisation are followed by a join after at most three
of them, and there are at most `option_max_joins` joins. -/
theorem halts_CTG_down (hmic : ∀ k r, Exec.Halts .fuel (fun n => mic env n .core k (d + 1)) r)
    (c required : Cube) (ctg join : Nat) :
    Exec.Halts .fuel (fun n => CTG_down env n c k d required ctg join) r := by
  induction hm : 4 * (option_max_joins - join) + (option_ctg_tries - ctg) using Nat.strong_induction_on
    generalizing c ctg join r with
  | _ m ih =>
  refine .succ ?_
  simp only [CTG_down]
  refine .then_const (stops_is_init c) fun _ _ => .ite (fun _ => halts_pure _) fun _ => ?_
  refine .then_const (stops_is_inductive k c true) fun _ _ => .ite (fun _ => ?_) fun _ =>
    .ite (fun _ => halts_pure _) fun _ => ?_
  · exact .then_const Exec.stops_lift fun _ _ => halts_pure _
  refine .then_const Exec.stops_lift fun s _ => .then_const Exec.stops_lift fun succ _ => ?_
  refine .then_const (stops_extract k s (some succ) k (by simp)) fun _ _ => ?_
  refine .then_const Exec.stops_lift fun p r1 => ?_
  refine .bind_const (stops_ctgBlocked _ _ _) (ctgBlocked_tries ctg k _) fun b r2 hb =>
    .ite (fun hb' => ?_) fun _ => .ite (fun hj => ?_) fun _ => halts_pure _
  · have hlt := hb hb'
    refine .then_const Exec.stops_lift fun p r3 => .then_const (stops_pushLevel _ _ _) fun i r4 => ?_
    refine .then (hmic (i - 1) r4) (chain_mic env _ _ _) (fun _ n => ?_) fun _ r5 => ?_
    · exact .bind (.refl _) fun _ => chain_CTG_down env _ _ _ _ _ _ n
    · refine .then_const (stops_add_cube _ _ _ _) fun _ r6 => ?_
      exact ih _ (by unfold option_ctg_tries at *; omega) c (ctg + 1) join rfl
  · refine .ite (fun _ => halts_pure _) fun _ => ?_
    exact ih _ (by unfold option_ctg_tries at *; omega) _ 0 (join + 1) rfl

theorem halts_generalize (k : Nat) (r : Run) : Exec.Halts .fuel (fun n => generalize env n k) r := by
  refine halts_mic .tmp_core fun c required r => halts_CTG_down (fun k r => ?_) c required 0 0
  exact halts_mic .core fun c required r => halts_CTG_down_deep (by decide) c required 0 0

end Halts

end ModelChecker
