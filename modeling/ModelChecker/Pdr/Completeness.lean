import ModelChecker.Sat.Preprocess
import ModelChecker.Pdr.Assertion
import ModelChecker.Pdr.Convergence
import ModelChecker.Pdr.Lemmas.Clock
import ModelChecker.Pdr.Termination

/-!
# Completeness of `PDR::check`

At every depth the main loop finds and blocks finitely many states, since each of them takes a state out
of the top level. So a run returns, or it goes on to the next depth; and a depth as large as the length of
a counterexample is never entered.
-/

namespace ModelChecker

open Logic

variable {A : Circuit} {env : PdrEnv} {r r' : Run}

/-- A verdict is never taken back. -/
def Sticky (RESULT : Nat → Int) : Prop := ∀ t t', t ≤ t' → RESULT t ≠ 0 → RESULT t' ≠ 0

/-! ## One state -/

theorem CtiAt.returns (hc : Consistent A env.minisat) {s : Nat} (h : CtiAt env A s r) :
    ∃ N b r', ∀ fuel, N ≤ fuel → rec_block_cube env fuel r = (.ok b, r') := by
  obtain ⟨_, hsearch, _, _⟩ := h.searching
  obtain ⟨N, hN, hst⟩ := hsearch.halts.stable (chain_rec_block_cube env)
  cases hrun : rec_block_cube env N r with
  | mk res r' =>
      cases res with
      | error e =>
          have he := asserts_rec_block_cube hc hsearch N e (by rw [hrun])
          subst he
          exact absurd (by rw [hrun]) hN
      | ok b => exact ⟨N, b, r', fun fuel hfuel => by rw [hst fuel hfuel, hrun]⟩

theorem CtiAt.blocked {s fuel : Nat} (h : CtiAt env A s r)
    (hb : rec_block_cube env fuel r = (.ok true, r')) :
    (r'.pdr.obligation_queue = [] ∧
      ∃ j, r.pdr.depth ≤ j ∧ ∃ c ∈ (r'.pdr.frame j).cubes, c ⊆ (r.pdr.state s).latches) ∨
    ∃ r1 : Run, env.RESULT r1.clock ≠ 0 ∧ r' = r1.tick := by
  obtain ⟨hs, hsearch, _, _⟩ := h.searching
  obtain ⟨hD, hb0⟩ := h.blocking
  obtain ⟨r1, hr, ⟨hq, rfl⟩ | hend⟩ := (rec_block_cube_rounds fuel).run_ok hb rfl
  · obtain ⟨_, _, hb1⟩ := hsearch.blocking hD hs hb0 hr
    refine .inl ⟨hq, hb1.root.resolve_left fun hroot => ?_⟩
    rw [hq] at hroot
    cases hroot
  · exact .inr ⟨r1, hend⟩

/-! ## The head of the loop -/

theorem AtHead.queue (hst : Sticky env.RESULT) (h : AtHead env A r) (hR : env.RESULT r.clock = 0) :
    r.pdr.obligation_queue = [] := by
  cases h with
  | enter h => exact (Entered.first h).frontier.queue
  | extended h hR hc hs hp => exact (Entered.next h hR hc hs hp).frontier.queue
  | blocked h hb =>
      obtain ⟨s, r1, fuel, hR1, hc, hrec⟩ := hb
      rcases CtiAt.blocked ⟨_, r1, h, hR1, hc, rfl⟩ hrec with ⟨hq, _⟩ | ⟨r2, hne, rfl⟩
      · exact hq
      · exact absurd hR (hst _ _ (Nat.le_succ _) hne)

theorem AtHead.levelsSize_lt (hst : Sticky env.RESULT) (h : AtHead env A r) (hr : CtiRound env r r')
    (hR' : env.RESULT r'.clock = 0) : levelsSize A r'.pdr < levelsSize A r.pdr := by
  have hL := h.loopInv
  have hL' := hL.ctiRound hr
  have ht := hL.tightens hr h
  obtain ⟨s, r1, fuel, hR, hc, hrec⟩ := hr
  obtain ⟨_, hI⟩ := hL.inv
  obtain ⟨_, hI'⟩ := hL'.inv
  have hlen := hL.len
  obtain ⟨w, hw, hex⟩ := h.findCti hc
  have hdep : (r1.startBlocking s).pdr.depth = r.pdr.depth := by
    obtain ⟨_, hev, _⟩ := (findCti_spec hI.tick (by rw [tick_pdr]; omega)).run_ok hc
    exact hev.depth
  rcases CtiAt.blocked ⟨_, r1, h, hR, hc, rfl⟩ hrec with ⟨_, j, hj, c, hcj, hsub⟩ | ⟨r2, hne, rfl⟩
  · refine ModelChecker.levelsSize_lt ht hI.shape hI'.shape (by unfold PDR.depth; omega) hex fun hno => ?_
    exact hno j (hdep ▸ hj) c hcj fun l hl => hw l (hsub hl)
  · exact absurd hR' (hst _ _ (Nat.le_succ _) hne)

/-- With enough fuel, the main loop returns from `r`. -/
def Returns (env : PdrEnv) (r : Run) : Prop :=
  ∃ N v r', ∀ fuel, N ≤ fuel → mainLoop env fuel r = (.ok v, r')

theorem returns_of_set (hR : env.RESULT r.clock ≠ 0) : Returns env r := by
  refine ⟨1, 0, r.tick, fun fuel hfuel => ?_⟩
  obtain ⟨fuel, rfl⟩ := Nat.exists_eq_add_of_le hfuel
  rw [Nat.add_comm, mainLoop_set hR]

theorem mainLoop_cti {r1 : Run} {s : Nat} (hR : env.RESULT r.clock = 0)
    (hc : findCti env r.tick = (.ok (some s), r1)) (fuel : Nat) :
    mainLoop env (fuel + 1) r = (rec_block_cube env fuel >>= fun b => if b then mainLoop env fuel else do
      reportCex env
      pure 10) (r1.startBlocking s) := by
  have hread : readRESULT env r = (.ok (env.RESULT r.clock), r.tick) := rfl
  have hstart : (Exec.modify (·.startBlocking s) : PdrM Unit) r1 = (.ok (), r1.startBlocking s) := rfl
  rw [mainLoop_succ, Exec.run_bind_ok hread, if_neg (not_not.mpr hR), Exec.run_bind_ok hc]
  dsimp only
  rw [Exec.run_bind_ok hstart]

theorem returns_of_cex {r1 : Run} {s N : Nat} (hR : env.RESULT r.clock = 0)
    (hc : findCti env r.tick = (.ok (some s), r1))
    (hb : ∀ fuel, N ≤ fuel → rec_block_cube env fuel (r1.startBlocking s) = (.ok false, r')) :
    Returns env r := by
  refine ⟨N + 1, 10, (reportCex env r').2, fun fuel hfuel => ?_⟩
  obtain ⟨fuel, rfl⟩ := Nat.exists_eq_add_of_le hfuel
  rw [show N + 1 + fuel = N + fuel + 1 by omega, mainLoop_cti hR hc,
    Exec.run_bind_ok (hb (N + fuel) (by omega))]
  rfl

theorem stops_findCti : (findCti env).Stops (· ≠ .fuel) r := by
  unfold findCti get_pre_of_bad askBad
  refine Exec.stops_lift.then fun _ _ => Exec.Stops.then ?_ fun _ _ => Exec.stops_pure
  refine Exec.stops_modify.then fun _ _ => Exec.Stops.then ?_ fun _ _ => Exec.stops_ite (fun _ => ?_)
    fun _ => Exec.stops_pure
  · exact Exec.stops_lift.then fun _ _ => Exec.stops_lift.then fun _ _ => Exec.stops_modify.then
      fun _ _ => Exec.stops_modify.then fun _ _ => Exec.stops_pure
  · exact Exec.stops_lift.then fun _ _ => Exec.stops_lift.then fun _ _ =>
      (stops_extract _ _ _ _ (by simp)).then fun _ _ => Exec.stops_modify.then fun _ _ => Exec.stops_pure

theorem AtHead.exists_cti (hc : Consistent A env.minisat) (h : AtHead env A r) :
    ∃ o r1, ModelChecker.findCti env r.tick = (.ok o, r1) := by
  obtain ⟨n, hI⟩ := h.loopInv.inv
  have hlen := h.loopInv.len
  obtain ⟨hI0, hev0⟩ := hI.tick.pushState {} (by rintro _ ⟨⟩)
  have hfuel : (ModelChecker.findCti env).Stops OutOfFuel r.tick := by
    unfold ModelChecker.findCti
    rw [stops_newState]
    refine (asserts_get_pre_of_bad hc hI0 ?_ hI.size).then fun _ _ => Exec.stops_pure
    rw [hev0.len]
    show 2 ≤ r.pdr.frames.length
    omega
  have hstops : (ModelChecker.findCti env).Stops (fun _ => False) r.tick :=
    fun e he => stops_findCti e he (hfuel e he)
  exact hstops.exists_ok

theorem AtHead.exists_strengthen (hst : Sticky env.RESULT) (h : AtHead env A r) {r1 : Run}
    (hR : env.RESULT r.clock = 0) (hc : ModelChecker.findCti env r.tick = (.ok none, r1)) :
    ∃ b r2, strengthen env r1 = (.ok b, r2) := by
  have hsame : SameCubes r.tick r1 := (stable_findCti r.tick).run_ok hc
  have hq0 : r.pdr.obligation_queue = [] := h.queue hst hR
  have hq : r1.pdr.obligation_queue = [] := hsame.queue.trans hq0
  have heq : strengthen env r1 = propagate env r1 := by
    show (if r1.pdr.obligation_queue.length ≠ 0 then Exec.throw .obligations else propagate env) r1 = _
    rw [if_neg (by rw [hq]; exact fun hne => hne rfl)]
  have hstops : (propagate env).Stops (fun _ => False) r1 := stops_propagate
  obtain ⟨b, r2, hrun⟩ := hstops.exists_ok
  exact ⟨b, r2, heq.trans hrun⟩

theorem AtHead.exists_pushFrame (h : AtHead env A r) {r1 r2 : Run}
    (hc : ModelChecker.findCti env r.tick = (.ok none, r1)) (hs : strengthen env r1 = (.ok false, r2)) :
    ∃ r3, pushFrame env r2 = (.ok (), r3) ∧ r3.pdr.depth = r.pdr.depth + 1 := by
  obtain ⟨n, hI⟩ := h.loopInv.inv
  have hlen := h.loopInv.len
  obtain ⟨hI1, hev1, hbad, _⟩ := (findCti_spec hI.tick (by rw [tick_pdr]; omega)).run_ok hc
  have hlen1 : r1.pdr.frames.length = r.pdr.frames.length := hev1.len
  obtain ⟨_, hev2, _⟩ := ((strengthen_spec hI1 (by omega) (hev1.earliest h.loopInv.earliest)
    (hbad rfl)).run_ok hs).1 rfl
  have hlen2 := hev2.len
  obtain ⟨r3, hp, _, hd3, _⟩ := Frontier.push env (by omega) (hev2.queue.trans (strengthen_queue hs))
  refine ⟨r3, hp, ?_⟩
  rw [hd3, hev2.depth]
  unfold PDR.depth
  rw [hlen1]

/-- A round without a state: the run returns, or the next depth is entered. -/
theorem AtHead.none_found (hst : Sticky env.RESULT) (h : AtHead env A r) {r1 : Run}
    (hR : env.RESULT r.clock = 0) (hc : ModelChecker.findCti env r.tick = (.ok none, r1)) :
    Returns env r ∨ ∃ r', AtHead env A r' ∧ r'.pdr.depth = r.pdr.depth + 1 := by
  obtain ⟨b, r2, hs⟩ := h.exists_strengthen hst hR hc
  cases b with
  | true =>
      refine .inl ⟨1, 20, r2, fun fuel hfuel => ?_⟩
      obtain ⟨fuel, rfl⟩ := Nat.exists_eq_add_of_le hfuel
      rw [Nat.add_comm, mainLoop_none hR hc hs]
      rfl
  | false =>
      obtain ⟨r3, hp, hd⟩ := h.exists_pushFrame hc hs
      exact .inr ⟨r3, .extended h hR hc hs hp, hd⟩

theorem AtHead.stops (hc : Consistent A env.minisat) (hst : Sticky env.RESULT) (h : AtHead env A r)
    (fuel : Nat) : (mainLoop env fuel).Stops OutOfFuel r := by
  induction fuel generalizing r with
  | zero => exact Exec.stops_throw rfl
  | succ fuel ih =>
      by_cases hR : env.RESULT r.clock = 0
      · obtain ⟨o, r1, hcti⟩ := h.exists_cti hc
        cases o with
        | none =>
            obtain ⟨b, r2, hs⟩ := h.exists_strengthen hst hR hcti
            intro e he
            rw [mainLoop_none hR hcti hs] at he
            cases b with
            | true => cases he
            | false =>
                have hstep : ((pushFrame env) >>= fun _ => mainLoop env fuel).Stops OutOfFuel r2 :=
                  stops_pushFrame.bind (Exec.wp_run _ _) fun _ r3 hp => ih (.extended h hR hcti hs hp)
                exact hstep e he
        | some s =>
            have hcti' : CtiAt env A s (r1.startBlocking s) := ⟨r, r1, h, hR, hcti, rfl⟩
            obtain ⟨_, hsearch, _, _⟩ := hcti'.searching
            have hrest : (rec_block_cube env fuel >>= fun b => if b then mainLoop env fuel else do
                reportCex env
                pure 10).Stops OutOfFuel (r1.startBlocking s) := by
              refine (asserts_rec_block_cube hc hsearch fuel).bind (Exec.wp_run _ _) fun b r2 hb =>
                Exec.stops_ite (fun hgo => ?_) fun _ => ?_
              · subst hgo
                exact ih (.blocked h ⟨s, r1, fuel, hR, hcti, hb⟩)
              · unfold reportCex
                exact (Exec.stops_lift.then fun _ _ => Exec.stops_modify).then fun _ _ => Exec.stops_pure
            intro e he
            rw [mainLoop_cti hR hcti] at he
            exact hrest e he
      · intro e he
        rw [mainLoop_set hR] at he
        cases he

/-- Finitely many states are found at one depth. -/
theorem AtHead.progress (hc : Consistent A env.minisat) (hst : Sticky env.RESULT) (h : AtHead env A r) :
    Returns env r ∨ ∃ r', AtHead env A r' ∧ r'.pdr.depth = r.pdr.depth + 1 := by
  induction hM : levelsSize A r.pdr using Nat.strong_induction_on generalizing r with
  | h M ih =>
      by_cases hR : env.RESULT r.clock = 0
      · obtain ⟨o, r1, hcti⟩ := h.exists_cti hc
        cases o with
        | none => exact h.none_found hst hR hcti
        | some s =>
            obtain ⟨N, b, r', hrec⟩ := CtiAt.returns hc ⟨r, r1, h, hR, hcti, rfl⟩
            cases b with
            | false => exact .inl (returns_of_cex hR hcti hrec)
            | true =>
                have hround : CtiRound env r r' := ⟨s, r1, N, hR, hcti, hrec N le_rfl⟩
                have h' : AtHead env A r' := .blocked h hround
                have hd : r'.pdr.depth = r.pdr.depth := (h.loopInv.tightens hround h).depth
                -- the levels got smaller, or another thread was first
                have hnext : Returns env r' ∨ ∃ r'', AtHead env A r'' ∧ r''.pdr.depth = r'.pdr.depth + 1 := by
                  by_cases hR' : env.RESULT r'.clock = 0
                  · exact ih _ (hM ▸ h.levelsSize_lt hst hround hR') h' rfl
                  · exact .inl (returns_of_set hR')
                rw [hd] at hnext
                refine hnext.imp ?_ id
                rintro ⟨N', v, r'', hrun⟩
                refine ⟨max N N' + 1, v, r'', fun fuel hfuel => ?_⟩
                obtain ⟨fuel, rfl⟩ := Nat.exists_eq_add_of_le hfuel
                have hle := le_max_left N N'
                have hle' := le_max_right N N'
                rw [show max N N' + 1 + fuel = max N N' + fuel + 1 by omega,
                  mainLoop_some hR hcti (hrec _ (by omega)), hrun _ (by omega)]
      · exact .inl (returns_of_set hR)

/-! ## The theorems -/

theorem Asserted.of_atHead (hc : Asserted A env.minisat) (h : AtHead env A r) : Consistent A env.minisat := by
  obtain ⟨n, hI⟩ := h.loopInv.inv
  refine hc.resolve_right ?_
  rintro ⟨w, hi, hcons, hbad⟩
  exact hI.reach.init_not_bad w hi hcons hbad

/-- With enough fuel, `check` returns. -/
def CheckReturns (env : PdrEnv) (A : Circuit) : Prop :=
  ∃ N v r, ∀ fuel, N ≤ fuel → runCheck env A fuel = (.ok v, r)

theorem AtHead.checkReturns (h : AtHead env A r) (hr : Returns env r) : CheckReturns env A := by
  obtain ⟨N, v, r', hrun⟩ := hr
  obtain ⟨j, N', hcheck⟩ := h.check
  refine ⟨max N N' + j, v, r', fun fuel hfuel => ?_⟩
  obtain ⟨fuel, rfl⟩ := Nat.exists_eq_add_of_le hfuel
  have hle := le_max_left N N'
  have hle' := le_max_right N N'
  unfold runCheck
  rw [show max N N' + j + fuel = max N N' + fuel + j by omega, hcheck _ (by omega), hrun _ (by omega)]

theorem prologue_depth (A : Circuit) (env : PdrEnv) :
    (prologue env).Wp (fun b r' => b = true → r'.pdr.depth = 1) (HistGood A env.minisat)
      { pdr := { circuit := A.toAiger } } := by
  unfold prologue
  rw [Exec.wp_bind]
  refine initializePdr_eq ?_
  refine check_BMC0_spec.bind fun b r1 h1 => ?_
  cases b with
  | false => exact fun hb => by cases hb
  | true =>
      obtain ⟨hI, hlen, hq, hcex⟩ := h1.1 rfl
      refine (check_BMC1_spec hI hlen hcex).bind fun b r2 h2 => ?_
      cases b with
      | false => exact fun hb => by cases hb
      | true =>
          obtain ⟨_, hlen2, hq2, _⟩ := h2.1 rfl
          obtain ⟨r3, hrun, _, hd, _⟩ := Frontier.push env (by omega) (hq2.trans hq)
          simp only [Bool.not_true, Bool.false_eq_true, if_false, Exec.wp_bind]
          unfold Exec.Wp
          rw [hrun]
          intro _
          have hd2 : r2.pdr.depth = 0 := by
            unfold PDR.depth
            omega
          omega

theorem AtHead.depth_le_clock (h : AtHead env A r) : r.pdr.depth ≤ r.clock + 1 := by
  have hread : env.reading env.RESULT = env := rfl
  have hcti : Timed (ModelChecker.findCti env) :=
    (timed_newState _).bind fun s => (timed_get_pre_of_bad s).bind fun _ => .pure _
  have hstr : Timed (strengthen env) := timed_getP.bind fun p => .ite (.throw _)
    (timed_getP.bind fun _ => hread ▸ (@inOrder_propagateLevels env _ _).grows env.RESULT)
  have hrec : ∀ fuel, Timed (rec_block_cube env fuel) := fun fuel =>
    hread ▸ (@inOrder_rec_block_cube env fuel).grows env.RESULT
  induction h with
  | enter h =>
      rw [(prologue_depth A env).run_ok h rfl]
      exact Nat.le_add_left _ _
  | @blocked r r' h hb ih =>
      rw [(h.loopInv.tightens hb h).depth]
      obtain ⟨s, r1, fuel, _, hc, hb⟩ := hb
      have h1 := hcti r.tick
      have h2 := hrec fuel (r1.startBlocking s)
      rw [hc] at h1
      rw [hb] at h2
      have h1' : r.clock + 1 ≤ r1.clock := h1
      have h2' : r1.clock ≤ r'.clock := h2
      omega
  | @extended r r1 r2 r3 h _ hc hs hp ih =>
      obtain ⟨r3', hp', hd⟩ := h.exists_pushFrame hc hs
      rw [hp] at hp'
      cases hp'
      have h1 := hcti r.tick
      have h2 := hstr r1
      have h3 := @timed_pushFrame env r2
      rw [hc] at h1
      rw [hs] at h2
      rw [hp] at h3
      have h1' : r.clock + 1 ≤ r1.clock := h1
      have h2' : r1.clock ≤ r2.clock := h2
      have h3' : r2.clock ≤ r3.clock := h3
      omega

/-- `check` returns 0 only when another thread was first. -/
theorem check_zero {fuel : Nat} (h : runCheck env A fuel = (.ok 0, r)) : ∃ t, env.RESULT t ≠ 0 := by
  have hloop : ∀ fuel r, (mainLoop env fuel).Wp (fun v _ => v = 0 → ∃ t, env.RESULT t ≠ 0) (fun _ => True) r := by
    intro fuel
    induction fuel with
    | zero => exact fun _ => trivial
    | succ fuel ih =>
        intro r
        rw [mainLoop_succ, Exec.wp_bind, wp_readRESULT, Exec.wp_ite]
        refine ⟨fun hR _ => ⟨_, hR⟩, fun _ => Exec.wp_skip fun cti r1 => ?_⟩
        cases cti with
        | some s =>
            refine Exec.wp_skip fun _ r2 => Exec.wp_skip fun b r3 => Exec.wp_ite.mpr ⟨fun _ => ih r3, fun _ => ?_⟩
            exact Exec.wp_skip fun _ _ h => absurd h (by decide)
        | none =>
            refine Exec.wp_skip fun b r2 => Exec.wp_ite.mpr ⟨fun _ h => absurd h (by decide), fun _ => ?_⟩
            exact Exec.wp_skip fun _ r3 => ih r3
  have hcheck : (check env fuel).Wp (fun v _ => v = 0 → ∃ t, env.RESULT t ≠ 0) (fun _ => True)
      { pdr := { circuit := A.toAiger } } := by
    rw [check_eq]
    refine Exec.wp_skip fun b r1 => Exec.wp_ite.mpr ⟨fun _ => hloop fuel r1, fun _ => ?_⟩
    exact Exec.wp_skip fun _ _ h => absurd h (by decide)
  exact hcheck.run_ok h rfl

/-- The two bounded checks find a counterexample, or depth 1 is entered. -/
theorem checkReturns_or_enter (A : Circuit) (env : PdrEnv) :
    CheckReturns env A ∨ ∃ r, AtHead env A r ∧ r.pdr.depth = 1 := by
  have hstops : (prologue env).Stops (fun _ => False) { pdr := { circuit := A.toAiger } } := stops_prologue
  obtain ⟨b, r, hrun⟩ := hstops.exists_ok
  cases b with
  | false =>
      refine .inl ⟨0, 10, (reportCex env r).2, fun fuel _ => ?_⟩
      rw [runCheck, check_eq, Exec.run_bind_ok hrun]
      rfl
  | true => exact .inr ⟨r, .enter hrun, (prologue_depth A env).run_ok hrun rfl⟩

theorem checkReturns_or_deeper (hc : Asserted A env.minisat) (hst : Sticky env.RESULT) :
    CheckReturns env A ∨ ∀ D, 1 ≤ D → ∃ r, AtHead env A r ∧ r.pdr.depth = D := by
  by_cases hret : CheckReturns env A
  · exact .inl hret
  refine .inr fun D hD => ?_
  induction D, hD using Nat.le_induction with
  | base => exact (checkReturns_or_enter A env).resolve_left hret
  | succ D _ ih =>
      obtain ⟨r, h, hd⟩ := ih
      rcases h.progress (hc.of_atHead h) hst with hr | ⟨r', h', hd'⟩
      · exact absurd (h.checkReturns hr) hret
      · exact ⟨r', h', by omega⟩

theorem checkReturns_of_set (hc : Asserted A env.minisat) (hst : Sticky env.RESULT)
    (hset : ∃ t, env.RESULT t ≠ 0) : CheckReturns env A := by
  refine (checkReturns_or_deeper hc hst).elim id fun hall => ?_
  obtain ⟨t, ht⟩ := hset
  obtain ⟨r, h, hd⟩ := hall (t + 1) (by omega)
  have hle := h.depth_le_clock
  exact h.checkReturns (returns_of_set (hst t r.clock (by omega) ht))

theorem stops_check (hc : Asserted A env.minisat) (hst : Sticky env.RESULT) (fuel : Nat) :
    (check env fuel).Stops OutOfFuel { pdr := { circuit := A.toAiger } } := by
  rw [check_eq]
  refine stops_prologue.bind (Exec.wp_run _ _) fun b r hrun => Exec.stops_ite (fun hb => ?_) fun _ => ?_
  · subst hb
    have h : AtHead env A r := .enter hrun
    exact h.stops (hc.of_atHead h) hst fuel
  · unfold reportCex
    exact (Exec.stops_lift.then fun _ _ => Exec.stops_modify).then fun _ _ => Exec.stops_pure

/-- A run that meets the condition of the lift query fails no assertion, and it ends when `RESULT` is
set. Otherwise it returns or enters every depth: it does not stay at one of them. -/
theorem check_progress (A : Circuit) (env : PdrEnv) (hc : Asserted A env.minisat)
    (hst : Sticky env.RESULT) :
    (∀ fuel e, (runCheck env A fuel).1 = .error e → e = .fuel) ∧
      ((∃ t, env.RESULT t ≠ 0) → CheckReturns env A) ∧
      (CheckReturns env A ∨ ∀ D, 1 ≤ D → ∃ r, AtHead env A r ∧ r.pdr.depth = D) :=
  ⟨fun fuel => stops_check hc hst fuel, checkReturns_of_set hc hst, checkReturns_or_deeper hc hst⟩

/-- The run on `stuck`. -/
theorem check_progress_stuck : CheckReturns (Sample.envOf Sample.stuckAnswers) Sample.stuck ∨
    ∀ D, 1 ≤ D → ∃ r, AtHead (Sample.envOf Sample.stuckAnswers) Sample.stuck r ∧ r.pdr.depth = D := by
  refine (check_progress Sample.stuck (Sample.envOf Sample.stuckAnswers) ?_ ?_).2.2
  · refine .inl (.inl ⟨fun _ => false, by rintro l ⟨⟩, ?_⟩)
    show ¬ Sample.stuck.val (fun _ => false) 3 = true
    decide
  · exact fun _ _ _ h => absurd rfl h

theorem asserted_of_nil (E : Eliminator) (hA : A.constraints = []) : Asserted A E := by
  by_cases h : ∃ w, ¬ A.system.Bad w
  · obtain ⟨w, hw⟩ := h
    exact .inl (.inl ⟨w, cons_of_nil hA w, hw⟩)
  · obtain ⟨w, hw⟩ := exists_init A
    exact .inr ⟨w, hw, cons_of_nil hA w, not_not.mp fun hb => h ⟨w, hb⟩⟩

theorem AtHead.depth_lt (hA : A.constraints = []) (h : AtHead env A r) {n : Nat} {w : Nat → Assignment}
    (ht : A.system.Trace n w) (hb : A.system.Bad (w n)) : r.pdr.depth < n := by
  obtain ⟨m, hI⟩ := h.loopInv.inv
  have hlen := h.loopInv.len
  by_contra hle
  refine (hI.reach.sound (cons_of_nil hA)).noBad (w n) ⟨n, ?_, ht.reachIn le_rfl⟩ hb
  have hbound : (r.pdr.abs r.blocked).bound = max 1 r.pdr.depth := by
    show (if r.pdr.frames.length = 1 then 0 else max 1 (r.pdr.frames.length - 2)) = _
    rw [if_neg (by omega)]
    rfl
  rw [hbound]
  omega

theorem checkReturns_of_cex (hA : A.constraints = []) (hst : Sticky env.RESULT) {n : Nat}
    {w : Nat → Assignment} (ht : A.system.Trace n w) (hb : A.system.Bad (w n)) : CheckReturns env A := by
  refine (checkReturns_or_deeper (asserted_of_nil _ hA) hst).resolve_right fun hall => ?_
  obtain ⟨r, h, hd⟩ := hall (n + 1) (by omega)
  have := h.depth_lt hA ht hb
  omega

theorem Result.safe (hA : A.constraints = []) (h : Result A env 20 r) : A.system.Safe := by
  obtain ⟨x, _, hx⟩ := h.fixpoint rfl
  have hempty : x.engine.cubes x.level = ∅ := by
    ext c
    simp [PDR.cubes, hx.empty]
  have hblocked := (hx.reach.sound (cons_of_nil hA)).blocked
  exact hx.reach.safe hblocked hx.one_le hx.le_depth hempty hx.badFree

/-- Without constraints, a circuit with a counterexample of `n` transitions is found unsafe before the
depth is `n`, unless another thread is first. -/
theorem check_finds_cex (A : Circuit) (env : PdrEnv) (hA : A.constraints = []) (hst : Sticky env.RESULT)
    {n : Nat} {w : Nat → Assignment} (ht : A.system.Trace n w) (hb : A.system.Bad (w n)) :
    (∀ r, AtHead env A r → r.pdr.depth < n) ∧
      ∃ N v r, (∀ fuel, N ≤ fuel → runCheck env A fuel = (.ok v, r)) ∧
        (v = 10 ∨ v = 0 ∧ ∃ t, env.RESULT t ≠ 0) := by
  refine ⟨fun r h => h.depth_lt hA ht hb, ?_⟩
  obtain ⟨N, v, r, hrun⟩ := checkReturns_of_cex hA hst ht hb
  refine ⟨N, v, r, hrun, ?_⟩
  have hres := run_result A env N (hrun N le_rfl)
  rcases hres.cases with h0 | h10 | h20
  · subst h0
    exact .inr ⟨rfl, check_zero (hrun N le_rfl)⟩
  · exact .inl h10
  · subst h20
    exact absurd hb (hres.safe hA n w ht)

namespace Sample

/-- The latches of `chain` become true one after the other. -/
def chainTrace (t : Nat) : Assignment := fun v => decide (v = 2 ∧ 1 ≤ t ∨ v = 3 ∧ 2 ≤ t)

theorem chain_trace : chain.system.Trace 2 chainTrace := by
  refine ⟨?_, fun i hi => ?_, fun i _ => cons_of_nil rfl _⟩
  · show ∀ l ∈ [-2, -3], litVal (chainTrace 0) l = true
    decide
  · show ∀ j, j < 2 → chainTrace (i + 1) (2 + j) = chain.val (chainTrace i) (chain.nexts.getD j 1)
    interval_cases i <;> decide

end Sample

/-- The counterexample of `chain` has two transitions. -/
theorem check_finds_cex_chain : ∃ N r, ∀ fuel, N ≤ fuel →
    runCheck (Sample.envOf Sample.chainAnswers) Sample.chain fuel = (.ok 10, r) := by
  obtain ⟨_, N, v, r, hrun, hv⟩ := check_finds_cex Sample.chain (Sample.envOf Sample.chainAnswers) rfl
    (fun _ _ _ h => absurd rfl h) Sample.chain_trace (by show Sample.chain.val _ 4 = true; decide)
  obtain rfl : v = 10 := by
    refine hv.resolve_right ?_
    rintro ⟨_, t, ht⟩
    exact ht rfl
  exact ⟨N, r, hrun⟩

/-- `check` alone, with whatever Minisat's preprocessor does in its solvers: no assertion fails, it returns 10
if and only if the circuit is not safe, and 20 only if it is safe. -/
theorem check_preprocessed (A : Circuit) (hA : A.constraints = [])
    (run : Nat → List Nat → Cnf → Minisat.SimpSolver)
    (hrun : ∀ n frozen F, Minisat.SimpSolver.Run n frozen F (run n frozen F)) (env : PdrEnv) :
    (∀ fuel e, (runCheck { env with minisat := .ofRuns run hrun, RESULT := fun _ => 0 } A fuel).1 = .error e →
      e = .fuel) ∧
    ((∃ N r, ∀ fuel, N ≤ fuel →
      runCheck { env with minisat := .ofRuns run hrun, RESULT := fun _ => 0 } A fuel = (.ok 10, r)) ↔
        ¬ A.system.Safe) ∧
    ∀ fuel r, runCheck { env with minisat := .ofRuns run hrun, RESULT := fun _ => 0 } A fuel = (.ok 20, r) →
      A.system.Safe := by
  generalize hE : ({ env with minisat := .ofRuns run hrun, RESULT := fun _ => 0 } : PdrEnv) = E
  have hzero : ∀ t, E.RESULT t = 0 := fun t => hE ▸ rfl
  have hst : Sticky E.RESULT := fun t _ _ h => absurd (hzero t) h
  refine ⟨fun fuel => stops_check (asserted_of_nil _ hA) hst fuel, ⟨?_, ?_⟩, ?_⟩
  · rintro ⟨N, r, hN⟩
    exact ((run_result A E N (hN N le_rfl)).cex rfl hA).not_safe hA
  · intro hns
    unfold Logic.System.Safe at hns
    push Not at hns
    obtain ⟨n, w, ht, hb⟩ := hns
    obtain ⟨N, v, r, hN⟩ := checkReturns_of_cex hA hst ht hb
    have hres := run_result A E N (hN N le_rfl)
    rcases hres.cases with rfl | rfl | rfl
    · obtain ⟨t, h0⟩ := check_zero (hN N le_rfl)
      exact absurd (hzero t) h0
    · exact ⟨N, r, hN⟩
    · exact absurd hb (hres.safe hA n w ht)
  · exact fun fuel r h => (run_result A E fuel h).safe hA

/-- The counterexample of `chain` is found also then. -/
theorem check_preprocessed_chain : ∃ (run : Nat → List Nat → Cnf → Minisat.SimpSolver)
    (hrun : ∀ n frozen F, Minisat.SimpSolver.Run n frozen F (run n frozen F)) (N : Nat) (r : Run),
    ∀ fuel, N ≤ fuel → runCheck { Sample.envOf Sample.chainAnswers with
      minisat := .ofRuns run hrun, RESULT := fun _ => 0 } Sample.chain fuel = (.ok 10, r) := by
  choose run hrun using Minisat.SimpSolver.exists_run
  obtain ⟨_, hiff, _⟩ := check_preprocessed Sample.chain rfl run hrun (Sample.envOf Sample.chainAnswers)
  refine ⟨run, hrun, hiff.mpr fun hsafe => ?_⟩
  exact hsafe 2 Sample.chainTrace Sample.chain_trace (by show Sample.chain.val _ 4 = true; decide)

end ModelChecker
