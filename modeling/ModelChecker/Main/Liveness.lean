import ModelChecker.Logic.Fair
import ModelChecker.Main.Session

/-!
# Sessions end

Along a fair run of a session, whose steps have room, every BMC thread returns after its last frame. A PDR
thread returns when the circuit has a counterexample, or when `RESULT` is set: the values it reads in an
endless run would be the values of a run of `check` that ends.
-/

namespace ModelChecker

open Logic

/-! ## The run of a PDR thread -/

section Thread

variable {A : Circuit} {env : PdrEnv} {reads : List Int}

theorem readValue_lt {t : Nat} (ht : t < reads.length) : readValue reads t = reads.getD t 0 := by
  unfold readValue
  rw [min_eq_left (by omega)]

/-- The thread is at the end of `check`, if a run with the values it has read ends now. -/
theorem CheckEnds.of_run {ρ : Nat → Int} {fuel : Nat} {v : Int} {r : Run}
    (hrun : runCheck (env.reading ρ) A fuel = (.ok v, r)) (hlen : reads.length = r.clock)
    (hag : ∀ t, t < reads.length → reads.getD t 0 = ρ t) : CheckEnds env A reads (.ok v) := by
  refine ⟨fun h => (by cases h), fuel, r, runCheck_reading hrun fun t ht => ?_, hlen.symm⟩
  rw [readValue_lt (by omega), hag t (by omega)]

theorem PdrTick.not_returned {R : Int} {x y : PdrThread} {o : Int × Bool} (h : PdrTick env A R x y o) (v : Int) :
    x.stage ≠ .returned v := by
  cases h with
  | _ => exact PdrStage.noConfusion

theorem PdrTick.stage_of_proved {R : Int} {x y : PdrThread} {o : Int × Bool} (h : PdrTick env A R x y o)
    (hx : x.stage = .proved) : y.stage = .returned 20 := by
  cases h with
  | finish => rfl
  | _ => cases hx

/-- A thread in `check` stays there, or its clock goes on to the end. -/
theorem PdrTick.reads_eq {R : Int} {x y : PdrThread} {o : Int × Bool} (h : PdrTick env A R x y o)
    (hx : x.stage = .running) : y.reads = x.reads ++ [R] := by
  cases h with
  | finish => cases hx
  | _ => rfl

theorem PdrTick.reads_extend {R : Int} {x y : PdrThread} {o : Int × Bool} (h : PdrTick env A R x y o) :
    x.reads <+: y.reads := by
  cases h with
  | finish => exact List.prefix_rfl
  | _ => exact List.prefix_append _ _

end Thread

namespace Session

variable {S : Session} {f : Nat → Shared}

/-! ## Runs -/

/-- An infinite run of the session, from its start, with room for all steps. -/
structure Runs (S : Session) (f : Nat → Shared) : Prop where
  start : f 0 = S.start
  run : IsRun (S.StepIn S.Room) f

/-- The PDR thread has returned. -/
def PdrDone (i : Nat) (s : Shared) : Prop := ∃ v, (s.pdr i).stage = .returned v

/-- The BMC thread has returned. -/
def BmcDone (i : Nat) (s : Shared) : Prop := ∃ v, (s.bmc i).phase = .returned v

theorem Runs.ok (hA : 0 < S.pdr_thread → S.circuit.constraints = []) (h : S.Runs f) (n : Nat) : S.Ok (f n) :=
  h.run.invariant (by rw [h.start]; exact ok_start S) (fun _ _ _ hok hs => (hok.step hA hs).1) n

theorem Runs.keeps (hA : 0 < S.pdr_thread → S.circuit.constraints = []) (h : S.Runs f) {m n : Nat} (hmn : m ≤ n)
    (hR : (f m).RESULT ≠ 0) : (f n).RESULT = (f m).RESULT := by
  refine h.run.related (R := fun s s' => s.RESULT ≠ 0 → s'.RESULT = s.RESULT) (fun _ _ => rfl)
    (fun s s' s'' h1 h2 hne => ?_) (fun k e he => ((h.ok hA k).step hA he).2) hmn hR
  rw [h2 (by rw [h1 hne]; exact hne), h1 hne]

theorem Step.pdr_cases {e : ThreadId} {s s' : Shared} (h : S.Step e s s') (i : Nat) :
    s'.pdr i = s.pdr i ∧ e ≠ .pdr i ∨
      e = .pdr i ∧ ∃ o, PdrTick (S.env i) S.circuit s.RESULT (s.pdr i) (s'.pdr i) o := by
  cases h with
  | @pdr _ j x o hj ht =>
      by_cases he : i = j
      · subst he
        refine .inr ⟨rfl, o, ?_⟩
        simpa using ht
      · exact .inl ⟨Function.update_of_ne he _ _, fun h => he (by cases h; rfl)⟩
  | _ => exact .inl ⟨rfl, ThreadId.noConfusion⟩

theorem Step.bmc_of_ne {e : ThreadId} {s s' : Shared} (h : S.Step e s s') {i : Nat} (he : e ≠ .bmc i) :
    s'.bmc i = s.bmc i ∧ s'.draw.slot i = s.draw.slot i := by
  cases h with
  | pdr => exact ⟨rfl, rfl⟩
  | load =>
      have hne : i ≠ _ := fun h => he (h ▸ rfl)
      exact ⟨rfl, Function.update_of_ne hne _ _⟩
  | store =>
      have hne : i ≠ _ := fun h => he (h ▸ rfl)
      exact ⟨Function.update_of_ne hne _ _, Function.update_of_ne hne _ _⟩
  | bmc =>
      have hne : i ≠ _ := fun h => he (h ▸ rfl)
      exact ⟨Function.update_of_ne hne _ _, rfl⟩

theorem Runs.pdrDone (h : S.Runs f) {i m n : Nat} (hmn : m ≤ n) (hd : PdrDone i (f m)) : PdrDone i (f n) := by
  refine h.run.related (R := fun s s' => PdrDone i s → PdrDone i s') (fun _ h => h)
    (fun _ _ _ h1 h2 hd => h2 (h1 hd)) (fun k e he hd => ?_) hmn hd
  obtain ⟨v, hv⟩ := hd
  rcases he.2.pdr_cases i with ⟨heq, _⟩ | ⟨_, o, ht⟩
  · exact ⟨v, by rw [heq]; exact hv⟩
  · exact absurd hv (ht.not_returned v)

/-! ## BMC threads -/

/-- The steps a thread may still take. -/
def stepsLeft (nframes : Nat) (x : Thread) : Nat :=
  match x.phase with
  | .head => 3 * (nframes + 2 - x.bmc.bmc_frame_k) + 2
  | .solving => 3 * (nframes + 2 - x.bmc.bmc_frame_k) + 1
  | .found => 1
  | .returned _ => 0
  | .undefined => 0

theorem stepsLeft_lt {B : BmcConfig} {R : Int} {x : Thread} (h : ThreadOk B R x)
    (hx : ∀ v, x.phase ≠ .returned v) (hdef : x.phase ≠ .undefined) (S : Ipasir) (t : Nat)
    (terminated : Bool) :
    stepsLeft B.nframes (B.threadStep S t terminated R x).1 < stepsLeft B.nframes x := by
  obtain ⟨phase, b⟩ := x
  cases phase with
  | head =>
      simp only [BmcConfig.threadStep, stepsLeft]
      by_cases hn : B.nframes < b.bmc_frame_k
      · rw [if_pos hn]
        exact Nat.succ_pos _
      · rw [if_neg hn]
        by_cases hR : R ≠ 0
        · rw [if_pos hR]
          exact Nat.succ_pos _
        · rw [if_neg hR]
          cases B.unfold b.toUnfolding with
          | none => exact Nat.succ_pos _
          | some u => exact Nat.lt_succ_self _
  | solving =>
      obtain ⟨k, hs, _⟩ := h
      have ho := hs.outcome S t terminated
      have hfr := hs.frame
      have hbd := hs.bound
      simp only at hs hfr
      have hfr' := ho.rest.1
      simp only at hfr'
      simp only [BmcConfig.threadStep, stepsLeft]
      generalize B.solve_one_frame S t terminated b = r at ho hfr'
      by_cases h10 : r.1 = 10
      · rw [if_pos h10]
        simp only
        omega
      · rw [if_neg h10]
        split_ifs
        · exact Nat.succ_pos _
        · exact Nat.succ_pos _
        · simp only
          omega
  | found =>
      simp only [BmcConfig.threadStep, stepsLeft]
      exact Nat.one_pos
  | returned v => exact absurd rfl (hx v)
  | undefined => exact absurd rfl hdef

/-- Those of a BMC thread, the drawing of its index included. -/
def bmcLeft (S : Session) (i : Nat) (s : Shared) : Nat := stepsLeft S.nframes (s.bmc i) + (s.draw.slot i).left

theorem Ok.bmcLeft_lt {s s' : Shared} (h : S.Ok s) {i : Nat} (hs : S.Step (.bmc i) s s') (hd : ¬ BmcDone i s) :
    S.bmcLeft i s' < S.bmcLeft i s := by
  cases hs with
  | load hi hw =>
      unfold bmcLeft
      simp only [Tickets.load, Function.update_self, hw, Slot.left]
      omega
  | @store _ _ index hi hl =>
      -- the thread has done nothing yet
      have hwait := (h.bmc i hi).waiting (by rw [hl]; rfl)
      have hleft : ∀ j, stepsLeft S.nframes (S.config S.bmc_thread j).startThread = 3 * (S.nframes + 1) + 2 :=
        fun _ => rfl
      unfold bmcLeft
      simp only [Tickets.store, Function.update_self, hl, hwait, hleft, Slot.left]
      omega
  | @bmc _ _ index t terminated hi hdraw hterm =>
      have hb := h.bmc i hi
      have hlt := stepsLeft_lt (hb.thread index hdraw) (fun v hv => hd ⟨v, hv⟩) hb.defined (S.solver i) t terminated
      unfold bmcLeft
      simp only [Function.update_self]
      exact Nat.add_lt_add_right hlt _

theorem Ok.bmcDone_step {s s' : Shared} (h : S.Ok s) {e : ThreadId} (hs : S.Step e s s') {i : Nat}
    (hd : BmcDone i s) : s'.bmc i = s.bmc i ∧ s'.draw.slot i = s.draw.slot i := by
  by_cases he : e = .bmc i
  · subst he
    obtain ⟨v, hv⟩ := hd
    cases hs with
    | load hi hw =>
        obtain ⟨_, hd, _⟩ := (h.bmc i hi).drawn hv
        rw [hw] at hd
        cases hd
    | store hi hl =>
        obtain ⟨_, hd, _⟩ := (h.bmc i hi).drawn hv
        rw [hl] at hd
        cases hd
    | bmc hi hdraw hterm =>
        refine ⟨?_, rfl⟩
        simp only [Function.update_self, BmcConfig.threadStep, hv]
  · exact hs.bmc_of_ne he

theorem Runs.bmcDone (hA : 0 < S.pdr_thread → S.circuit.constraints = []) (h : S.Runs f) {i m n : Nat}
    (hmn : m ≤ n) (hd : BmcDone i (f m)) : BmcDone i (f n) := by
  refine h.run.related (R := fun s s' => BmcDone i s → BmcDone i s') (fun _ h => h)
    (fun _ _ _ h1 h2 hd => h2 (h1 hd)) (fun k e he hd => ?_) hmn hd
  have heq := ((h.ok hA k).bmcDone_step he.2 hd).1
  obtain ⟨v, hv⟩ := hd
  exact ⟨v, by rw [heq]; exact hv⟩

theorem Runs.bmc_returns (hA : 0 < S.pdr_thread → S.circuit.constraints = []) (h : S.Runs f) {i : Nat}
    (hfair : Fair (S.StepIn S.Room) (.bmc i) (BmcDone i) f) : ∃ n, BmcDone i (f n) := by
  refine hfair.eventually_done (S.bmcLeft i) (fun n => ?_) fun n hd hs => (h.ok hA n).bmcLeft_lt hs.2 hd
  rcases h.run n with heq | ⟨e, he⟩
  · rw [heq]
  · have hsame : (f (n + 1)).bmc i = (f n).bmc i ∧ (f (n + 1)).draw.slot i = (f n).draw.slot i →
        S.bmcLeft i (f (n + 1)) = S.bmcLeft i (f n) := by
      rintro ⟨h1, h2⟩
      unfold bmcLeft
      rw [h1, h2]
    by_cases hd : BmcDone i (f n)
    · exact (hsame ((h.ok hA n).bmcDone_step he.2 hd)).le
    · by_cases hb : e = .bmc i
      · subst hb
        exact ((h.ok hA n).bmcLeft_lt he.2 hd).le
      · exact (hsame (he.2.bmc_of_ne hb)).le

/-! ## PDR threads -/

section Endless

variable (hA : 0 < S.pdr_thread → S.circuit.constraints = []) (h : S.Runs f) {i : Nat} (hi : i < S.pdr_thread)

include h in
theorem Runs.reads_extend {m n : Nat} (hmn : m ≤ n) : ((f m).pdr i).reads <+: ((f n).pdr i).reads := by
  refine h.run.related (R := fun s s' => (s.pdr i).reads <+: (s'.pdr i).reads) (fun _ => List.prefix_rfl)
    (fun _ _ _ h1 h2 => h1.trans h2) (fun k e he => ?_) hmn
  rcases he.2.pdr_cases i with ⟨heq, _⟩ | ⟨_, o, ht⟩
  · rw [heq]
  · exact ht.reads_extend

include h in
/-- Two times at which the thread has read the value at `t` agree about it. -/
theorem Runs.reads_agree {m n t : Nat} (hm : t < ((f m).pdr i).reads.length)
    (hn : t < ((f n).pdr i).reads.length) :
    ((f m).pdr i).reads.getD t 0 = ((f n).pdr i).reads.getD t 0 := by
  have key : ∀ {m n}, m ≤ n → t < ((f m).pdr i).reads.length →
      ((f m).pdr i).reads.getD t 0 = ((f n).pdr i).reads.getD t 0 := by
    intro m n hmn hm
    obtain ⟨rest, heq⟩ := h.reads_extend (i := i) hmn
    rw [← heq, List.getD_append _ _ _ _ hm]
  rcases le_total m n with hmn | hmn
  · exact key hmn hm
  · exact (key hmn hn).symm

include h in
/-- Between the two assignments of 20 a fair thread does not stay. -/
theorem Runs.not_proved (hfair : Fair (S.StepIn S.Room) (.pdr i) (PdrDone i) f) (hno : ∀ n, ¬ PdrDone i (f n)) (n : Nat) :
    ((f n).pdr i).stage ≠ .proved := by
  intro hp
  have hstep : ∀ m e, ((f m).pdr i).stage = .proved → S.StepIn S.Room e (f m) (f (m + 1)) →
      (f (m + 1)).pdr i = (f m).pdr i ∧ e ≠ .pdr i := by
    intro m e hpm he
    refine (he.2.pdr_cases i).resolve_right ?_
    rintro ⟨_, o, ht⟩
    exact hno (m + 1) ⟨20, ht.stage_of_proved hpm⟩
  have hstay : ∀ m, n ≤ m → ((f m).pdr i).stage = .proved := by
    intro m hm
    induction m, hm using Nat.le_induction with
    | base => exact hp
    | succ m _ ih =>
        rcases h.run m with heq | ⟨e, he⟩
        · rw [heq]
          exact ih
        · rw [(hstep m e ih he).1]
          exact ih
  obtain ⟨m, hm, hd | hs⟩ := hfair n
  · exact hno m hd
  · exact (hstep m _ (hstay m hm) hs).2 rfl

include hA h hi

theorem Runs.running (hfair : Fair (S.StepIn S.Room) (.pdr i) (PdrDone i) f) (hno : ∀ n, ¬ PdrDone i (f n)) (n : Nat) :
    ((f n).pdr i).stage = .running := by
  cases hst : ((f n).pdr i).stage with
  | running => rfl
  | proved => exact absurd hst (h.not_proved hfair hno n)
  | returned v => exact absurd ⟨v, hst⟩ (hno n)
  | aborted => exact absurd hst ((h.ok hA n).pdr i hi).aborted

theorem Runs.exists_oracle (hfair : Fair (S.StepIn S.Room) (.pdr i) (PdrDone i) f) (hno : ∀ n, ¬ PdrDone i (f n)) :
    ∃ ρ : Nat → Int, Sticky ρ ∧ ((∃ n, (f n).RESULT ≠ 0) → ∃ t, ρ t ≠ 0) ∧
      ∀ c, ∃ n, ((f n).pdr i).reads.length = c ∧ ∀ t, t < c → ((f n).pdr i).reads.getD t 0 = ρ t := by
  have hrunning := h.running hA hi hfair hno
  have hown : ∀ n, S.StepIn S.Room (.pdr i) (f n) (f (n + 1)) →
      ((f (n + 1)).pdr i).reads = ((f n).pdr i).reads ++ [(f n).RESULT] := by
    intro n hs
    rcases hs.2.pdr_cases i with ⟨_, hne⟩ | ⟨_, o, ht⟩
    · exact absurd rfl hne
    · exact ht.reads_eq (hrunning n)
  have hlen : ∀ c, ∃ n, ((f n).pdr i).reads.length = c := by
    refine hfair.eventually_eq hno (fun s => (s.pdr i).reads.length) (by rw [h.start]; rfl) (fun n => ?_)
      fun n hs => ?_
    · rcases h.run n with heq | ⟨e, he⟩
      · rw [heq]
        exact ⟨le_rfl, Nat.le_succ _⟩
      · rcases he.2.pdr_cases i with ⟨heq, _⟩ | ⟨_, o, ht⟩
        · simp only [heq]
          exact ⟨le_rfl, Nat.le_succ _⟩
        · simp only [ht.reads_eq (hrunning n), List.length_append, List.length_singleton]
          exact ⟨Nat.le_succ _, le_rfl⟩
    · simp only [hown n hs, List.length_append, List.length_singleton]
      exact Nat.lt_succ_self _
  choose g hg using hlen
  have hval : ∀ n t, t < ((f n).pdr i).reads.length →
      ((f n).pdr i).reads.getD t 0 = ((f (g (t + 1))).pdr i).reads.getD t 0 :=
    fun n t ht => h.reads_agree ht (by rw [hg]; exact Nat.lt_succ_self t)
  refine ⟨fun t => ((f (g (t + 1))).pdr i).reads.getD t 0, fun t t' hle hne => ?_, ?_, fun c => ?_⟩
  · -- both values are among those read until `t'`
    have hst := ((h.ok hA (g (t' + 1))).pdr i hi).sticky
    have hlt' : t' < ((f (g (t' + 1))).pdr i).reads.length := by rw [hg]; exact Nat.lt_succ_self t'
    have hlt : t < ((f (g (t' + 1))).pdr i).reads.length := by omega
    simp only [← hval _ t hlt] at hne
    simp only [List.getD_eq_getElem?_getD, List.getElem?_eq_getElem hlt, List.getElem?_eq_getElem hlt',
      Option.getD_some] at hne ⊢
    rcases Nat.lt_or_ge t t' with hlt2 | hge
    · exact List.pairwise_iff_getElem.mp hst _ _ hlt hlt' hlt2 hne
    · obtain rfl : t = t' := by omega
      exact hne
  · rintro ⟨n, hR⟩
    obtain ⟨m, hm, hd | hs⟩ := hfair n
    · exact absurd hd (hno m)
    · refine ⟨((f m).pdr i).reads.length, ?_⟩
      have hread := hown m hs
      have hlt : ((f m).pdr i).reads.length < ((f (m + 1)).pdr i).reads.length := by
        rw [hread, List.length_append]
        exact Nat.lt_succ_self _
      have hv := hval (m + 1) _ hlt
      rw [hread, List.getD_append_right _ _ _ _ le_rfl, Nat.sub_self] at hv
      simp only [← hv]
      rw [show [(f m).RESULT].getD 0 0 = (f m).RESULT from rfl, h.keeps hA hm hR]
      exact hR
  · exact ⟨g c, hg c, fun t ht => hval _ t (by rw [hg]; exact ht)⟩

/-- A PDR thread that is treated fairly returns, if the circuit has a counterexample or `RESULT` is set. -/
theorem Runs.pdr_returns (hfair : Fair (S.StepIn S.Room) (.pdr i) (PdrDone i) f)
    (hx : ¬ S.circuit.system.Safe ∨ ∃ n, (f n).RESULT ≠ 0) : ∃ n, PdrDone i (f n) := by
  by_contra hnone
  have hno : ∀ n, ¬ PdrDone i (f n) := fun n hd => hnone ⟨n, hd⟩
  obtain ⟨ρ, hst, hset, hlen⟩ := h.exists_oracle hA hi hfair hno
  have hret : CheckReturns ((S.env i).reading ρ) S.circuit := by
    rcases hx with hx | hx
    · unfold System.Safe at hx
      push Not at hx
      obtain ⟨n, w, ht, hb⟩ := hx
      exact checkReturns_of_cex (hA (by omega)) hst ht hb
    · exact checkReturns_of_set (asserted_of_nil _ (hA (by omega))) hst (hset hx)
  obtain ⟨N, v, r, hrun⟩ := hret
  have hrun := hrun N le_rfl
  have hpos := runCheck_clock hrun
  -- at the time the run ends, the thread would have ended
  obtain ⟨n, hn, hag⟩ := hlen r.clock
  refine ((h.ok hA n).pdr i hi).running (h.running hA hi hfair hno n) ?_ (.ok v)
    (CheckEnds.of_run hrun hn fun t ht => hag t (by omega))
  intro hnil
  rw [hnil] at hn
  simp at hn
  omega

end Endless

/-- If all threads are treated fairly, all of them return. -/
theorem Runs.joined (hA : 0 < S.pdr_thread → S.circuit.constraints = []) (h : S.Runs f)
    (hpdr : ∀ i, i < S.pdr_thread → Fair (S.StepIn S.Room) (.pdr i) (PdrDone i) f)
    (hbmc : ∀ i, i < S.bmc_thread → Fair (S.StepIn S.Room) (.bmc i) (BmcDone i) f)
    (hx : S.pdr_thread = 0 ∨ ¬ S.circuit.system.Safe ∨ ∃ n, (f n).RESULT ≠ 0) :
    ∃ N, ∀ n, N ≤ n → S.Joined (f n) := by
  obtain ⟨N1, h1⟩ := exists_all_of_eventually (P := fun i n => PdrDone i (f n))
    (fun i m n hmn hd => h.pdrDone hmn hd) S.pdr_thread fun i hi => by
      refine h.pdr_returns hA hi (hpdr i hi) (hx.resolve_left fun h0 => ?_)
      rw [h0] at hi
      exact Nat.not_lt_zero i hi
  obtain ⟨N2, h2⟩ := exists_all_of_eventually (P := fun i n => BmcDone i (f n))
    (fun i m n hmn hd => h.bmcDone hA hmn hd) S.bmc_thread fun i hi => h.bmc_returns hA (hbmc i hi)
  refine ⟨max N1 N2, fun n hn => ⟨fun i hi => ?_, fun i hi => ?_⟩⟩
  · exact h.pdrDone ((le_max_left N1 N2).trans hn) (h1 i hi)
  · exact h.bmcDone hA ((le_max_right N1 N2).trans hn) (h2 i hi)

end Session

/-! ## The theorem -/

/-- In every fair session whose steps have room, with constraints only if there are no PDR threads: all threads
return if there are no PDR threads, if the circuit is not safe, or if some thread sets `RESULT`. A session with
a PDR thread on a circuit that is not safe ends with 10. -/
theorem session_ends (S : Session) (hA : 0 < S.pdr_thread → S.circuit.constraints = []) {f : Nat → Shared}
    (h : S.Runs f)
    (hpdr : ∀ i, i < S.pdr_thread → Fair (S.StepIn S.Room) (.pdr i) (Session.PdrDone i) f)
    (hbmc : ∀ i, i < S.bmc_thread → Fair (S.StepIn S.Room) (.bmc i) (Session.BmcDone i) f)
    (hx : S.pdr_thread = 0 ∨ ¬ S.circuit.system.Safe ∨ ∃ n, (f n).RESULT ≠ 0) :
    ∃ N, ∀ n, N ≤ n → S.Joined (f n) ∧
      (0 < S.pdr_thread → ¬ S.circuit.system.Safe → (f n).RESULT = 10) := by
  obtain ⟨N, hN⟩ := h.joined hA hpdr hbmc hx
  refine ⟨N, fun n hn => ⟨hN n hn, fun hp hn' => ?_⟩⟩
  exact (((h.ok hA n).decided (hN n hn) hp).1).mpr hn'

/-- A run of the session on `pulse`. -/
theorem session_ends_pulse : ∃ f, Sample.pulseSession.Runs f ∧ ∃ N, ∀ n, N ≤ n →
    Sample.pulseSession.Joined (f n) := by
  obtain ⟨s, hs, h10, hj⟩ := Sample.pulseSession_ends
  obtain ⟨f, h0, hrun, M, hM⟩ := exists_isRun hs
  refine ⟨f, ⟨h0, hrun⟩, ?_⟩
  obtain ⟨N, hN⟩ := session_ends Sample.pulseSession (fun _ => rfl) ⟨h0, hrun⟩
    (fun i hi => fair_of_done hM (hj.1 i hi)) (fun i hi => fair_of_done hM (hj.2 i hi))
    (.inr (.inr ⟨M, by rw [hM M le_rfl, h10]; decide⟩))
  exact ⟨N, fun n hn => (hN n hn).1⟩

end ModelChecker
