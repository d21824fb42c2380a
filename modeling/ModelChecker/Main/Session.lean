import ModelChecker.Bmc.Theorems
import ModelChecker.Logic.Fair
import ModelChecker.Logic.Tickets
import ModelChecker.Main.Verdict
import ModelChecker.Pdr.Completeness

/-!
# The threads of one session

`main` starts PDR and BMC threads that share `RESULT`. A BMC thread draws its index from the counter
`current_bmc_execution` and takes the steps of `threadStep`. A PDR thread runs `check`; it is given by the
values of `RESULT` at the times of its clock, on which its run depends and nothing else does. Every order of
the steps is a session.
-/

namespace ModelChecker

open Logic

/-! ## PDR threads -/

/-- A thread is in `check`, between the two assignments of 20 to `RESULT`, or at its end. -/
inductive PdrStage where
  | running
  | proved
  | returned (res : Int)
  | aborted
deriving DecidableEq, Repr

/-- A PDR thread with the values of `RESULT` at the times of its clock. -/
structure PdrThread where
  stage : PdrStage := .running
  reads : List Int := []

/-- The values a run reads; the last one is there to stay. -/
def readValue (reads : List Int) (t : Nat) : Int := reads.getD (min t (reads.length - 1)) 0

/-- `check` ends at the last of these times. -/
def CheckEnds (env : PdrEnv) (A : Circuit) (reads : List Int) (res : Except Stop Int) : Prop :=
  res ≠ .error .fuel ∧ ∃ fuel r, runCheck (env.reading (readValue reads)) A fuel = (res, r) ∧
    r.clock = reads.length

/-- The next step of a thread: the thread and `RESULT` after it, and whether a witness is printed. -/
inductive PdrTick (env : PdrEnv) (A : Circuit) (R : Int) : PdrThread → PdrThread → Int × Bool → Prop
  | work {reads : List Int} (h : ∀ res, ¬ CheckEnds env A (reads ++ [R]) res) :
      PdrTick env A R ⟨.running, reads⟩ ⟨.running, reads ++ [R]⟩ (R, false)
  | stop {reads : List Int} (h : CheckEnds env A (reads ++ [R]) (.ok 0)) :
      PdrTick env A R ⟨.running, reads⟩ ⟨.returned 0, reads ++ [R]⟩ (R, false)
  | cex {reads : List Int} (h : CheckEnds env A (reads ++ [R]) (.ok 10)) :
      PdrTick env A R ⟨.running, reads⟩ ⟨.returned 10, reads ++ [R]⟩ (publishCex env.output_witness R)
  | fixpoint {reads : List Int} (h : CheckEnds env A (reads ++ [R]) (.ok 20)) :
      PdrTick env A R ⟨.running, reads⟩ ⟨.proved, reads ++ [R]⟩ (if R ≠ 0 then R else 20, false)
  | abort {reads : List Int} {e : Stop} (h : CheckEnds env A (reads ++ [R]) (.error e)) :
      PdrTick env A R ⟨.running, reads⟩ ⟨.aborted, reads ++ [R]⟩ (R, false)
  | finish {reads : List Int} : PdrTick env A R ⟨.proved, reads⟩ ⟨.returned 20, reads⟩ (20, false)

/-! ## Sessions -/

/-- What `main` fixes before it starts the threads: the circuit with its property, how many threads there
are, and what each of them uses. -/
structure Session extends Portfolio where
  bad_eq : circuit.bad = circuit.allbad.get ⟨propertyIndex, property_lt⟩
  pdr_thread : Nat
  bmc_thread : Nat
  env : Nat → PdrEnv
  solver : Nat → Ipasir
  output_witness : Bool

/-- The threads, `RESULT`, the counter for the indices of the BMC threads, and the number of witnesses printed
so far. -/
structure Shared where
  RESULT : Int := 0
  pdr : Nat → PdrThread := fun _ => {}
  bmc : Nat → Thread
  draw : Tickets Nat := {}
  witnesses : Nat := 0

/-- Which thread takes a step. -/
inductive ThreadId where
  | pdr (i : Nat)
  | bmc (i : Nat)
deriving DecidableEq, Repr

namespace Session

variable (S : Session)

def start : Shared := { bmc := fun _ => (S.config S.bmc_thread 0).startThread }

/-- A witness is printed when this step publishes a counterexample. -/
def bmcPrints (s : Shared) (i : Nat) : Bool :=
  (s.bmc i).phase = .found && s.RESULT = 0 && S.output_witness

/-- A step of one thread. A BMC thread increments `current_bmc_execution`, which is not atomic, and then makes
its `BMC` object; it is stopped only after `RESULT` was set. -/
inductive Step : ThreadId → Shared → Shared → Prop
  | pdr {s : Shared} {i : Nat} {x : PdrThread} {o : Int × Bool} (hi : i < S.pdr_thread)
      (h : PdrTick (S.env i) S.circuit s.RESULT (s.pdr i) x o) :
      Step (.pdr i) s { s with
        RESULT := o.1
        pdr := Function.update s.pdr i x
        witnesses := if o.2 then s.witnesses + 1 else s.witnesses }
  | load {s : Shared} {i : Nat} (hi : i < S.bmc_thread) (hw : s.draw.slot i = .waiting) :
      Step (.bmc i) s { s with draw := s.draw.load i }
  | store {s : Shared} {i index : Nat} (hi : i < S.bmc_thread) (hl : s.draw.slot i = .loaded index) :
      Step (.bmc i) s { s with
        draw := s.draw.store i index
        bmc := Function.update s.bmc i (S.config S.bmc_thread index).startThread }
  | bmc {s : Shared} {i index t : Nat} {terminated : Bool} (hi : i < S.bmc_thread)
      (hdraw : s.draw.slot i = .drawn index) (hterm : terminated = true → s.RESULT ≠ 0) :
      Step (.bmc i) s { s with
        RESULT := ((S.config S.bmc_thread index).threadStep (S.solver i) t terminated s.RESULT (s.bmc i)).2
        bmc := Function.update s.bmc i
          ((S.config S.bmc_thread index).threadStep (S.solver i) t terminated s.RESULT (s.bmc i)).1
        witnesses := if S.bmcPrints s i then s.witnesses + 1 else s.witnesses }

/-- The steps before which `ok` holds of the thread that takes them. -/
def StepIn (ok : ThreadId → Shared → Prop) (e : ThreadId) (s s' : Shared) : Prop := ok e s ∧ S.Step e s s'

/-- Any number of them. -/
def Steps (ok : ThreadId → Shared → Prop) : Shared → Shared → Prop :=
  Relation.ReflTransGen fun s s' => ∃ e, S.StepIn ok e s s'

/-- A BMC thread has room for its step. -/
def Room : ThreadId → Shared → Prop
  | .pdr _, _ => True
  | .bmc i, s => ∀ index, s.draw.slot i = .drawn index →
      (S.config S.bmc_thread index).Room s.RESULT (s.bmc i)

/-- The circuit has a counterexample of `k` steps. -/
def HasCex (k : Nat) : Prop := (S.config S.bmc_thread 0).HasCex k

/-- A BMC thread has drawn an index with which it looks at a frame that violates the property for the first
time. -/
def Finds (s : Shared) : Prop := ∃ i, i < S.bmc_thread ∧ ∃ index, s.draw.slot i = .drawn index ∧
  (S.config S.bmc_thread index).Finds

end Session

/-! ## What the engines find -/

section Engines

variable {A : Circuit} {env : PdrEnv} {reads : List Int}

/-- Once `RESULT` was set, all later values are. -/
def StickyReads (reads : List Int) : Prop := reads.Pairwise fun a b => a ≠ 0 → b ≠ 0

theorem readValue_eq (h : reads ≠ []) (t : Nat) : ∃ hi : min t (reads.length - 1) < reads.length,
    readValue reads t = reads.get ⟨min t (reads.length - 1), hi⟩ := by
  have hpos := List.length_pos_of_ne_nil h
  have hi : min t (reads.length - 1) < reads.length := by omega
  refine ⟨hi, ?_⟩
  unfold readValue
  rw [List.getD_eq_getElem?_getD, List.getElem?_eq_getElem hi]
  rfl

/-- A value that was set is one of those that were read. -/
theorem exists_mem_of_readValue {t : Nat} (h : readValue reads t ≠ 0) : ∃ v ∈ reads, v ≠ 0 := by
  have hne : reads ≠ [] := by
    rintro rfl
    exact h rfl
  obtain ⟨hi, heq⟩ := readValue_eq hne t
  exact ⟨_, List.get_mem _ _, heq ▸ h⟩

theorem StickyReads.sticky (h : StickyReads reads) : Sticky (readValue reads) := by
  intro t t' hle hne
  have hnil : reads ≠ [] := by
    rintro rfl
    exact hne rfl
  obtain ⟨hi, heq⟩ := readValue_eq hnil t
  obtain ⟨hi', heq'⟩ := readValue_eq hnil t'
  rw [heq] at hne
  rw [heq']
  rcases Nat.lt_or_ge (min t (reads.length - 1)) (min t' (reads.length - 1)) with hlt | hge
  · exact List.pairwise_iff_getElem.mp h _ _ hi hi' hlt hne
  · have hmin : min t' (reads.length - 1) = min t (reads.length - 1) := by omega
    simp only [List.get_eq_getElem, hmin]
    exact hne

theorem StickyReads.append {R : Int} (h : StickyReads reads) (hR : ∀ v ∈ reads, v ≠ 0 → R ≠ 0) :
    StickyReads (reads ++ [R]) := by
  refine List.pairwise_append.mpr ⟨h, List.pairwise_singleton _ _, fun a ha b hb => ?_⟩
  rw [List.mem_singleton.mp hb]
  exact hR a ha

section Nil

variable (hA : A.constraints = [])
include hA

theorem CheckEnds.not_safe (h : CheckEnds env A reads (.ok 10)) : ¬ A.system.Safe := by
  obtain ⟨_, fuel, r, hrun, _⟩ := h
  exact ((run_result A _ fuel hrun).cex rfl hA).not_safe hA

theorem CheckEnds.safe (h : CheckEnds env A reads (.ok 20)) : A.system.Safe := by
  obtain ⟨_, fuel, r, hrun, _⟩ := h
  exact (run_result A _ fuel hrun).safe hA

/-- Without constraints, no assertion of `check` fails. -/
theorem CheckEnds.not_error (hst : StickyReads reads) {e : Stop} : ¬ CheckEnds env A reads (.error e) := by
  rintro ⟨hne, fuel, r, hrun, _⟩
  have hstop := @stops_check A (env.reading (readValue reads)) (asserted_of_nil _ hA) hst.sticky fuel e
    (by rw [← runCheck, hrun])
  exact hne (by rw [hstop])

end Nil

/-- A thread that gives up has read that `RESULT` was set. -/
theorem CheckEnds.exists_set (h : CheckEnds env A reads (.ok 0)) : ∃ v ∈ reads, v ≠ 0 := by
  obtain ⟨_, fuel, r, hrun, _⟩ := h
  obtain ⟨t, ht⟩ := check_zero hrun
  exact exists_mem_of_readValue ht

theorem CheckEnds.cases {v : Int} (h : CheckEnds env A reads (.ok v)) : v = 0 ∨ v = 10 ∨ v = 20 := by
  obtain ⟨_, fuel, r, hrun, _⟩ := h
  exact (run_result A _ fuel hrun).cases

end Engines

/-! ## One step -/

/-- What a PDR thread keeps while `RESULT` is `R`. -/
structure PdrOk (env : PdrEnv) (A : Circuit) (R : Int) (x : PdrThread) : Prop where
  sticky : StickyReads x.reads
  set : ∀ v ∈ x.reads, v ≠ 0 → R ≠ 0
  running : x.stage = .running → x.reads ≠ [] → ∀ res, ¬ CheckEnds env A x.reads res
  proved : x.stage = .proved → A.system.Safe ∧ R ≠ 0
  returned : ∀ v, x.stage = .returned v → R ≠ 0
  aborted : x.stage ≠ .aborted

theorem PdrOk.mono {env : PdrEnv} {A : Circuit} {R R' : Int} {x : PdrThread} (h : PdrOk env A R x)
    (hR : R ≠ 0 → R' ≠ 0) : PdrOk env A R' x :=
  ⟨h.sticky, fun v hv hne => hR (h.set v hv hne), h.running, fun hp => ⟨(h.proved hp).1, hR (h.proved hp).2⟩,
    fun v hv => hR (h.returned v hv), h.aborted⟩

/-- `RESULT` is not set, or it is right about the circuit. -/
structure Right (A : Circuit) (R : Int) : Prop where
  values : R = 0 ∨ R = 10 ∨ R = 20
  cex : R = 10 → ¬ A.system.Safe
  safe : R = 20 → A.system.Safe

section Tick

variable {A : Circuit} {env : PdrEnv} {R : Int} {x y : PdrThread} {o : Int × Bool}

theorem PdrOk.read (h : PdrOk env A R x) {R' : Int} {st : PdrStage} (hR : R ≠ 0 → R' ≠ 0)
    (hrun : st = .running → ∀ res, ¬ CheckEnds env A (x.reads ++ [R]) res)
    (hproved : st = .proved → A.system.Safe ∧ R' ≠ 0) (hret : ∀ v, st = .returned v → R' ≠ 0)
    (habort : st ≠ .aborted) : PdrOk env A R' ⟨st, x.reads ++ [R]⟩ := by
  refine ⟨h.sticky.append h.set, fun v hv hne => ?_, fun hst _ => hrun hst, hproved, hret, habort⟩
  rcases List.mem_append.mp hv with hv | hv
  · exact hR (h.set v hv hne)
  · rw [List.mem_singleton.mp hv] at hne
    exact hR hne

/-- A step changes `RESULT` only if it was not set, and to the right value. -/
theorem PdrTick.spec (hA : A.constraints = []) (h : PdrOk env A R x) (hr : Right A R)
    (ht : PdrTick env A R x y o) : PdrOk env A o.1 y ∧
      (o = (R, false) ∨ R = 0 ∧ (o.1 = 10 ∧ ¬ A.system.Safe ∨ o = (20, false) ∧ A.system.Safe)) := by
  cases ht with
  | work hno => exact ⟨h.read id (fun _ => hno) (by simp) (by simp) (by simp), .inl rfl⟩
  | stop hend =>
      obtain ⟨v, hv, hne⟩ := hend.exists_set
      have hR : R ≠ 0 := by
        rcases List.mem_append.mp hv with hv | hv
        · exact h.set v hv hne
        · rwa [List.mem_singleton.mp hv] at hne
      exact ⟨h.read id (by simp) (by simp) (fun _ _ => hR) (by simp), .inl rfl⟩
  | cex hend =>
      rcases publishCex_cases env.output_witness R with ⟨heq, hR⟩ | ⟨h0, heq⟩
      · rw [heq]
        exact ⟨h.read id (by simp) (by simp) (fun _ _ => hR) (by simp), .inl rfl⟩
      · rw [heq]
        exact ⟨h.read (by simp) (by simp) (by simp) (by simp) (by simp),
          .inr ⟨h0, .inl ⟨rfl, hend.not_safe hA⟩⟩⟩
  | fixpoint hend =>
      by_cases h0 : R = 0
      · rw [if_neg (not_not.mpr h0)]
        exact ⟨h.read (by simp) (by simp) (fun _ => ⟨hend.safe hA, by simp⟩) (by simp) (by simp),
          .inr ⟨h0, .inr ⟨rfl, hend.safe hA⟩⟩⟩
      · rw [if_pos h0]
        exact ⟨h.read id (by simp) (fun _ => ⟨hend.safe hA, h0⟩) (by simp) (by simp), .inl rfl⟩
  | abort hend => exact absurd hend (CheckEnds.not_error hA (h.sticky.append h.set))
  | finish =>
      obtain ⟨hsafe, hR⟩ := h.proved rfl
      obtain rfl : R = 20 := by
        rcases hr.values with h0 | h10 | h20
        · exact absurd h0 hR
        · exact absurd hsafe (hr.cex h10)
        · exact h20
      exact ⟨⟨h.sticky, h.set, by simp, by simp, fun _ _ => hR, by simp⟩, .inl rfl⟩

end Tick

/-- A BMC thread that returns 10 leaves `RESULT` set. -/
theorem threadStep_returned {B : BmcConfig} {S : Ipasir} {t : Nat} {terminated : Bool} {R : Int} {x : Thread}
    (h : x.phase = .returned 10 → R ≠ 0)
    (h' : (B.threadStep S t terminated R x).1.phase = .returned 10) :
    (B.threadStep S t terminated R x).2 ≠ 0 := by
  obtain ⟨phase, b⟩ := x
  cases phase with
  | head =>
      unfold BmcConfig.threadStep at h'
      simp only at h'
      split at h'
      · cases h'
      · split at h'
        · cases h'
        · split at h' <;> cases h'
  | solving =>
      unfold BmcConfig.threadStep at h'
      simp only at h'
      split at h'
      · cases h'
      · split at h'
        · cases h'
        · split at h' <;> cases h'
  | found =>
      show (if R = 0 then (10 : Int) else R) ≠ 0
      split
      · decide
      · assumption
  | returned v => exact h h'
  | undefined => cases h'

/-- Only the block that publishes a counterexample changes `RESULT`. -/
theorem threadStep_result {B : BmcConfig} {S : Ipasir} {t : Nat} {terminated : Bool} {R : Int} {x : Thread}
    (h : x.phase ≠ .found) : (B.threadStep S t terminated R x).2 = R := by
  obtain ⟨phase, b⟩ := x
  cases phase with
  | head =>
      simp only [BmcConfig.threadStep]
      split_ifs
      · rfl
      · rfl
      · cases B.unfold b.toUnfolding <;> rfl
  | solving =>
      simp only [BmcConfig.threadStep]
      split_ifs <;> rfl
  | found => exact absurd rfl h
  | returned v => rfl
  | undefined => rfl

/-- What a BMC thread keeps while `RESULT` is `R`, once it has its index. -/
structure Working (B : BmcConfig) (R : Int) (x : Thread) : Prop where
  thread : ThreadOk B R x
  defined : x.phase ≠ .undefined
  found : x.phase = .returned 10 → R ≠ 0

/-- With room it goes on, and it publishes only a counterexample, if there is no verdict yet. -/
theorem Working.step {B : BmcConfig} {R : Int} {x : Thread} (h : Working B R x) (S : Ipasir) (t : Nat)
    {terminated : Bool} (hroom : B.Room R x) (hterm : terminated = true → R ≠ 0) {r : Thread × Int}
    (hr : r = B.threadStep S t terminated R x) :
    Working B r.2 r.1 ∧ (r.2 = R ∧ ¬ (x.phase = .found ∧ R = 0) ∨
      R = 0 ∧ r.2 = 10 ∧ x.phase = .found ∧ B.Finds) := by
  subst hr
  refine ⟨⟨(h.thread.step S t hterm hroom.1).1, h.thread.defined hroom h.defined S t terminated,
    threadStep_returned h.found⟩, ?_⟩
  by_cases hp : x.phase = .found ∧ R = 0
  · refine .inr ⟨hp.2, ?_, hp.1, ?_⟩
    · rw [BmcConfig.threadStep, hp.1]
      exact if_pos hp.2
    · have hx := h.thread
      unfold ThreadOk at hx
      rw [hp.1] at hx
      exact hx
  · refine .inl ⟨?_, hp⟩
    by_cases hf : x.phase = .found
    · rw [BmcConfig.threadStep, hf]
      exact if_neg fun h0 => hp ⟨hf, h0⟩
    · exact threadStep_result hf

namespace Session

variable {S : Session} {s s' : Shared}

/-- What a BMC thread keeps while `RESULT` is `R`; it has done nothing before it has its index. -/
structure BmcOk (S : Session) (R : Int) (d : Slot) (x : Thread) : Prop where
  thread : ∀ index, d = .drawn index → ThreadOk (S.config S.bmc_thread index) R x
  waiting : d.number = none → x = (S.config S.bmc_thread 0).startThread
  defined : x.phase ≠ .undefined
  found : x.phase = .returned 10 → R ≠ 0

theorem BmcOk.mono {R R' : Int} {d : Slot} {x : Thread} (h : S.BmcOk R d x) (hR : R ≠ 0 → R' ≠ 0) :
    S.BmcOk R' d x :=
  ⟨fun index hd => (h.thread index hd).mono hR, h.waiting, h.defined, fun hx => hR (h.found hx)⟩

theorem BmcOk.drawn {R v : Int} {d : Slot} {x : Thread} (h : S.BmcOk R d x) (hx : x.phase = .returned v) :
    ∃ index, d = .drawn index ∧ ThreadOk (S.config S.bmc_thread index) R x := by
  cases hd : d with
  | drawn index => exact ⟨index, rfl, h.thread index hd⟩
  | _ =>
      rw [h.waiting (by rw [hd]; rfl)] at hx
      cases hx

/-- What every session keeps. -/
structure Ok (S : Session) (s : Shared) : Prop where
  right : Right S.circuit s.RESULT
  bounded : s.RESULT = 10 → S.pdr_thread = 0 → S.Finds s
  byPdr : s.RESULT = 20 → S.pdr_thread ≠ 0
  witnesses : s.witnesses ≤ 1
  unset : s.RESULT = 0 → s.witnesses = 0
  pdr : ∀ i, i < S.pdr_thread → PdrOk (S.env i) S.circuit s.RESULT (s.pdr i)
  bmc : ∀ i, i < S.bmc_thread → S.BmcOk s.RESULT (s.draw.slot i) (s.bmc i)
  draw : s.draw.Ok (Finset.range S.bmc_thread)

theorem hasCex_iff {k : Nat} : S.HasCex k ↔ 1 ≤ k ∧ ∃ w, S.circuit.system.Trace (k - 1) w ∧
    S.circuit.system.Bad (w (k - 1)) := by
  unfold HasCex BmcConfig.HasCex Circuit.system
  rw [S.bad_eq]
  rfl

theorem not_safe_iff : ¬ S.circuit.system.Safe ↔ ∃ k, S.HasCex k := by
  constructor
  · intro h
    unfold System.Safe at h
    push Not at h
    obtain ⟨n, w, ht, hb⟩ := h
    exact ⟨n + 1, hasCex_iff.mpr ⟨by omega, w, ht, hb⟩⟩
  · rintro ⟨k, hk⟩ hsafe
    obtain ⟨_, w, ht, hb⟩ := hasCex_iff.mp hk
    exact hsafe _ w ht hb

theorem Finds.hasCex (h : S.Finds s) : ∃ k, k ≤ S.nframes ∧ S.HasCex k := by
  obtain ⟨_, _, index, _, k, hk, _, hf⟩ := h
  exact ⟨k, hk, hf.hasCex⟩

theorem Finds.mono (h : S.Finds s) (hkeep : ∀ j index, s.draw.slot j = .drawn index →
    s'.draw.slot j = .drawn index) : S.Finds s' := by
  obtain ⟨i, hi, index, hd, hf⟩ := h
  exact ⟨i, hi, index, hkeep i index hd, hf⟩

theorem ok_start (S : Session) : S.Ok S.start where
  right := ⟨.inl rfl, fun h => absurd h (show (0 : Int) ≠ 10 by decide),
    fun h => absurd h (show (0 : Int) ≠ 20 by decide)⟩
  bounded h := absurd h (show (0 : Int) ≠ 10 by decide)
  byPdr h := absurd h (show (0 : Int) ≠ 20 by decide)
  witnesses := Nat.zero_le _
  unset _ := rfl
  pdr _ _ := ⟨List.Pairwise.nil, fun v hv => absurd hv List.not_mem_nil, fun _ h => absurd rfl h,
    fun h => PdrStage.noConfusion h, fun v h => PdrStage.noConfusion h, PdrStage.noConfusion⟩
  bmc _ _ := ⟨fun _ h => Slot.noConfusion h, fun _ => rfl, Phase.noConfusion, fun h => Phase.noConfusion h⟩
  draw := Tickets.ok_start _

theorem Ok.others (h : S.Ok s) {R : Int} (hR : s.RESULT ≠ 0 → R ≠ 0) :
    (∀ i, i < S.pdr_thread → PdrOk (S.env i) S.circuit R (s.pdr i)) ∧
    ∀ i, i < S.bmc_thread → S.BmcOk R (s.draw.slot i) (s.bmc i) :=
  ⟨fun i hi => (h.pdr i hi).mono hR, fun i hi => (h.bmc i hi).mono hR⟩

theorem Ok.pdrStep (hA : 0 < S.pdr_thread → S.circuit.constraints = []) (h : S.Ok s) {i : Nat}
    (hi : i < S.pdr_thread) {x : PdrThread} {o : Int × Bool} (ht : PdrTick (S.env i) S.circuit s.RESULT (s.pdr i) x o) :
    S.Ok { s with
        RESULT := o.1
        pdr := Function.update s.pdr i x
        witnesses := if o.2 then s.witnesses + 1 else s.witnesses } ∧
      (s.RESULT ≠ 0 → o.1 = s.RESULT) := by
  obtain ⟨hx, hcases⟩ := ht.spec (hA (by omega)) (h.pdr i hi) h.right
  have hkeep : s.RESULT ≠ 0 → o.1 = s.RESULT := by
    intro hne
    rcases hcases with rfl | ⟨h0, _⟩
    · rfl
    · exact absurd h0 hne
  obtain ⟨hpdr, hbmc⟩ := h.others (R := o.1) fun hne => by rw [hkeep hne]; exact hne
  have hthreads : ∀ j, j < S.pdr_thread → PdrOk (S.env j) S.circuit o.1 (Function.update s.pdr i x j) := by
    intro j hj
    by_cases he : j = i
    · subst he
      rw [Function.update_self]
      exact hx
    · rw [Function.update_of_ne he]
      exact hpdr j hj
  have hpos : S.pdr_thread ≠ 0 := by omega
  refine ⟨?_, hkeep⟩
  rcases hcases with rfl | ⟨h0, ⟨h10, hn⟩ | ⟨rfl, hsafe⟩⟩
  · exact ⟨h.right, fun _ h0 => absurd h0 hpos, h.byPdr, h.witnesses, h.unset, hthreads, hbmc, h.draw⟩
  · -- a counterexample is published
    have hw := h.unset h0
    refine ⟨⟨.inr (.inl h10), fun _ => hn, fun h20 => ?_⟩, fun _ h0 => absurd h0 hpos, fun _ => hpos, ?_, ?_,
      hthreads, hbmc, h.draw⟩
    · rw [h10] at h20
      cases h20
    · show (if o.2 then s.witnesses + 1 else s.witnesses) ≤ 1
      split_ifs <;> omega
    · intro hz
      rw [h10] at hz
      cases hz
  · exact ⟨⟨.inr (.inr rfl), by simp, fun _ => hsafe⟩, fun _ h0 => absurd h0 hpos, fun _ => hpos, h.witnesses,
      by simp, hthreads, hbmc, h.draw⟩

theorem Ok.load (h : S.Ok s) {i : Nat} (hw : s.draw.slot i = .waiting) :
    S.Ok { s with draw := s.draw.load i } := by
  refine ⟨h.right, fun h10 hp => ?_, h.byPdr, h.witnesses, h.unset, h.pdr, fun j hj => ?_, h.draw.load hw⟩
  · exact (h.bounded h10 hp).mono fun j index => (Tickets.load_keeps hw j index).mpr
  · have hb := h.bmc j hj
    by_cases he : j = i
    · subst he
      have hslot : (s.draw.load j).slot j = .loaded s.draw.counter := Function.update_self _ _ _
      simp only [hslot]
      exact ⟨fun _ hd => Slot.noConfusion hd, fun _ => hb.waiting (by rw [hw]; rfl), hb.defined, hb.found⟩
    · have hslot : (s.draw.load i).slot j = s.draw.slot j := Function.update_of_ne he _ _
      simp only [hslot]
      exact hb

theorem Ok.store (h : S.Ok s) {i index : Nat} (hi : i < S.bmc_thread) (hl : s.draw.slot i = .loaded index) :
    S.Ok { s with
      draw := s.draw.store i index
      bmc := Function.update s.bmc i (S.config S.bmc_thread index).startThread } := by
  refine ⟨h.right, fun h10 hp => ?_, h.byPdr, h.witnesses, h.unset, h.pdr, fun j hj => ?_,
    h.draw.store (Finset.mem_range.mpr hi) hl⟩
  · exact (h.bounded h10 hp).mono (Tickets.store_keeps hl)
  · by_cases he : j = i
    · subst he
      have hslot : (s.draw.store j index).slot j = .drawn index := Function.update_self _ _ _
      simp only [hslot, Function.update_self]
      refine ⟨fun index' hd => ?_, fun hn => ?_, Phase.noConfusion, fun hx => Phase.noConfusion hx⟩
      · cases hd
        exact (ThreadOk.start _).mono fun h0 => absurd rfl h0
      · cases hn
    · have hslot : (s.draw.store i index).slot j = s.draw.slot j := Function.update_of_ne he _ _
      simp only [hslot, Function.update_of_ne he]
      exact h.bmc j hj

theorem Ok.bmcStep (h : S.Ok s) {i index t : Nat} {terminated : Bool} (hi : i < S.bmc_thread)
    (hdraw : s.draw.slot i = .drawn index) (hterm : terminated = true → s.RESULT ≠ 0)
    (hroom : (S.config S.bmc_thread index).Room s.RESULT (s.bmc i)) {r : Thread × Int}
    (hr : r = (S.config S.bmc_thread index).threadStep (S.solver i) t terminated s.RESULT (s.bmc i)) :
    S.Ok { s with
        RESULT := r.2
        bmc := Function.update s.bmc i r.1
        witnesses := if S.bmcPrints s i then s.witnesses + 1 else s.witnesses } ∧
      (s.RESULT ≠ 0 → r.2 = s.RESULT) := by
  have hb := h.bmc i hi
  obtain ⟨hx, hcases⟩ :=
    Working.step ⟨hb.thread index hdraw, hb.defined, hb.found⟩ (S.solver i) t hroom hterm hr
  have hkeep : s.RESULT ≠ 0 → r.2 = s.RESULT := by
    intro hne
    rcases hcases with ⟨heq, _⟩ | ⟨h0, _⟩
    · exact heq
    · exact absurd h0 hne
  obtain ⟨hpdr, hbmc⟩ := h.others (R := r.2) fun hne => by rw [hkeep hne]; exact hne
  have hthreads : ∀ j, j < S.bmc_thread → S.BmcOk r.2 (s.draw.slot j) (Function.update s.bmc i r.1 j) := by
    intro j hj
    by_cases he : j = i
    · subst he
      rw [Function.update_self]
      refine ⟨fun index' hd => ?_, fun hn => ?_, hx.defined, hx.found⟩
      · rw [hdraw] at hd
        cases hd
        exact hx.thread
      · rw [hdraw] at hn
        cases hn
    · rw [Function.update_of_ne he]
      exact hbmc j hj
  refine ⟨?_, hkeep⟩
  rcases hcases with ⟨heq, hno⟩ | ⟨h0, h10, _, hf⟩
  · have hprint : S.bmcPrints s i = false := by
      unfold bmcPrints
      rw [Bool.and_eq_false_iff, Bool.and_eq_false_iff]
      by_cases hp : (s.bmc i).phase = .found
      · exact .inl (.inr (decide_eq_false fun h0 => hno ⟨hp, h0⟩))
      · exact .inl (.inl (decide_eq_false hp))
    rw [hprint]
    simp only [heq] at hpdr hthreads ⊢
    exact ⟨h.right, h.bounded, h.byPdr, h.witnesses, h.unset, hpdr, hthreads, h.draw⟩
  · -- the thread publishes the counterexample that it has found
    have hfinds : S.Finds s := ⟨i, hi, index, hdraw, hf⟩
    have hn : ¬ S.circuit.system.Safe := not_safe_iff.mpr (hfinds.hasCex.imp fun _ hk => hk.2)
    have hw := h.unset h0
    refine ⟨⟨.inr (.inl h10), fun _ => hn, fun h20 => ?_⟩, fun _ _ => hfinds, fun h20 => ?_, ?_, ?_, hpdr,
      hthreads, h.draw⟩
    · rw [h10] at h20
      cases h20
    · rw [h10] at h20
      cases h20
    · show (if S.bmcPrints s i then s.witnesses + 1 else s.witnesses) ≤ 1
      split_ifs <;> omega
    · intro hz
      rw [h10] at hz
      cases hz

/-- A step that has room keeps the invariant and a verdict that was given. -/
theorem Ok.step (hA : 0 < S.pdr_thread → S.circuit.constraints = []) (h : S.Ok s) {e : ThreadId}
    (hs : S.StepIn S.Room e s s') : S.Ok s' ∧ (s.RESULT ≠ 0 → s'.RESULT = s.RESULT) := by
  obtain ⟨hroom, hs⟩ := hs
  cases hs with
  | pdr hi ht => exact h.pdrStep hA hi ht
  | load hi hw => exact ⟨h.load hw, fun _ => rfl⟩
  | store hi hl => exact ⟨h.store hi hl, fun _ => rfl⟩
  | bmc hi hdraw hterm => exact h.bmcStep hi hdraw hterm (hroom _ hdraw) rfl

theorem Ok.steps (hA : 0 < S.pdr_thread → S.circuit.constraints = []) (h : S.Ok s) (hs : S.Steps S.Room s s') :
    S.Ok s' ∧ (s.RESULT ≠ 0 → s'.RESULT = s.RESULT) := by
  induction hs with
  | refl => exact ⟨h, fun _ => rfl⟩
  | tail _ hstep ih =>
      obtain ⟨e, he⟩ := hstep
      obtain ⟨h', hkeep⟩ := ih.1.step hA he
      refine ⟨h', fun hne => ?_⟩
      rw [hkeep (by rw [ih.2 hne]; exact hne), ih.2 hne]

/-- All threads have returned, so that `main` is past its calls of `pthread_join`. -/
def Joined (S : Session) (s : Shared) : Prop :=
  (∀ i, i < S.pdr_thread → ∃ v, (s.pdr i).stage = .returned v) ∧
    ∀ i, i < S.bmc_thread → ∃ v, (s.bmc i).phase = .returned v

/-- A thread that looks at such a frame has found the counterexample or was stopped by the one that published
a verdict. -/
theorem Ok.published (h : S.Ok s) (hj : S.Joined s) (hf : S.Finds s) : s.RESULT ≠ 0 := by
  obtain ⟨i, hi, index, hd, hf⟩ := hf
  obtain ⟨v, hph⟩ := hj.2 i hi
  have hb := h.bmc i hi
  have hok := hb.thread index hd
  unfold ThreadOk at hok
  rw [hph] at hok
  rcases hok with ⟨h10, _⟩ | ⟨_, hR | hp⟩
  · exact hb.found (by rw [hph, h10])
  · exact hR
  · exact absurd hf hp.not_finds

/-- If no increment of the counter was lost, every frame is looked at. -/
theorem Ok.finds (h : S.Ok s) (hm : 0 < S.bmc_thread) (hc : s.draw.counter = S.bmc_thread) {k : Nat}
    (hk : k ≤ S.nframes) (hcex : S.HasCex k) : S.Finds s := by
  obtain ⟨j, hj, hf⟩ := BmcConfig.HasCex.exists_first hcex
  have hlt : j % S.bmc_thread < S.bmc_thread := Nat.mod_lt _ hm
  have hall := h.draw.all_drawn (by rw [hc, Finset.card_range])
  obtain ⟨i, hi, hd⟩ := hall _ (by rw [Finset.card_range]; exact hlt)
  exact ⟨i, Finset.mem_range.mp hi, _, hd, j, hj.trans hk, (owns_iff hlt).mpr rfl, hf⟩

/-- That is so with one BMC thread. -/
theorem Ok.counter_single (h : S.Ok s) (hj : S.Joined s) (hm : S.bmc_thread = 1) :
    s.draw.counter = S.bmc_thread := by
  rw [h.draw.counter_single (by rw [Finset.card_range, hm]) fun i hi => ?_, Finset.card_range]
  have hi := Finset.mem_range.mp hi
  obtain ⟨v, hv⟩ := hj.2 i hi
  obtain ⟨index, hd, _⟩ := (h.bmc i hi).drawn hv
  exact ⟨index, hd⟩

/-- A PDR thread returns only after `RESULT` was set. -/
theorem Ok.decided (h : S.Ok s) (hj : S.Joined s) (hp : 0 < S.pdr_thread) :
    (s.RESULT = 10 ↔ ¬ S.circuit.system.Safe) ∧ (s.RESULT = 20 ↔ S.circuit.system.Safe) := by
  have hright := h.right
  obtain ⟨v, hv⟩ := hj.1 0 hp
  have hset := (h.pdr 0 hp).returned v hv
  have hval := hright.values.resolve_left hset
  refine ⟨⟨hright.cex, fun hn => ?_⟩, ⟨hright.safe, fun hs => ?_⟩⟩
  · exact hval.resolve_right fun h20 => hn (hright.safe h20)
  · exact hval.resolve_left fun h10 => hright.cex h10 hs

/-- Without PDR threads `RESULT` is 20 in no state. -/
theorem Ok.decided_bmc (h : S.Ok s) (hj : S.Joined s) (hp : S.pdr_thread = 0) :
    (s.RESULT = 10 ↔ S.Finds s) ∧ s.RESULT ≠ 20 := by
  have h20 : s.RESULT ≠ 20 := fun h20 => h.byPdr h20 hp
  refine ⟨⟨fun h10 => h.bounded h10 hp, fun hf => ?_⟩, h20⟩
  exact (h.right.values.resolve_left (h.published hj hf)).resolve_right h20

/-! ## The steps of one PDR thread -/

section Along

variable {ρ : Nat → Int} {fuel n : Nat} {v : Int} {r : Run}

/-- The thread after `n` steps in which it has read the values `ρ`. -/
def along (ρ : Nat → Int) (n : Nat) : PdrThread := ⟨.running, (List.range n).map ρ⟩

theorem readValue_along {t : Nat} (ht : t < n) : readValue ((List.range n).map ρ) t = ρ t := by
  unfold readValue
  have hmin : min t (((List.range n).map ρ).length - 1) = t := by
    rw [List.length_map, List.length_range]
    omega
  rw [hmin, List.getD_eq_getElem?_getD, List.getElem?_map, List.getElem?_range ht]
  rfl

theorem ends_along {env : PdrEnv} {A : Circuit} (hrun : runCheck (env.reading ρ) A fuel = (.ok v, r))
    {res : Except Stop Int} : CheckEnds env A ((List.range n).map ρ) res ↔ res = .ok v ∧ n = r.clock := by
  unfold CheckEnds
  rw [List.length_map, List.length_range]
  constructor
  · rintro ⟨hne, fuel', r', hrun', rfl⟩
    have hrun' := runCheck_reading hrun' fun t ht => readValue_along (ρ := ρ) ht
    obtain ⟨rfl, rfl⟩ := runCheck_unique hrun (by simp) hrun' hne
    exact ⟨rfl, rfl⟩
  · rintro ⟨rfl, rfl⟩
    exact ⟨by simp, fuel, r, runCheck_reading hrun fun t ht => (readValue_along ht).symm, rfl⟩

theorem range_map_succ : (List.range n).map ρ ++ [ρ n] = (List.range (n + 1)).map ρ := by
  rw [List.range_succ, List.map_append]
  rfl

/-- Only the first PDR thread is replaced. -/
def withPdr (s : Shared) (x : PdrThread) : Shared := { s with pdr := Function.update s.pdr 0 x }

theorem withPdr_self {s : Shared} {x : PdrThread} (h : s.pdr 0 = x) : withPdr s x = s := by
  unfold withPdr
  rw [← h, Function.update_eq_self]

theorem stepIn_pdr (hp : 0 < S.pdr_thread) {x y : PdrThread} {o : Int × Bool}
    (ht : PdrTick (S.env 0) S.circuit s.RESULT x y o) : S.StepIn S.Room (.pdr 0) (withPdr s x)
      { withPdr s y with RESULT := o.1, witnesses := if o.2 then s.witnesses + 1 else s.witnesses } := by
  have hx : (withPdr s x).pdr 0 = x := by simp [withPdr]
  have hstep := Step.pdr (S := S) (s := withPdr s x) (x := y) (o := o) hp (by rw [hx]; exact ht)
  have hy : Function.update (withPdr s x).pdr 0 y = (withPdr s y).pdr := Function.update_idem _ _ _
  rw [hy] at hstep
  exact ⟨trivial, hstep⟩

/-- While `RESULT` keeps its value, the thread goes on with its run. -/
theorem steps_along (hp : 0 < S.pdr_thread) (hrun : runCheck ((S.env 0).reading ρ) S.circuit fuel = (.ok v, r))
    {m : Nat} (hmn : m ≤ n) (hn : n < r.clock) (hR : ∀ t, m ≤ t → t < n → ρ t = s.RESULT) :
    S.Steps S.Room (withPdr s (along ρ m)) (withPdr s (along ρ n)) := by
  induction n, hmn using Nat.le_induction with
  | base => exact .refl
  | succ n hmn ih =>
      refine (ih (by omega) fun t hm ht => hR t hm (by omega)).tail ⟨.pdr 0, ?_⟩
      have htick : PdrTick (S.env 0) S.circuit (ρ n) (along ρ n) (along ρ (n + 1)) (ρ n, false) := by
        unfold along
        rw [← range_map_succ]
        refine .work fun res hend => ?_
        rw [range_map_succ, ends_along hrun] at hend
        omega
      rw [hR n hmn (Nat.lt_succ_self n)] at htick
      exact stepIn_pdr hp htick

theorem steps_start (hp : 0 < S.pdr_thread) (hrun : runCheck ((S.env 0).reading ρ) S.circuit fuel = (.ok v, r))
    (hn : n < r.clock) (hR : ∀ t, t < n → ρ t = 0) : S.Steps S.Room S.start (withPdr S.start (along ρ n)) := by
  have h := steps_along hp (s := S.start) hrun (Nat.zero_le n) hn fun t _ ht => hR t ht
  rwa [withPdr_self (show S.start.pdr 0 = along ρ 0 from rfl)] at h

end Along

/-! ## The steps of the BMC threads -/

/-- The next step of BMC thread `m.1`, which is not stopped, at time `m.2` of its solver. -/
def bmcMove (S : Session) (m : Nat × Nat) (s : Shared) : Shared :=
  match s.draw.slot m.1 with
  | .waiting => { s with draw := s.draw.load m.1 }
  | .loaded index =>
    { s with
      draw := s.draw.store m.1 index
      bmc := Function.update s.bmc m.1 (S.config S.bmc_thread index).startThread }
  | .drawn index =>
    let r := (S.config S.bmc_thread index).threadStep (S.solver m.1) m.2 false s.RESULT (s.bmc m.1)
    { s with
      RESULT := r.2
      bmc := Function.update s.bmc m.1 r.1
      witnesses := if S.bmcPrints s m.1 then s.witnesses + 1 else s.witnesses }

/-- There is such a thread, and it has room. -/
def MoveOk (S : Session) (m : Nat × Nat) (s : Shared) : Prop := m.1 < S.bmc_thread ∧ S.Room (.bmc m.1) s

instance (i : Nat) (s : Shared) : Decidable (S.Room (.bmc i) s) :=
  match h : s.draw.slot i with
  | .drawn index => decidable_of_iff ((S.config S.bmc_thread index).Room s.RESULT (s.bmc i))
      ⟨fun hr _ hd => by cases h.symm.trans hd; exact hr, fun hr => hr index h⟩
  | .waiting => isTrue fun _ hd => Slot.noConfusion (h.symm.trans hd)
  | .loaded _ => isTrue fun _ hd => Slot.noConfusion (h.symm.trans hd)

instance (m : Nat × Nat) (s : Shared) : Decidable (S.MoveOk m s) := inferInstanceAs (Decidable (_ ∧ _))

theorem stepIn_bmcMove (m : Nat × Nat) (s : Shared) (h : S.MoveOk m s) :
    ∃ e, S.StepIn S.Room e s (S.bmcMove m s) := by
  refine ⟨.bmc m.1, h.2, ?_⟩
  unfold bmcMove
  cases hslot : s.draw.slot m.1 with
  | waiting => exact .load h.1 hslot
  | loaded index => exact .store h.1 hslot
  | drawn index => exact .bmc h.1 hslot fun hf => Bool.noConfusion hf

theorem moved_pdr {moves : List (Nat × Nat)} : (moved S.bmcMove moves s).pdr = s.pdr := by
  refine moved_invariant (P := fun s' : Shared => s'.pdr = s.pdr) (fun m s' h => ?_) rfl
  unfold bmcMove
  cases s'.draw.slot m.1 <;> exact h

/-- The BMC threads move and all return, one of them with a counterexample, before the only PDR thread finds one
as well. -/
theorem ends_race (hp : S.pdr_thread = 1) {ρ : Nat → Int} {fuel n : Nat} {r : Run}
    (hrun : runCheck ((S.env 0).reading ρ) S.circuit fuel = (.ok 10, r)) (hn : r.clock = n + 1)
    (h0 : ∀ t, t < n → ρ t = 0) (h10 : ρ n = 10) {moves : List (Nat × Nat)}
    (hallow : Allowed S.MoveOk S.bmcMove moves (withPdr S.start (along ρ n)))
    (hR : (moved S.bmcMove moves (withPdr S.start (along ρ n))).RESULT = 10)
    (hret : ∀ i, i < S.bmc_thread → ∃ v,
      ((moved S.bmcMove moves (withPdr S.start (along ρ n))).bmc i).phase = .returned v) :
    ∃ s, S.Steps S.Room S.start s ∧ s.RESULT = 10 ∧ S.Joined s := by
  have h1 := steps_start (S := S) (by omega) hrun (n := n) (by omega) h0
  have h2 : S.Steps S.Room _ _ := hallow.steps stepIn_bmcMove
  have hpdr : (moved S.bmcMove moves (withPdr S.start (along ρ n))).pdr 0 = along ρ n := by
    rw [moved_pdr]
    exact Function.update_self 0 _ S.start.pdr
  generalize moved S.bmcMove moves (withPdr S.start (along ρ n)) = s at h2 hR hret hpdr
  have htick : PdrTick (S.env 0) S.circuit (ρ n) (along ρ n) ⟨.returned 10, (List.range (n + 1)).map ρ⟩
      (publishCex (S.env 0).output_witness (ρ n)) := by
    unfold along
    rw [← range_map_succ]
    refine .cex ?_
    rw [range_map_succ, ends_along hrun]
    exact ⟨rfl, hn.symm⟩
  rw [h10.trans hR.symm] at htick
  have hlast := stepIn_pdr (S := S) (by omega) htick
  rw [withPdr_self hpdr, hR] at hlast
  refine ⟨_, (h1.trans h2).tail ⟨_, hlast⟩, rfl, fun i hi => ?_, hret⟩
  obtain rfl : i = 0 := by omega
  exact ⟨10, by simp [withPdr]⟩

end Session

/-! ## The theorems -/

/-- Any number of threads in any order of steps that have room, with constraints only if there are no PDR
threads: `RESULT` is not set or right about the circuit, the first verdict is kept, at most one witness is
printed, no assertion fails, and no step of a BMC thread is undefined. -/
theorem session_verdict (S : Session) (hA : 0 < S.pdr_thread → S.circuit.constraints = []) {s : Shared}
    (h : S.Steps S.Room S.start s) :
    (s.RESULT = 0 ∨ s.RESULT = 10 ∧ ¬ S.circuit.system.Safe ∨ s.RESULT = 20 ∧ S.circuit.system.Safe) ∧
      (∀ s', S.Steps S.Room s s' → s.RESULT ≠ 0 → s'.RESULT = s.RESULT) ∧ s.witnesses ≤ 1 ∧
      (∀ i, i < S.pdr_thread → (s.pdr i).stage ≠ .aborted) ∧
      ∀ i, i < S.bmc_thread → (s.bmc i).phase ≠ .undefined := by
  have hok := (S.ok_start.steps hA h).1
  refine ⟨?_, fun s' hs' => (hok.steps hA hs').2, hok.witnesses, fun i hi => (hok.pdr i hi).aborted,
    fun i hi => (hok.bmc i hi).defined⟩
  rcases hok.right.values with h0 | h10 | h20
  · exact .inl h0
  · exact .inr (.inl ⟨h10, hok.right.cex h10⟩)
  · exact .inr (.inr ⟨h20, hok.right.safe h20⟩)

/-- When all threads have returned, a session with a PDR thread has decided the property. One with BMC threads
only has decided whether they look at a frame that violates it. They look at all of them if no increment of
`current_bmc_execution` was lost, as with one thread. -/
theorem session_joined (S : Session) (hA : 0 < S.pdr_thread → S.circuit.constraints = []) {s : Shared}
    (h : S.Steps S.Room S.start s) (hj : S.Joined s) :
    (0 < S.pdr_thread → (s.RESULT = 10 ↔ ¬ S.circuit.system.Safe) ∧
      (s.RESULT = 20 ↔ S.circuit.system.Safe)) ∧
    (S.pdr_thread = 0 → 0 < S.bmc_thread → (s.RESULT = 10 ↔ S.Finds s) ∧ s.RESULT ≠ 20 ∧
      (S.Finds s → ∃ k, k ≤ S.nframes ∧ S.HasCex k) ∧
      (s.draw.counter = S.bmc_thread → (∃ k, k ≤ S.nframes ∧ S.HasCex k) → S.Finds s) ∧
      (S.bmc_thread = 1 → s.draw.counter = S.bmc_thread)) := by
  have hok := (S.ok_start.steps hA h).1
  refine ⟨hok.decided hj, fun hp hm => ?_⟩
  obtain ⟨hiff, h20⟩ := hok.decided_bmc hj hp
  refine ⟨hiff, h20, Session.Finds.hasCex, fun hc => ?_, hok.counter_single hj⟩
  rintro ⟨k, hk, hcex⟩
  exact hok.finds hm hc hk hcex

namespace Sample

/-- The answers to a PDR thread on `pulse`, which finds the counterexample in its second query. -/
def pulseAnswers : Nat → Answer
  | 0 => .unsat [7]
  | _ => model [2, 4, 8, 9, 10, 11]

/-- `RESULT` at the times of its clock. -/
def pulseReads (t : Nat) : Int := if t < 2 then 0 else 10

/-- The BMC threads draw their indices in the opposite order. Thread 0 solves the first frame, thread 1 leaves
it out, finds the counterexample in the second one and publishes it. -/
def pulseMoves : List (Nat × Nat) :=
  [(1, 0), (1, 0), (0, 0), (0, 0), (0, 0), (0, 0), (1, 0), (1, 0), (1, 0), (1, 1), (1, 0), (0, 0)]

/-- One PDR thread and two BMC threads on `pulse`. -/
noncomputable def pulseSession : Session where
  toPortfolio := pulsePool
  bad_eq := rfl
  pdr_thread := 1
  bmc_thread := 2
  env _ := envOf pulseAnswers
  solver _ := pulseSolver
  output_witness := true

/-- The session after the moves. -/
noncomputable def pulseMoved : Shared :=
  moved pulseSession.bmcMove pulseMoves (Session.withPdr pulseSession.start (Session.along pulseReads 2))

theorem pulseMoves_allowed : Allowed pulseSession.MoveOk pulseSession.bmcMove pulseMoves
    (Session.withPdr pulseSession.start (Session.along pulseReads 2)) := by
  decide +kernel

theorem pulseMoved_end : pulseMoved.RESULT = 10 ∧
    ∀ i, i < 2 → (pulseMoved.bmc i).phase = if i = 0 then .returned 0 else .returned 10 := by
  decide +kernel

theorem pulseRun : ∃ r, runCheck ((envOf pulseAnswers).reading pulseReads) pulse 10 = (.ok 10, r) ∧ r.clock = 3 :=
  ⟨_, eq_of_verdict (by decide +kernel), by decide +kernel⟩

theorem pulseSession_ends : ∃ s, pulseSession.Steps pulseSession.Room pulseSession.start s ∧ s.RESULT = 10 ∧
    pulseSession.Joined s := by
  obtain ⟨r, hrun, hclock⟩ := pulseRun
  refine Session.ends_race (S := pulseSession) rfl hrun hclock (fun t ht => if_pos ht) rfl pulseMoves_allowed
    pulseMoved_end.1 fun i hi => ?_
  have hph : (pulseMoved.bmc i).phase = _ := pulseMoved_end.2 i hi
  split at hph
  · exact ⟨0, hph⟩
  · exact ⟨10, hph⟩

end Sample

/-- The session on `pulse` gets to a verdict, which is right. -/
theorem session_verdict_pulse : ∃ s, Sample.pulseSession.Steps Sample.pulseSession.Room Sample.pulseSession.start s ∧
    s.RESULT = 10 ∧ ¬ Sample.pulse.system.Safe := by
  obtain ⟨s, hs, h10, _⟩ := Sample.pulseSession_ends
  refine ⟨s, hs, h10, ?_⟩
  rcases (session_verdict Sample.pulseSession (fun _ => rfl) hs).1 with h0 | ⟨_, hn⟩ | ⟨h20, _⟩
  · rw [h10] at h0
    cases h0
  · exact hn
  · rw [h10] at h20
    cases h20

/-- Its end. -/
theorem session_joined_pulse : ∃ s, Sample.pulseSession.Steps Sample.pulseSession.Room Sample.pulseSession.start s ∧
    Sample.pulseSession.Joined s ∧ s.RESULT = 10 ∧ ¬ Sample.pulse.system.Safe := by
  obtain ⟨s, hs, h10, hj⟩ := Sample.pulseSession_ends
  exact ⟨s, hs, hj, h10, ((session_joined Sample.pulseSession (fun _ => rfl) hs hj).1 Nat.one_pos).1.mp h10⟩

end ModelChecker
