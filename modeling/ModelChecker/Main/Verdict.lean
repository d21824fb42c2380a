import ModelChecker.Bmc.Solve
import ModelChecker.Pdr.Check
import ModelChecker.Pdr.Lemmas.Runs

/-!
# The shared verdict

The threads `main` starts share `RESULT`. A worker is one of them, cut where it reads or writes `RESULT`
or holds `result_mutex`; what its engine finds out in between is left open. The runs of the engines are
walks through these phases (`threadStep_phase`, `check_walk`).
-/

namespace ModelChecker

open Logic

/-! ## Workers -/

/-- Where a call of `PDR::check` stands. `publish` is the block that sets `RESULT` to 10, `fixpoint` the
one at the end of `propagate`, `proved` the assignment after `propagate` has succeeded. -/
inductive PdrPhase where
  | bmc0
  | bmc1
  | head
  | cti
  | blocking
  | working
  | publish
  | propagating
  | fixpoint
  | proved
  | returned (res : Int)
deriving DecidableEq, Repr

/-- What the engine finds out: a counterexample, CTI, empty queue or fixpoint (`yes`) or none, that it
must stop, or that it left its arrays or the range of its frame counter. -/
inductive Choice where
  | yes
  | no
  | halt
  | crash
deriving DecidableEq, Repr

variable (output_witness : Bool)

/-- The block that sets `RESULT` to 10: `RESULT` after it, and whether a witness is printed. -/
def publishCex (RESULT : Int) : Int × Bool :=
  if RESULT = 0 then (10, output_witness) else (RESULT, false)

/-- The next step of `PDR::check`: its phase and `RESULT` after it, and whether a witness is printed. -/
def pdrStep (c : Choice) (RESULT : Int) (p : PdrPhase) : PdrPhase × Int × Bool :=
  match p with
  | .bmc0 => (if c = .yes then .publish else .bmc1, RESULT, false)
  | .bmc1 => (if c = .yes then .publish else .head, RESULT, false)
  | .head => (if RESULT ≠ 0 then .returned 0 else .cti, RESULT, false)
  | .cti => (if c = .yes then .blocking else .propagating, RESULT, false)
  | .blocking => (if c = .yes then .head else if RESULT ≠ 0 then .head else .working, RESULT, false)
  | .working => (if c = .yes then .publish else .blocking, RESULT, false)
  | .publish => (.returned 10, publishCex output_witness RESULT)
  | .propagating => (if c = .yes then .fixpoint else .head, RESULT, false)
  | .fixpoint => (.proved, if RESULT ≠ 0 then RESULT else 20, false)
  | .proved => (.returned 20, 20, false)  -- not protected by the mutex
  | .returned v => (.returned v, RESULT, false)

/-- The next step of `BMC::check`. -/
def bmcStep (c : Choice) (RESULT : Int) (p : Phase) : Phase × Int × Bool :=
  match p with
  | .head => (if c = .halt ∨ RESULT ≠ 0 then .returned 0 else if c = .crash then .undefined
      else .solving, RESULT, false)
  | .solving => (if c = .yes then .found else if c = .no then .head else if c = .crash then .undefined
      else .returned 0, RESULT, false)
  | .found => (.returned 10, publishCex output_witness RESULT)
  | .returned v => (.returned v, RESULT, false)
  | .undefined => (.undefined, RESULT, false)

inductive Worker where
  | pdr (p : PdrPhase)
  | bmc (p : Phase)
deriving DecidableEq, Repr

def Worker.step (c : Choice) (RESULT : Int) : Worker → Worker × Int × Bool
  | .pdr p => ((.pdr (pdrStep output_witness c RESULT p).1), (pdrStep output_witness c RESULT p).2)
  | .bmc p => ((.bmc (bmcStep output_witness c RESULT p).1), (bmcStep output_witness c RESULT p).2)

/-- The phases in which the threads start. -/
def Worker.IsStart (x : Worker) : Prop := x = .pdr .bmc0 ∨ x = .bmc .head

/-- All threads, `RESULT` and the number of witnesses printed so far. -/
structure Workers (ι : Type) where
  threads : ι → Worker
  RESULT : Int
  witnesses : Nat

namespace Workers

variable {ι : Type} [DecidableEq ι]

def start (threads : ι → Worker) : Workers ι := ⟨threads, 0, 0⟩

/-- Thread `e.1` takes its next step. -/
def step (s : Workers ι) (e : ι × Choice) : Workers ι :=
  let r := (s.threads e.1).step output_witness e.2 s.RESULT
  ⟨Function.update s.threads e.1 r.1, r.2.1, if r.2.2 then s.witnesses + 1 else s.witnesses⟩

def run (s : Workers ι) (es : List (ι × Choice)) : Workers ι := es.foldl (step output_witness) s

/-- The step is not the end of a `propagate` that succeeds after a counterexample was published. -/
def Agreeing (s : Workers ι) (i : ι) : Prop := ¬ (s.threads i = .pdr .fixpoint ∧ s.RESULT = 10)

instance (s : Workers ι) (i : ι) : Decidable (s.Agreeing i) := inferInstanceAs (Decidable (¬ _))

/-- Every step of the run is one. -/
def AgreeingRun : Workers ι → List (ι × Choice) → Prop
  | _, [] => True
  | s, e :: es => s.Agreeing e.1 ∧ AgreeingRun (s.step output_witness e) es

end Workers

/-! ## The engines walk through the phases -/

section Engines

variable {output_witness}

/-- A step of a BMC thread is a step of its worker, for what the thread found out. -/
theorem threadStep_phase (B : BmcConfig) (S : Ipasir) (t : Nat) (terminated : Bool) (R : Int)
    (x : Thread) :
    ∃ c, (bmcStep output_witness c R x.phase).1 = (B.threadStep S t terminated R x).1.phase ∧
      (bmcStep output_witness c R x.phase).2.1 = (B.threadStep S t terminated R x).2 := by
  unfold BmcConfig.threadStep
  cases hp : x.phase with
  | head =>
      by_cases hn : B.nframes < x.bmc.bmc_frame_k
      · exact ⟨.halt, by simp [bmcStep, hn]⟩
      · by_cases hR : R = 0
        · cases hu : B.unfold x.bmc.toUnfolding with
          | none => exact ⟨.crash, by simp [bmcStep, hn, hR]⟩
          | some u => exact ⟨.yes, by simp [bmcStep, hn, hR]⟩
        · exact ⟨.yes, by simp [bmcStep, hn, hR]⟩
  | solving =>
      generalize B.solve_one_frame S t terminated x.bmc = r
      by_cases h10 : r.1 = 10
      · exact ⟨.yes, by simp [bmcStep, h10]⟩
      · simp only [h10, ↓reduceIte]
        split
        · exact ⟨.halt, rfl, rfl⟩
        · split
          · exact ⟨.crash, rfl, rfl⟩
          · exact ⟨.no, rfl, rfl⟩
  | found =>
      refine ⟨.yes, rfl, ?_⟩
      simp only [bmcStep, publishCex]
      split <;> rfl
  | returned v => exact ⟨.yes, by simp [bmcStep, hp], rfl⟩
  | undefined => exact ⟨.yes, by simp [bmcStep, hp], rfl⟩

/-- Steps of a PDR worker that reads the values `env` gives for `RESULT`. -/
def Walk (env : PdrEnv) : PdrPhase → PdrPhase → Prop :=
  Relation.ReflTransGen fun p q => ∃ c t, (pdrStep env.output_witness c (env.RESULT t) p).1 = q

variable {env : PdrEnv}

theorem Walk.head {p q q' : PdrPhase} (c : Choice) (t : Nat)
    (h : (pdrStep env.output_witness c (env.RESULT t) p).1 = q) (hw : Walk env q q') : Walk env p q' :=
  Relation.ReflTransGen.head ⟨c, t, h⟩ hw

theorem rec_block_cube_walk (fuel : Nat) (r : Run) :
    (rec_block_cube env fuel).Wp (fun b _ => Walk env .blocking (if b then .head else .publish))
      (fun _ => True) r := by
  induction fuel generalizing r with
  | zero => trivial
  | succ fuel ih =>
      unfold rec_block_cube
      simp only [Exec.wp_bind, wp_getP]
      cases r.pdr.obligation_queue with
      | nil => exact .head .yes 0 rfl .refl
      | cons obl rest =>
          simp only [Exec.wp_bind, wp_readRESULT]
          rw [Exec.wp_ite]
          constructor
          · intro hR
            exact .head .no r.clock (by simp [pdrStep, hR]) .refl
          · intro hR
            have hR : env.RESULT r.clock = 0 := not_not.mp hR
            have hgo : ∀ {q}, Walk env .working q → Walk env .blocking q := fun hq =>
              .head .no r.clock (by simp [pdrStep, hR]) hq
            have hback : ∀ {q}, Walk env .blocking q → Walk env .working q := fun hq =>
              .head .no 0 rfl hq
            refine Exec.wp_skip fun b r1 => ?_
            rw [Exec.wp_ite]
            constructor
            · intro _
              refine Exec.wp_skip fun _ r2 => ?_
              exact (ih r2).mono (fun b _ hb => hgo (hback hb)) fun _ h => h
            · intro _
              refine Exec.wp_skip fun go r2 => ?_
              rw [Exec.wp_ite]
              constructor
              · intro _
                exact (ih r2).mono (fun b _ hb => hgo (hback hb)) fun _ h => h
              · intro _
                exact hgo (.head .yes 0 rfl .refl)

theorem mainLoop_walk (fuel : Nat) (r : Run) :
    (mainLoop env fuel).Wp (fun v _ => Walk env .head (.returned v)) (fun _ => True) r := by
  induction fuel generalizing r with
  | zero => trivial
  | succ fuel ih =>
      unfold mainLoop
      simp only [Exec.wp_bind, wp_readRESULT]
      rw [Exec.wp_ite]
      constructor
      · intro hR
        exact .head .no r.clock (by simp [pdrStep, hR]) .refl
      · intro hR
        have hR : env.RESULT r.clock = 0 := not_not.mp hR
        have hgo : ∀ {q}, Walk env .cti q → Walk env .head q := fun hq =>
          .head .no r.clock (by simp [pdrStep, hR]) hq
        refine Exec.wp_skip fun s r1 => Exec.wp_skip fun flag r2 => ?_
        rw [Exec.wp_ite]
        constructor
        · intro _
          have hcti : ∀ {q}, Walk env .blocking q → Walk env .cti q := fun hq => .head .yes 0 rfl hq
          refine Exec.wp_skip fun _ r3 => Exec.wp_skip fun _ r4 => ?_
          refine (rec_block_cube_walk fuel r4).bind fun b r5 hb => ?_
          rw [Exec.wp_ite]
          constructor
          · intro hb'
            rw [if_pos hb'] at hb
            exact (ih r5).mono (fun v _ hv => hgo (hcti (hb.trans hv))) fun _ h => h
          · intro hb'
            rw [if_neg hb'] at hb
            refine Exec.wp_skip fun _ _ => ?_
            exact hgo (hcti (hb.trans (Walk.head .yes 0 rfl .refl)))
        · intro _
          have hcti : ∀ {q}, Walk env .propagating q → Walk env .cti q := fun hq =>
            .head .no 0 rfl hq
          simp only [Exec.wp_bind, wp_getP]
          rw [Exec.wp_ite]
          constructor
          · intro _; trivial
          · intro _
            refine Exec.wp_skip fun b r3 => ?_
            rw [Exec.wp_ite]
            constructor
            · intro _
              exact hgo (hcti (.head .yes 0 rfl (.head .yes 0 rfl (.head .yes 0 rfl .refl))))
            · intro _
              refine Exec.wp_skip fun _ r4 => ?_
              exact (ih r4).mono (fun v _ hv => hgo (hcti (.head .no 0 rfl hv))) fun _ h => h

/-- A call of `PDR::check` that returns is a walk through the phases. -/
theorem check_walk (fuel : Nat) (r : Run) :
    (check env fuel).Wp (fun v _ => Walk env .bmc0 (.returned v)) (fun _ => True) r := by
  have hcex : Walk env .publish (.returned 10) := .head .yes 0 rfl .refl
  unfold check
  refine Exec.wp_skip fun _ r1 => Exec.wp_skip fun b r2 => ?_
  rw [Exec.wp_ite]
  constructor
  · intro _
    refine Exec.wp_skip fun _ _ => ?_
    exact .head .yes 0 rfl hcex
  · intro _
    refine Exec.wp_skip fun b r3 => ?_
    rw [Exec.wp_ite]
    constructor
    · intro _
      refine Exec.wp_skip fun _ _ => ?_
      exact .head .no 0 rfl (.head .yes 0 rfl hcex)
    · intro _
      refine Exec.wp_skip fun _ r4 => ?_
      exact (mainLoop_walk fuel r4).mono
        (fun v _ hv => .head .no 0 rfl (.head .no 0 rfl hv)) fun _ h => h

end Engines

/-! ## What a step does to the verdict -/

section Step

variable {output_witness} (c : Choice) (R : Int)

theorem publishCex_cases (b : Bool) (R : Int) :
    publishCex b R = (R, false) ∧ R ≠ 0 ∨ R = 0 ∧ publishCex b R = (10, b) := by
  unfold publishCex
  by_cases h : R = 0
  · exact .inr ⟨h, if_pos h⟩
  · exact .inl ⟨if_neg h, h⟩

/-- The thread `x` becomes `y`, `RESULT` becomes `R'`, and `b` says whether a witness is printed. -/
inductive Effect (x : Worker) (R : Int) (y : Worker) : Int → Bool → Prop
  | keep (h : y = .pdr .proved → x = .pdr .fixpoint ∧ R ≠ 0) : Effect x R y R false
  | cex (b : Bool) (h0 : R = 0) (h : y ≠ .pdr .proved) : Effect x R y 10 b
  | fixpoint (h0 : R = 0) : Effect x R y 20 false
  | overwrite (hx : x = .pdr .proved) (h : y ≠ .pdr .proved) : Effect x R y 20 false

theorem pdrStep_effect (output_witness : Bool) (p : PdrPhase) :
    Effect (.pdr p) R (.pdr (pdrStep output_witness c R p).1) (pdrStep output_witness c R p).2.1
      (pdrStep output_witness c R p).2.2 := by
  cases p with
  | publish =>
      rcases publishCex_cases output_witness R with ⟨h, _⟩ | ⟨h0, h⟩
      · simp only [pdrStep, h]
        exact .keep (by simp)
      · simp only [pdrStep, h]
        exact .cex _ h0 (by simp)
  | fixpoint =>
      by_cases h0 : R = 0
      · simp only [pdrStep, h0, ne_eq, not_true_eq_false, ↓reduceIte]
        exact .fixpoint rfl
      · simp only [pdrStep, ne_eq, h0, not_false_eq_true, ↓reduceIte]
        exact .keep fun _ => ⟨rfl, h0⟩
  | proved => exact .overwrite rfl (by simp [pdrStep])
  | returned v => exact .keep (by simp [pdrStep])
  | bmc0 => exact .keep (by simp only [pdrStep]; split <;> simp)
  | bmc1 => exact .keep (by simp only [pdrStep]; split <;> simp)
  | head => exact .keep (by simp only [pdrStep]; split <;> simp)
  | cti => exact .keep (by simp only [pdrStep]; split <;> simp)
  | blocking => exact .keep (by simp only [pdrStep]; repeat' split <;> simp)
  | working => exact .keep (by simp only [pdrStep]; split <;> simp)
  | propagating => exact .keep (by simp only [pdrStep]; split <;> simp)

theorem bmcStep_effect (output_witness : Bool) (p : Phase) :
    Effect (.bmc p) R (.bmc (bmcStep output_witness c R p).1) (bmcStep output_witness c R p).2.1
      (bmcStep output_witness c R p).2.2 := by
  cases p with
  | found =>
      rcases publishCex_cases output_witness R with ⟨h, _⟩ | ⟨h0, h⟩
      · simp only [bmcStep, h]
        exact .keep (by simp)
      · simp only [bmcStep, h]
        exact .cex _ h0 (by simp)
  | head => exact .keep (by simp)
  | solving => exact .keep (by simp)
  | returned v => exact .keep (by simp)
  | undefined => exact .keep (by simp)

theorem Worker.step_effect (output_witness : Bool) (x : Worker) :
    Effect x R (x.step output_witness c R).1 (x.step output_witness c R).2.1
      (x.step output_witness c R).2.2 := by
  cases x with
  | pdr p => exact pdrStep_effect c R output_witness p
  | bmc p => exact bmcStep_effect c R output_witness p

end Step

/-! ## Runs -/

namespace Workers

variable {ι : Type} [DecidableEq ι] {s : Workers ι} {output_witness}

/-- What every run keeps: a witness is printed only by the step that takes `RESULT` away from 0. -/
structure Counted (s : Workers ι) : Prop where
  values : s.RESULT = 0 ∨ s.RESULT = 10 ∨ s.RESULT = 20
  witnesses : s.witnesses ≤ 1
  unset : s.RESULT = 0 → s.witnesses = 0

/-- No thread is about to overwrite another verdict. -/
def Unanimous (s : Workers ι) : Prop := ∀ i, s.threads i = .pdr .proved → s.RESULT = 20

theorem Counted.step (h : Counted s) (e : ι × Choice) : Counted (s.step output_witness e) := by
  have heff := Worker.step_effect e.2 s.RESULT output_witness (s.threads e.1)
  unfold Workers.step
  generalize (s.threads e.1).step output_witness e.2 s.RESULT = r at heff
  obtain ⟨y, R', b⟩ := r
  cases heff with
  | keep => exact ⟨h.values, h.witnesses, h.unset⟩
  | cex b h0 =>
      have hw := h.unset h0
      refine ⟨.inr (.inl rfl), ?_, by simp⟩
      cases b <;> simp [hw]
  | fixpoint h0 => exact ⟨.inr (.inr rfl), h.witnesses, by simp⟩
  | overwrite => exact ⟨.inr (.inr rfl), h.witnesses, by simp⟩

/-- A step that meets the condition keeps a verdict that was given. -/
theorem Unanimous.step (h : Unanimous s) {e : ι × Choice} (ha : s.Agreeing e.1) (hc : Counted s) :
    Unanimous (s.step output_witness e) ∧
      (s.RESULT ≠ 0 → (s.step output_witness e).RESULT = s.RESULT) := by
  have heff := Worker.step_effect e.2 s.RESULT output_witness (s.threads e.1)
  unfold Workers.step
  generalize (s.threads e.1).step output_witness e.2 s.RESULT = r at heff
  obtain ⟨y, R', b⟩ := r
  have hthread : ∀ i, Function.update s.threads e.1 y i = .pdr .proved →
      y = .pdr .proved ∨ s.threads i = .pdr .proved := by
    intro i hi
    by_cases he : i = e.1
    · subst he; exact .inl (by simpa using hi)
    · exact .inr (by rwa [Function.update_of_ne he] at hi)
  cases heff with
  | keep hy =>
      refine ⟨fun i hi => ?_, fun _ => rfl⟩
      rcases hthread i hi with hp | hp
      · obtain ⟨hfix, hne⟩ := hy hp
        -- `propagate` succeeded although `RESULT` was set: by the condition not to 10
        rcases hc.values with h0 | h10 | h20
        · exact absurd h0 hne
        · exact absurd ⟨hfix, h10⟩ ha
        · exact h20
      · exact h i hp
  | cex b h0 hy =>
      refine ⟨fun i hi => ?_, fun hne => absurd h0 hne⟩
      rcases hthread i hi with hp | hp
      · exact absurd hp hy
      · have h20 := h i hp
        rw [h0] at h20
        cases h20
  | fixpoint h0 => exact ⟨fun _ _ => rfl, fun hne => absurd h0 hne⟩
  | overwrite hx => exact ⟨fun _ _ => rfl, fun _ => (h e.1 hx).symm⟩

theorem Counted.run (h : Counted s) (es : List (ι × Choice)) : Counted (s.run output_witness es) := by
  induction es generalizing s with
  | nil => exact h
  | cons e es ih => exact ih (h.step e)

theorem Unanimous.run {es : List (ι × Choice)} (h : Unanimous s) (hc : Counted s)
    (ha : AgreeingRun output_witness s es) :
    s.RESULT ≠ 0 → (s.run output_witness es).RESULT = s.RESULT := by
  induction es generalizing s with
  | nil => exact fun _ => rfl
  | cons e es ih =>
      intro hne
      obtain ⟨hu, hkeep⟩ := h.step ha.1 hc
      have hne' : (s.step output_witness e).RESULT ≠ 0 := by rw [hkeep hne]; exact hne
      exact (ih hu (hc.step e) ha.2 hne').trans (hkeep hne)

/-- The condition for the two parts of a run, and what the first part leaves. -/
theorem AgreeingRun.append {es es' : List (ι × Choice)} (h : Unanimous s) (hc : Counted s)
    (ha : AgreeingRun output_witness s (es ++ es')) :
    Unanimous (s.run output_witness es) ∧
      AgreeingRun output_witness (s.run output_witness es) es' := by
  induction es generalizing s with
  | nil => exact ⟨h, ha⟩
  | cons e es ih => exact ih (h.step ha.1 hc).1 (hc.step e) ha.2

omit [DecidableEq ι] in
theorem counted_start (threads : ι → Worker) : Counted (start threads) :=
  ⟨.inl rfl, Nat.zero_le _, fun _ => rfl⟩

omit [DecidableEq ι] in
theorem unanimous_start {threads : ι → Worker} (h : ∀ i, (threads i).IsStart) :
    Unanimous (start threads) := by
  intro i hi
  have hi : threads i = .pdr .proved := hi
  rcases h i with hs | hs
  · rw [hs] at hi; cases hi
  · rw [hs] at hi; cases hi

end Workers

/-- Any threads, in any order of steps: as long as no `propagate` succeeds after a counterexample was
published, `RESULT` keeps the first verdict, and at most one witness is printed. -/
theorem verdict_final {ι : Type} [DecidableEq ι] (output_witness : Bool) (threads : ι → Worker)
    (hstart : ∀ i, (threads i).IsStart) (es : List (ι × Choice))
    (ha : Workers.AgreeingRun output_witness (.start threads) es) :
    (∀ pre post, es = pre ++ post → ((Workers.start threads).run output_witness pre).RESULT ≠ 0 →
      ((Workers.start threads).run output_witness es).RESULT =
        ((Workers.start threads).run output_witness pre).RESULT) ∧
    (((Workers.start threads).run output_witness es).RESULT = 0 ∨
      ((Workers.start threads).run output_witness es).RESULT = 10 ∨
      ((Workers.start threads).run output_witness es).RESULT = 20) ∧
    ((Workers.start threads).run output_witness es).witnesses ≤ 1 := by
  have hc := Workers.counted_start threads
  refine ⟨fun pre post he hne => ?_, (hc.run es).values, (hc.run es).witnesses⟩
  subst he
  obtain ⟨hu, hpost⟩ := Workers.AgreeingRun.append (Workers.unanimous_start hstart) hc ha
  have hrun : (Workers.start threads).run output_witness (pre ++ post) =
      ((Workers.start threads).run output_witness pre).run output_witness post :=
    List.foldl_append
  rw [hrun]
  exact hu.run (hc.run pre) hpost hne

namespace Sample

/-- A PDR thread (`false`) and a BMC thread (`true`). -/
def twoThreads (i : Bool) : Worker := if i then .bmc .head else .pdr .bmc0

/-- The PDR thread reaches the end of a `propagate` that succeeds. -/
def pdrSteps : List (Bool × Choice) :=
  [(false, .no), (false, .no), (false, .no), (false, .no), (false, .yes)]

/-- The BMC thread finds a counterexample in its first frame. -/
def bmcSteps : List (Bool × Choice) := [(true, .no), (true, .yes), (true, .no)]

end Sample

/-- The PDR thread is first; the BMC thread does not publish its counterexample. -/
theorem verdict_final_proved :
    Workers.AgreeingRun true (.start Sample.twoThreads)
      (Sample.pdrSteps ++ [(false, .no), (false, .no)] ++ Sample.bmcSteps) ∧
    ((Workers.start Sample.twoThreads).run true
      (Sample.pdrSteps ++ [(false, .no), (false, .no)] ++ Sample.bmcSteps)).RESULT = 20 ∧
    ((Workers.start Sample.twoThreads).run true
      (Sample.pdrSteps ++ [(false, .no), (false, .no)] ++ Sample.bmcSteps)).witnesses ≤ 1 := by
  have ha : Workers.AgreeingRun true (.start Sample.twoThreads)
      (Sample.pdrSteps ++ [(false, .no), (false, .no)] ++ Sample.bmcSteps) := by
    simp only [Sample.pdrSteps, Sample.bmcSteps, List.cons_append, List.nil_append,
      Workers.AgreeingRun]
    decide
  have hstart : ∀ i, (Sample.twoThreads i).IsStart := by
    intro i
    cases i
    · exact .inl rfl
    · exact .inr rfl
  obtain ⟨hkeep, _, hw⟩ := verdict_final true Sample.twoThreads hstart _ ha
  refine ⟨ha, ?_, hw⟩
  rw [hkeep (Sample.pdrSteps ++ [(false, .no), (false, .no)]) Sample.bmcSteps rfl (by decide)]
  decide

/-- The BMC thread publishes a counterexample while the PDR thread is at the end of `propagate`; then
`RESULT` is set to 20. -/
theorem verdict_overwritten :
    (∀ i, (Sample.twoThreads i).IsStart) ∧
    ((Workers.start Sample.twoThreads).run true (Sample.pdrSteps ++ Sample.bmcSteps)).RESULT = 10 ∧
    ((Workers.start Sample.twoThreads).run true
      (Sample.pdrSteps ++ Sample.bmcSteps ++ [(false, .no), (false, .no)])).RESULT = 20 := by
  refine ⟨fun i => ?_, by decide, by decide⟩
  cases i
  · exact .inl rfl
  · exact .inr rfl

end ModelChecker
