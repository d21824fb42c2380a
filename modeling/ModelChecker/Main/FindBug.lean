import ModelChecker.Main.Liveness

/-!
# Find-bug mode

With `-findbug` there is one BMC thread for each property. The index that a thread draws from
`current_bmc_execution` says which property is its. Every thread solves all of its frames, and all of them
stop at the first counterexample.
-/

namespace ModelChecker

open Logic

/-- What `main` fixes before it starts the threads; the array `tbug` has room for them. -/
structure BugHunt where
  circuit : Circuit
  nframes : Nat
  propertyIndex : Nat
  solver : Fin circuit.allbad.length → Ipasir
  room : circuit.allbad.length ≤ 64

/-- The threads, `RESULT`, the counter for their indices and the number of witnesses printed so far. -/
structure BugState (n : Nat) where
  RESULT : Int := 0
  threads : Fin n → Thread
  draw : Tickets (Fin n) := {}
  witnesses : Nat := 0

namespace BugHunt

variable (H : BugHunt)

/-- `num_property` -/
abbrev num_property : Nat := H.circuit.allbad.length

/-- The `BMC` object of a thread; its index is that of its property, and `bmc_thread` is 1. -/
def config (t : Fin H.num_property) : BmcConfig where
  circuit := H.circuit
  nframes := H.nframes
  thread_index := t
  max_thread_index := 1
  find_bug_only := true
  propertyIndex := H.propertyIndex
  property_lt := t.isLt

/-- `initialize` does the same whatever the index is. -/
def start : BugState H.num_property := { threads := fun i => (H.config i).startThread }

/-- A thread takes its next step: it increments `current_bmc_execution`, which is not atomic, and goes on with
the property whose index it has drawn. Witnesses are always printed. -/
def stepOf (i : Fin H.num_property) (time : Nat) (terminated : Bool) (s : BugState H.num_property) :
    BugState H.num_property :=
  match s.draw.slot i with
  | .waiting => { s with draw := s.draw.load i }
  | .loaded index => { s with draw := s.draw.store i index }
  | .drawn index =>
    if h : index < H.num_property then
      let r := (H.config ⟨index, h⟩).threadStep (H.solver i) time terminated s.RESULT (s.threads i)
      { s with
        RESULT := r.2
        threads := Function.update s.threads i r.1
        witnesses := if (s.threads i).phase = .found ∧ s.RESULT = 0 then s.witnesses + 1 else s.witnesses }
    else { s with threads := Function.update s.threads i { s.threads i with phase := .undefined } }

/-- A step of one thread, which is stopped only after `RESULT` was set. -/
inductive Step : Fin H.num_property → BugState H.num_property → BugState H.num_property → Prop
  | step {s : BugState H.num_property} {i : Fin H.num_property} {time : Nat} {terminated : Bool}
      (hterm : terminated = true → s.RESULT ≠ 0) : Step i s (H.stepOf i time terminated s)

/-- The thread has room for its step. -/
def Room (i : Fin H.num_property) (s : BugState H.num_property) : Prop :=
  ∀ t : Fin H.num_property, s.draw.slot i = .drawn t → (H.config t).Room s.RESULT (s.threads i)

instance (i : Fin H.num_property) (s : BugState H.num_property) : Decidable (H.Room i s) :=
  inferInstanceAs (Decidable (∀ _, _ → _))

/-- The steps that have room. -/
def StepIn (i : Fin H.num_property) (s s' : BugState H.num_property) : Prop := H.Room i s ∧ H.Step i s s'

/-- All threads have returned, so that `main` is past its calls of `pthread_join`. -/
def Joined (s : BugState H.num_property) : Prop := ∀ i, ∃ v, (s.threads i).phase = .returned v

/-- One of the properties has a counterexample within the frames. -/
def HasBug : Prop := ∃ t k, k ≤ H.nframes ∧ (H.config t).HasCex k

/-- One of those whose index a thread has drawn. -/
def Finds (s : BugState H.num_property) : Prop :=
  ∃ i, ∃ t : Fin H.num_property, s.draw.slot i = .drawn t ∧ (H.config t).Finds

/-- What a thread keeps; it has done nothing before it has its index. -/
structure HunterOk (R : Int) (i : Fin H.num_property) (d : Slot) (x : Thread) : Prop where
  thread : ∀ t : Fin H.num_property, d = .drawn t → ThreadOk (H.config t) R x
  waiting : d.number = none → x = (H.config i).startThread
  defined : x.phase ≠ .undefined
  found : x.phase = .returned 10 → R ≠ 0

/-- What every run keeps. -/
structure Ok (s : BugState H.num_property) : Prop where
  values : s.RESULT = 0 ∧ s.witnesses = 0 ∨ s.RESULT = 10 ∧ s.witnesses = 1 ∧ H.Finds s
  threads : ∀ i, H.HunterOk s.RESULT i (s.draw.slot i) (s.threads i)
  draw : s.draw.Ok Finset.univ

variable {H} {s s' : BugState H.num_property} {i : Fin H.num_property}

theorem HunterOk.mono {R R' : Int} {d : Slot} {x : Thread} (h : H.HunterOk R i d x) (hR : R ≠ 0 → R' ≠ 0) :
    H.HunterOk R' i d x :=
  ⟨fun t hd => (h.thread t hd).mono hR, h.waiting, h.defined, fun hx => hR (h.found hx)⟩

theorem HunterOk.drawn {R v : Int} {d : Slot} {x : Thread} (h : H.HunterOk R i d x)
    (hx : x.phase = .returned v) : ∃ t, d = .drawn t := by
  cases hd : d with
  | drawn t => exact ⟨t, rfl⟩
  | _ =>
      rw [h.waiting (by rw [hd]; rfl)] at hx
      cases hx

theorem Finds.hasBug (h : H.Finds s) : H.HasBug := by
  obtain ⟨_, t, _, k, hk, _, hf⟩ := h
  exact ⟨t, k, hk, hf.hasCex⟩

theorem Finds.mono (h : H.Finds s) (hkeep : ∀ j t, s.draw.slot j = .drawn t → s'.draw.slot j = .drawn t) :
    H.Finds s' := by
  obtain ⟨j, t, hd, hf⟩ := h
  exact ⟨j, t, hkeep j t hd, hf⟩

theorem Ok.index_lt (h : H.Ok s) {index : Nat} (hd : s.draw.slot i = .drawn index) : index < H.num_property := by
  have hlt := h.draw.drawn i (Finset.mem_univ i) index hd
  rwa [Finset.card_univ, Fintype.card_fin] at hlt

theorem ok_start : H.Ok H.start where
  values := .inl ⟨rfl, rfl⟩
  threads _ := ⟨fun _ h => Slot.noConfusion h, fun _ => rfl, Phase.noConfusion, fun h => Phase.noConfusion h⟩
  draw := Tickets.ok_start _

theorem Ok.load (h : H.Ok s) (hw : s.draw.slot i = .waiting) : H.Ok { s with draw := s.draw.load i } := by
  refine ⟨?_, fun j => ?_, h.draw.load hw⟩
  · exact h.values.imp id fun ⟨h10, h1, hf⟩ =>
      ⟨h10, h1, hf.mono fun j t => (Tickets.load_keeps hw j t).mpr⟩
  · have hj := h.threads j
    by_cases he : j = i
    · subst he
      have hslot : (s.draw.load j).slot j = .loaded s.draw.counter := Function.update_self _ _ _
      simp only [hslot]
      exact ⟨fun _ hd => Slot.noConfusion hd, fun _ => hj.waiting (by rw [hw]; rfl), hj.defined, hj.found⟩
    · have hslot : (s.draw.load i).slot j = s.draw.slot j := Function.update_of_ne he _ _
      simp only [hslot]
      exact hj

theorem Ok.store (h : H.Ok s) {index : Nat} (hl : s.draw.slot i = .loaded index) :
    H.Ok { s with draw := s.draw.store i index } := by
  refine ⟨?_, fun j => ?_, h.draw.store (Finset.mem_univ i) hl⟩
  · exact h.values.imp id fun ⟨h10, h1, hf⟩ => ⟨h10, h1, hf.mono (Tickets.store_keeps hl)⟩
  · have hj := h.threads j
    by_cases he : j = i
    · subst he
      have hslot : (s.draw.store j index).slot j = .drawn index := Function.update_self _ _ _
      have hstart := hj.waiting (by rw [hl]; rfl)
      simp only [hslot]
      refine ⟨fun t _ => ?_, fun hn => ?_, hj.defined, hj.found⟩
      · rw [hstart]
        exact (ThreadOk.start (H.config t)).mono fun h0 => absurd rfl h0
      · cases hn
    · have hslot : (s.draw.store i index).slot j = s.draw.slot j := Function.update_of_ne he _ _
      simp only [hslot]
      exact hj

theorem Ok.threadStep (h : H.Ok s) {t : Fin H.num_property} (hd : s.draw.slot i = .drawn t) {time : Nat}
    {terminated : Bool} (hterm : terminated = true → s.RESULT ≠ 0)
    (hroom : (H.config t).Room s.RESULT (s.threads i)) {r : Thread × Int}
    (hr : r = (H.config t).threadStep (H.solver i) time terminated s.RESULT (s.threads i)) :
    H.Ok { s with
      RESULT := r.2
      threads := Function.update s.threads i r.1
      witnesses := if (s.threads i).phase = .found ∧ s.RESULT = 0 then s.witnesses + 1 else s.witnesses } := by
  have hi := h.threads i
  obtain ⟨hx, hcases⟩ := Working.step ⟨hi.thread t hd, hi.defined, hi.found⟩ (H.solver i) time hroom hterm hr
  refine ⟨?_, fun j => ?_, h.draw⟩
  · rcases hcases with ⟨heq, hno⟩ | ⟨h0, h10, hph, hf⟩
    · simp only [if_neg hno, heq]
      exact h.values
    · have hw : s.witnesses = 0 := by
        rcases h.values with ⟨_, hw⟩ | ⟨hR, _⟩
        · exact hw
        · rw [h0] at hR
          cases hR
      simp only [if_pos (And.intro hph h0), h10, hw]
      exact .inr ⟨trivial, trivial, i, t, hd, hf⟩
  · by_cases he : j = i
    · subst he
      simp only [Function.update_self]
      refine ⟨fun t' hd' => ?_, fun hn => ?_, hx.defined, hx.found⟩
      · obtain rfl : t = t' := by
          rw [hd] at hd'
          exact Fin.ext (Slot.drawn.inj hd')
        exact hx.thread
      · rw [hd] at hn
        cases hn
    · simp only [Function.update_of_ne he]
      refine (h.threads j).mono fun hne => ?_
      rcases hcases with ⟨heq, _⟩ | ⟨h0, _⟩
      · rw [heq]
        exact hne
      · exact absurd h0 hne

theorem Ok.step (h : H.Ok s) (hs : H.StepIn i s s') : H.Ok s' := by
  obtain ⟨hroom, ⟨hterm⟩⟩ := hs
  unfold stepOf
  cases hslot : s.draw.slot i with
  | waiting => exact h.load hslot
  | loaded index => exact h.store hslot
  | drawn index =>
      have hlt := h.index_lt hslot
      simp only [dif_pos hlt]
      exact h.threadStep (t := ⟨index, hlt⟩) hslot hterm (hroom _ hslot) rfl

theorem owns (t : Fin H.num_property) (k : Nat) : (H.config t).Owns k := fun h => h.1 rfl

/-- At the end a bug is reported if and only if one of the properties that are looked at has one. -/
theorem Ok.joined (h : H.Ok s) (hj : H.Joined s) : s.RESULT = 10 ↔ H.Finds s := by
  constructor
  · intro h10
    rcases h.values with ⟨h0, _⟩ | ⟨_, _, hf⟩
    · rw [h0] at h10
      cases h10
    · exact hf
  · rintro ⟨i, t, hd, hf⟩
    rcases h.values with ⟨h0, _⟩ | ⟨h10, _⟩
    · exfalso
      obtain ⟨v, hv⟩ := hj i
      have hok := (h.threads i).thread t hd
      unfold ThreadOk at hok
      rw [hv] at hok
      rcases hok with ⟨hv10, _⟩ | ⟨_, hne | hp⟩
      · exact (h.threads i).found (by rw [hv, hv10]) h0
      · exact hne h0
      · exact hp.not_finds hf
    · exact h10

/-- If no increment of the counter was lost, all properties are looked at. -/
theorem Ok.finds (h : H.Ok s) (hc : s.draw.counter = H.num_property) (hbug : H.HasBug) : H.Finds s := by
  obtain ⟨t, k, hk, hcex⟩ := hbug
  obtain ⟨j, hj, hf⟩ := hcex.exists_first
  have hcard : (Finset.univ : Finset (Fin H.num_property)).card = H.num_property := by
    rw [Finset.card_univ, Fintype.card_fin]
  obtain ⟨i, _, hd⟩ := h.draw.all_drawn (by rw [hc, hcard]) t (by rw [hcard]; exact t.isLt)
  exact ⟨i, t, hd, j, hj.trans hk, owns t j, hf⟩

/-- That is so with one property. -/
theorem Ok.counter_single (h : H.Ok s) (hj : H.Joined s) (hm : H.num_property = 1) :
    s.draw.counter = H.num_property := by
  have hcard : (Finset.univ : Finset (Fin H.num_property)).card = H.num_property := by
    rw [Finset.card_univ, Fintype.card_fin]
  rw [h.draw.counter_single (by rw [hcard, hm]) fun i _ => ?_, hcard]
  obtain ⟨v, hv⟩ := hj i
  exact (h.threads i).drawn hv

/-! ## Runs -/

variable {f : Nat → BugState H.num_property}

/-- The thread has returned. -/
def Done (i : Fin H.num_property) (s : BugState H.num_property) : Prop := ∃ v, (s.threads i).phase = .returned v

theorem runs_ok (h0 : f 0 = H.start) (hrun : IsRun H.StepIn f) (n : Nat) : H.Ok (f n) :=
  hrun.invariant (by rw [h0]; exact ok_start) (fun _ _ _ hok hs => hok.step hs) n

/-- The steps that the thread may still take. -/
def left (i : Fin H.num_property) (s : BugState H.num_property) : Nat :=
  Session.stepsLeft H.nframes (s.threads i) + (s.draw.slot i).left

/-- The steps of other threads, and those of a thread that has returned, leave the thread as it is. -/
theorem Ok.step_same (h : H.Ok s) {e : Fin H.num_property} (hs : H.Step e s s') (hi : e ≠ i ∨ Done i s) :
    s'.threads i = s.threads i ∧ s'.draw.slot i = s.draw.slot i := by
  obtain ⟨hterm⟩ := hs
  unfold stepOf
  by_cases he : i = e
  · subst he
    obtain ⟨v, hv⟩ := hi.resolve_left fun h => h rfl
    obtain ⟨t, hd⟩ := (h.threads i).drawn hv
    simp only [hd, dif_pos (h.index_lt hd), Function.update_self, BmcConfig.threadStep, hv, and_self]
  · cases hslot : s.draw.slot e with
    | waiting => exact ⟨rfl, Function.update_of_ne he _ _⟩
    | loaded index => exact ⟨rfl, Function.update_of_ne he _ _⟩
    | drawn index =>
        simp only
        split <;> exact ⟨Function.update_of_ne he _ _, rfl⟩

theorem Ok.left_lt (h : H.Ok s) (hs : H.Step i s s') (hd : ¬ Done i s) : left i s' < left i s := by
  obtain ⟨hterm⟩ := hs
  unfold stepOf left
  cases hslot : s.draw.slot i with
  | waiting =>
      simp only [Tickets.load, Function.update_self, Slot.left]
      omega
  | loaded index =>
      simp only [Tickets.store, Function.update_self, Slot.left]
      omega
  | drawn index =>
      have hi := h.threads i
      have hlt := h.index_lt hslot
      simp only [dif_pos hlt, hslot, Function.update_self]
      exact Nat.add_lt_add_right (Session.stepsLeft_lt (hi.thread ⟨index, hlt⟩ hslot) (fun v hv => hd ⟨v, hv⟩)
        hi.defined _ _ _) _

theorem runs_done (h0 : f 0 = H.start) (hrun : IsRun H.StepIn f) {m n : Nat} (hmn : m ≤ n)
    (hd : Done i (f m)) : Done i (f n) := by
  refine hrun.related (R := fun s s' => Done i s → Done i s') (fun _ h => h)
    (fun _ _ _ h1 h2 hd => h2 (h1 hd)) (fun k e he hd => ?_) hmn hd
  have heq := ((runs_ok h0 hrun k).step_same he.2 (.inr hd)).1
  obtain ⟨v, hv⟩ := hd
  exact ⟨v, by rw [heq]; exact hv⟩

theorem runs_return (h0 : f 0 = H.start) (hrun : IsRun H.StepIn f) (hfair : Fair H.StepIn i (Done i) f) :
    ∃ n, Done i (f n) := by
  refine hfair.eventually_done (left i) (fun n => ?_) fun n hd hs => (runs_ok h0 hrun n).left_lt hs.2 hd
  rcases hrun n with heq | ⟨e, he⟩
  · rw [heq]
  · have hok := runs_ok h0 hrun n
    by_cases hsame : e ≠ i ∨ Done i (f n)
    · obtain ⟨h1, h2⟩ := hok.step_same he.2 hsame
      unfold left
      rw [h1, h2]
    · push Not at hsame
      obtain ⟨rfl, hd⟩ := hsame
      exact (hok.left_lt he.2 hd).le

theorem runs_joined (h0 : f 0 = H.start) (hrun : IsRun H.StepIn f) (hfair : ∀ i, Fair H.StepIn i (Done i) f) :
    ∃ N, ∀ n, N ≤ n → H.Joined (f n) := by
  obtain ⟨N, hN⟩ := exists_all_of_eventually (P := fun i n => ∀ h : i < H.num_property, Done ⟨i, h⟩ (f n))
    (fun i m n hmn hP h => runs_done h0 hrun hmn (hP h)) H.num_property fun i hi => by
      obtain ⟨n, hn⟩ := runs_return h0 hrun (hfair ⟨i, hi⟩)
      exact ⟨n, fun _ => hn⟩
  exact ⟨N, fun n hn i => runs_done h0 hrun hn (hN i i.isLt i.isLt)⟩

/-- The next step of thread `m.1`, which is not stopped, at time `m.2` of its solver. -/
def move (H : BugHunt) (m : Fin H.num_property × Nat) (s : BugState H.num_property) : BugState H.num_property :=
  H.stepOf m.1 m.2 false s

/-- The thread has room. -/
def MoveOk (H : BugHunt) (m : Fin H.num_property × Nat) (s : BugState H.num_property) : Prop := H.Room m.1 s

instance (m : Fin H.num_property × Nat) (s : BugState H.num_property) : Decidable (H.MoveOk m s) :=
  inferInstanceAs (Decidable (H.Room m.1 s))

theorem stepIn_move (m : Fin H.num_property × Nat) (s : BugState H.num_property) (h : H.MoveOk m s) :
    ∃ e, H.StepIn e s (H.move m s) := ⟨m.1, h, .step fun hf => Bool.noConfusion hf⟩

end BugHunt

end ModelChecker
