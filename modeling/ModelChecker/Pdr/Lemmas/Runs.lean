import ModelChecker.Pdr.Lemmas.Solvers

/-!
# Steps of a run

Weakest preconditions of the elementary steps, and the invariant under changes that leave the cubes,
the queue and the state objects of the queue alone.
-/

namespace ModelChecker

open Logic

variable {A : Circuit} {E : Eliminator} {n : Nat}

section Wp

variable {env : PdrEnv} {F : Run → Prop} {r : Run}

@[simp] theorem wp_getP {Q : PDR → Run → Prop} : (getP).Wp Q F r ↔ Q r.pdr r := Iff.rfl

@[simp] theorem wp_modifyP {f : PDR → PDR} {Q : Unit → Run → Prop} :
    (modifyP f).Wp Q F r ↔ Q () (r.setP (f r.pdr)) := Iff.rfl

@[simp] theorem wp_record {Q : Unit → Run → Prop} : (record).Wp Q F r ↔ Q () r.record := Iff.rfl

@[simp] theorem wp_ask {q : Query} {Q : Answer → Run → Prop} :
    (ask env q).Wp Q F r ↔ Q (env.solver.solve r.clock q) r.tick := Iff.rfl

@[simp] theorem wp_reorder {c : Cube} {Q : Cube → Run → Prop} :
    (reorder env c).Wp Q F r ↔ Q (env.order r.clock c) r.tick := Iff.rfl

@[simp] theorem wp_readRESULT {Q : Int → Run → Prop} :
    (readRESULT env).Wp Q F r ↔ Q (env.RESULT r.clock) r.tick := Iff.rfl

@[simp] theorem wp_newState {st : State} {Q : Nat → Run → Prop} :
    (newState st).Wp Q F r ↔
      Q r.pdr.states.length (r.setP (r.pdr.pushState st)) := Iff.rfl

variable {p : PDR}

@[simp] theorem tick_pdr : r.tick.pdr = r.pdr := rfl

@[simp] theorem tick_blocked : r.tick.blocked = r.blocked := rfl

@[simp] theorem tick_hist : r.tick.hist = r.hist := rfl

@[simp] theorem tick_clock : r.tick.clock = r.clock + 1 := rfl

@[simp] theorem setP_pdr : (r.setP p).pdr = p := rfl

@[simp] theorem setP_blocked : (r.setP p).blocked = r.blocked := rfl

@[simp] theorem setP_hist : (r.setP p).hist = r.hist := rfl

@[simp] theorem setP_clock : (r.setP p).clock = r.clock := rfl

@[simp] theorem record_pdr : r.record.pdr = r.pdr := rfl

@[simp] theorem record_blocked : r.record.blocked = r.blocked := rfl

end Wp

/-! ## Changes that leave the abstract state alone -/

/-- The members of state object `s` that a counterexample is read from. -/
def SameState (p p' : PDR) (s : Nat) : Prop :=
  (p'.state s).latches = (p.state s).latches ∧ (p'.state s).inputs = (p.state s).inputs ∧
    (p'.state s).next = (p.state s).next

theorem Path.change {p p' : PDR} (h : ∀ s, s < n → SameState p p' s) {s : Nat} {L : List (List Int)}
    (hp : Path p n s L) : Path p' n s L := by
  induction hp with
  | last hs hn =>
      obtain ⟨_, hi, hx⟩ := h _ hs
      rw [← hi]
      exact .last hs (hx.trans hn)
  | step hs hn _ ih =>
      obtain ⟨_, hi, hx⟩ := h _ hs
      rw [← hi]
      exact .step hs (hx.trans hn) ih

theorem Path.lt {p : PDR} {s : Nat} {L : List (List Int)} (hp : Path p n s L) : s < n := by
  cases hp <;> assumption

theorem Path.mono {p : PDR} {m s : Nat} {L : List (List Int)} (hp : Path p n s L) (h : n ≤ m) :
    Path p m s L := by
  induction hp with
  | last hs hn => exact .last (by omega) hn
  | step hs hn _ ih => exact .step (by omega) hn ih

theorem Chained.change {p p' : PDR} (h : ∀ s, s < n → SameState p p' s) {s : Nat}
    (hc : Chained A p n s) : Chained A p' n s := by
  obtain ⟨L, hp, hin, hf⟩ := hc
  refine ⟨L, hp.change h, hin, fun w hw => hf w ?_⟩
  rw [← (h s hp.lt).1]
  exact hw

theorem Chained.of_states {p p' : PDR} (h : p'.states = p.states) {s : Nat}
    (hc : Chained A p n s) : Chained A p' n s := by
  refine hc.change fun t _ => ?_
  unfold SameState PDR.state
  rw [h]
  exact ⟨rfl, rfl, rfl⟩

theorem Chained.mono {p : PDR} {m s : Nat} (hc : Chained A p n s) (h : n ≤ m) : Chained A p m s := by
  obtain ⟨L, hp, hin, hf⟩ := hc
  exact ⟨L, hp.mono h, hin, hf⟩

/-- The same cubes, queue and state objects, read through other solvers. -/
structure Quiet (n : Nat) (r r' : Run) : Prop where
  len : r'.pdr.frames.length = r.pdr.frames.length
  cubes : ∀ j, (r'.pdr.frame j).cubes = (r.pdr.frame j).cubes
  queue : r'.pdr.obligation_queue = r.pdr.obligation_queue
  blocked : r'.blocked = r.blocked
  heap : ∀ s, s < n → SameState r.pdr r'.pdr s
  size : r.pdr.states.length ≤ r'.pdr.states.length

theorem Quiet.refl (n : Nat) (r : Run) : Quiet n r r :=
  ⟨rfl, fun _ => rfl, rfl, rfl, fun _ _ => ⟨rfl, rfl, rfl⟩, le_rfl⟩

theorem Quiet.trans {r r' r'' : Run} (h : Quiet n r r') (h' : Quiet n r' r'') : Quiet n r r'' where
  len := h'.len.trans h.len
  cubes j := (h'.cubes j).trans (h.cubes j)
  queue := h'.queue.trans h.queue
  blocked := h'.blocked.trans h.blocked
  heap s hs := by
    obtain ⟨h1, h2, h3⟩ := h.heap s hs
    obtain ⟨h1', h2', h3'⟩ := h'.heap s hs
    exact ⟨h1'.trans h1, h2'.trans h2, h3'.trans h3⟩
  size := h.size.trans h'.size

theorem Quiet.cubes_eq {r r' : Run} (h : Quiet n r r') : r'.pdr.cubes = r.pdr.cubes := by
  funext j
  simp [PDR.cubes, h.cubes j]

theorem Quiet.abs_eq {r r' : Run} (h : Quiet n r r')
    (hq : ∀ o ∈ r.pdr.obligation_queue, o.state < n) :
    r'.pdr.abs r'.blocked = r.pdr.abs r.blocked := by
  unfold PDR.abs
  rw [h.len, h.cubes_eq, h.blocked, h.queue]
  congr 1
  ext q
  constructor
  · rintro ⟨o, ho, rfl⟩; exact ⟨o, ho, by rw [(h.heap _ (hq o ho)).1]⟩
  · rintro ⟨o, ho, rfl⟩; exact ⟨o, ho, by rw [(h.heap _ (hq o ho)).1]⟩

theorem Quiet.evolves {r r' : Run} (h : Quiet n r r')
    (he : r'.pdr.earliest_strengthened_frame = r.pdr.earliest_strengthened_frame)
    (hc : r'.pdr.cex_states = r.pdr.cex_states) : Evolves n r r' where
  len := h.len
  stronger i w hw := by rw [h.cubes_eq] at hw; exact hw
  queue := h.queue
  blocked := h.blocked
  heap := h.heap
  size := h.size
  earliest := by rw [he]; exact id
  cex := hc

/-- Time and history do not matter. -/
theorem Evolves.same_pdr {r r' r'' : Run} (h : Evolves n r r') (hp : r''.pdr = r'.pdr)
    (hb : r''.blocked = r'.blocked) : Evolves n r r'' := by
  constructor
  all_goals first | rw [hp] | rw [hb]
  exacts [h.len, h.stronger, h.queue, h.blocked, h.heap, h.size, h.earliest, h.cex]

theorem Evolves.tick (n : Nat) (r : Run) : Evolves n r r.tick := (Evolves.refl n r).same_pdr rfl rfl

theorem Inv.quiet {r r' : Run} (h : Inv A E n r) (hq : Quiet n r r') (hs : Shape A E r'.pdr)
    (hst : Stored A E r'.pdr) (hh : HistGood A E r') : Inv A E n r' where
  shape := hs
  stored := hst
  reach := by rw [hq.abs_eq fun o ho => (h.queue o ho).1]; exact h.reach
  queue o ho := by
    rw [hq.queue] at ho
    unfold PDR.depth
    rw [hq.len]
    exact h.queue o ho
  chains hc o ho := by
    rw [hq.queue] at ho
    exact (h.chains hc o ho).change hq.heap
  size := h.size.trans hq.size
  hist := hh

theorem Inv.good {r : Run} (h : Inv A E n r) : Good A E r.pdr := ⟨h.shape, h.stored, _, h.reach⟩

theorem Inv.hist_cons {r : Run} (h : Inv A E n r) : ∀ p ∈ r.pdr :: r.hist, Good A E p := by
  intro p hp
  rcases List.mem_cons.mp hp with rfl | hp
  · exact h.good
  · exact h.hist p hp

/-- Recording the state keeps the invariant. -/
theorem Inv.record {r : Run} (h : Inv A E n r) : Inv A E n r.record :=
  ⟨h.shape, h.stored, h.reach, h.queue, h.chains, h.size, h.hist_cons⟩

theorem Inv.tick {r : Run} (h : Inv A E n r) : Inv A E n r.tick :=
  ⟨h.shape, h.stored, h.reach, h.queue, h.chains, h.size, h.hist⟩

/-- The invariant may allow more state objects in the queue. -/
theorem Inv.mono {r : Run} (h : Inv A E n r) {m : Nat} (hn : n ≤ m) (hm : m ≤ r.pdr.states.length) :
    Inv A E m r where
  shape := h.shape
  stored := h.stored
  reach := h.reach
  queue o ho := ⟨(h.queue o ho).1.trans_le hn, (h.queue o ho).2⟩
  chains hc o ho := (h.chains hc o ho).mono hn
  size := hm
  hist := h.hist

/-- Members that the invariant does not read. -/
theorem Stored.of_frames {p p' : PDR} (h : Stored A E p) (hf : p'.frames = p.frames) :
    Stored A E p' := by
  have hfr : ∀ j, p'.frame j = p.frame j := by intro j; unfold PDR.frame; rw [hf]
  refine ⟨?_, ?_, ?_⟩
  · intro i j c hi hij hc
    rw [hfr] at hc ⊢
    exact h.stored i j c hi hij hc
  · intro i d hi hd hm
    rw [hf] at hi
    rw [hfr] at hm
    obtain ⟨h1, j, hj, c, hc, hcd⟩ := h.lemmas i d hi hd hm
    exact ⟨h1, j, hj, c, by rw [hfr]; exact hc, hcd⟩
  · rw [hfr]; exact h.level0

end ModelChecker
