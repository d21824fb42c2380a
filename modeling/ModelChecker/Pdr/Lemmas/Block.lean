import ModelChecker.Pdr.Lemmas.Adds
import ModelChecker.Pdr.Lemmas.Generalize

/-!
# Blocking obligations

The steps of `rec_block_cube` are steps of the abstract machine, and without constraints every queued
state object is the start of a counterexample.
-/

namespace ModelChecker

open Logic

variable {A : Circuit} {E : Eliminator} {n k : Nat} {r : Run} {env : PdrEnv}

/-! ## The queue -/

theorem Inv.dequeue (hI : Inv A E n r) {q : List Obligation} (hq : q ⊆ r.pdr.obligation_queue) :
    Inv A E n (r.setP (r.pdr.setQueue q)) where
  shape := { hI.shape with }
  stored := hI.stored.of_frames rfl
  reach := by
    refine Ic3.Reachable.dequeue (q := {x | ∃ o ∈ q, x = ((r.pdr.state o.state).latches, o.frame_k)})
      hI.reach ?_
    rintro x ⟨o, ho, rfl⟩
    exact ⟨o, hq ho, rfl⟩
  queue o ho := hI.queue o (hq ho)
  chains hc o ho := .of_states (p := r.pdr) (by rfl) (hI.chains hc o (hq ho))
  size := hI.size
  hist := hI.hist

/-- One more obligation, if the abstract machine may queue it. -/
theorem Inv.insertObligation (hI : Inv A E n r) {o : Obligation} (ho : o.state < n)
    (hk : o.frame_k ≤ r.pdr.depth)
    (hreach : Ic3.Reachable A.system InCube { r.pdr.abs r.blocked with
      queue := insert ((r.pdr.state o.state).latches, o.frame_k) (r.pdr.abs r.blocked).queue })
    (hch : A.constraints = [] → Chained A r.pdr n o.state) :
    Inv A E n (r.setP (r.pdr.setQueue (setInsert Obligation.lt o r.pdr.obligation_queue))) where
  shape := { hI.shape with }
  stored := hI.stored.of_frames rfl
  reach := by
    have habs : (r.pdr.setQueue (setInsert Obligation.lt o r.pdr.obligation_queue)).abs r.blocked =
        { r.pdr.abs r.blocked with
          queue := insert ((r.pdr.state o.state).latches, o.frame_k) (r.pdr.abs r.blocked).queue } := by
      unfold PDR.abs
      congr 1
      ext x
      simp only [PDR.setQueue, Set.mem_ofPred_eq, Set.mem_insert_iff, mem_setInsert obligation_separates]
      constructor
      · rintro ⟨o', rfl | ho', rfl⟩
        · exact Or.inl rfl
        · exact Or.inr ⟨o', ho', rfl⟩
      · rintro (rfl | ⟨o', ho', rfl⟩)
        · exact ⟨o, Or.inl rfl, rfl⟩
        · exact ⟨o', Or.inr ho', rfl⟩
    simp only [setP_pdr, setP_blocked, habs]
    exact hreach
  queue o' ho' := by
    rcases (mem_setInsert obligation_separates).mp ho' with rfl | ho'
    · exact ⟨ho, hk⟩
    · exact hI.queue o' ho'
  chains hc o' ho' := by
    refine .of_states (p := r.pdr) (by rfl) ?_
    rcases (mem_setInsert obligation_separates).mp ho' with rfl | ho'
    · exact hch hc
    · exact hI.chains hc o' ho'
  size := hI.size
  hist := hI.hist

theorem Inv.block (hI : Inv A E n r) {o : Obligation} (ho : o ∈ r.pdr.obligation_queue) :
    Inv A E n (r.block (r.pdr.state o.state).latches) where
  shape := hI.shape
  stored := hI.stored
  reach := by
    have habs : r.pdr.abs ((r.pdr.state o.state).latches :: r.blocked) =
        { r.pdr.abs r.blocked with
          blocked := insert (r.pdr.state o.state).latches (r.pdr.abs r.blocked).blocked } := by
      unfold PDR.abs
      congr 1
      ext c
      simp
    show Ic3.Reachable _ _ (r.pdr.abs ((r.pdr.state o.state).latches :: r.blocked))
    rw [habs]
    exact .block hI.reach ⟨o, ho, rfl⟩
  queue := hI.queue
  chains := hI.chains
  size := hI.size
  hist := hI.hist

/-- Members of state objects that no counterexample is read from. -/
theorem Inv.touchState (hI : Inv A E n r) (s : Nat) {f : State → State}
    (hf : ∀ st, (f st).latches = st.latches ∧ (f st).inputs = st.inputs ∧ (f st).next = st.next) :
    Inv A E n (r.setP (r.pdr.setState s f)) ∧ Evolves n r (r.setP (r.pdr.setState s f)) := by
  have hquiet : Quiet n r (r.setP (r.pdr.setState s f)) := by
    refine ⟨rfl, fun _ => rfl, rfl, rfl, fun t _ => ?_, by simp⟩
    unfold SameState
    by_cases hs : s < r.pdr.states.length
    · rw [setP_pdr, PDR.state_setState hs]
      split
      · exact hf _
      · exact ⟨rfl, rfl, rfl⟩
    · rw [setP_pdr, PDR.setState_of_ge (by omega)]; exact ⟨rfl, rfl, rfl⟩
  refine ⟨hI.quiet hquiet (hI.shape.setState ?_) (hI.stored.of_frames rfl) hI.hist, hquiet.evolves rfl rfl⟩
  rw [(hf _).1]
  exact hI.shape.states s

theorem Inv.onNext (hI : Inv A E n r) (s : Nat) {f : State → State}
    (hf : ∀ st, (f st).latches = st.latches ∧ (f st).inputs = st.inputs ∧ (f st).next = st.next) :
    Inv A E n (r.setP (r.pdr.onNext s f)) ∧ Evolves n r (r.setP (r.pdr.onNext s f)) ∧
      (r.pdr.onNext s f).tmp_core = r.pdr.tmp_core := by
  unfold PDR.onNext
  split
  · obtain ⟨h1, h2⟩ := hI.touchState _ hf
    exact ⟨h1, h2, rfl⟩
  · exact ⟨hI, .refl _ _, rfl⟩

/-- What holds from one round of `rec_block_cube` to the next. -/
structure Keeps (r r' : Run) : Prop where
  len : r'.pdr.frames.length = r.pdr.frames.length
  earliest : 1 ≤ r.pdr.earliest_strengthened_frame → 1 ≤ r'.pdr.earliest_strengthened_frame
  cex : r'.pdr.cex_states = r.pdr.cex_states

theorem Keeps.refl (r : Run) : Keeps r r := ⟨rfl, id, rfl⟩

theorem Keeps.trans {r r' r'' : Run} (h : Keeps r r') (h' : Keeps r' r'') : Keeps r r'' :=
  ⟨h'.len.trans h.len, fun he => h'.earliest (h.earliest he), h'.cex.trans h.cex⟩

theorem Evolves.keeps {r' : Run} (h : Evolves n r r') : Keeps r r' := ⟨h.len, h.earliest, h.cex⟩

theorem eraseObligation_spec (hI : Inv A E n r) :
    (eraseObligation).Wp (fun _ r' => Inv A E n r' ∧ Keeps r r' ∧
      r'.pdr = r.pdr.setQueue r.pdr.obligation_queue.tail ∧ r'.blocked = r.blocked)
      (HistGood A E) r :=
  ⟨(hI.dequeue (List.tail_subset _)).record, ⟨rfl, id, rfl⟩, rfl, rfl⟩

/-! ## Blocked obligations -/

theorem pushObligation_spec (hI : Inv A E n r) (o : Obligation) :
    (pushObligation env o k).Wp (fun _ r' => Inv A E n r' ∧ Evolves n r r' ∧
      r'.pdr.tmp_core = r.pdr.tmp_core) (HistGood A E) r := by
  unfold pushObligation
  simp only [Exec.wp_bind, wp_getP, wp_modifyP, Exec.wp_pure]
  refine ⟨hI.quiet (.of_fields rfl rfl rfl rfl) { hI.shape with } (hI.stored.of_frames rfl) hI.hist, ?_,
    rfl⟩
  exact Quiet.evolves (.of_fields rfl rfl rfl rfl) rfl rfl

theorem Inv.setTmpCore (hI : Inv A E n r) {c : Cube} (hc : A.LatchCube c) :
    Inv A E n (r.setP { r.pdr with tmp_core := c }) ∧
      Evolves n r (r.setP { r.pdr with tmp_core := c }) := hI.setCube .tmp_core hc

/-- What blocking the obligation `o` does: a lemma is learned above its level, and the obligation leaves
the queue or moves to the level of the lemma. -/
structure BlockPost (A : Circuit) (E : Eliminator) (n : Nat) (r : Run) (o : Obligation) (r' : Run) :
    Prop where
  inv : Inv A E n r'
  keeps : Keeps r r'
  heap : ∀ s, s < n → SameState r.pdr r'.pdr s
  learned : ∃ k, o.frame_k < k ∧ (∃ c ∈ (r'.pdr.frame k).cubes, c ⊆ (r.pdr.state o.state).latches) ∧
    (r'.pdr.obligation_queue = r.pdr.obligation_queue.tail ∨ k ≤ r.pdr.depth ∧
      r'.pdr.obligation_queue =
        setInsert Obligation.lt ⟨o.state, k, o.depth⟩ r.pdr.obligation_queue.tail)

/-- An obligation goes back to the queue, at the level of a lemma that blocks it. -/
theorem Inv.requeueObligation (hI : Inv A E n r) {s d : Nat} (hs : s < n) (h1 : 1 ≤ k)
    (hk : k ≤ r.pdr.depth) {c : Cube} (hc : c ∈ (r.pdr.frame k).cubes)
    (hsub : c ⊆ (r.pdr.state s).latches) (hch : A.constraints = [] → Chained A r.pdr n s) :
    Inv A E n (r.setP (r.pdr.setQueue (setInsert Obligation.lt ⟨s, k, d⟩ r.pdr.obligation_queue))) :=
  hI.insertObligation hs hk (.requeue hI.reach h1 hk hc fun _ hw l hl => hw l (hsub hl)) hch

theorem blockObligation_spec (hI : Inv A env.minisat n r) {o : Obligation}
    (ho : o ∈ r.pdr.obligation_queue) (hlen : 2 ≤ r.pdr.frames.length)
    (hcore : CoreOf A r.pdr o.frame_k (r.pdr.state o.state).latches r.pdr.core) (fuel : Nat) :
    (blockObligation env fuel o).Wp (fun _ => BlockPost A env.minisat n r o) (HistGood A env.minisat)
      r := by
  obtain ⟨hos, hok⟩ := hI.queue o ho
  have hchain := fun hc => hI.chains hc o ho
  have hla := hI.shape.states o.state
  unfold blockObligation
  simp only [Exec.wp_bind, Exec.wp_modify]
  have hI1 := hI.block ho
  refine (eraseObligation_spec hI1).mono ?_ fun _ h => h
  rintro _ r2 ⟨hI2, hkeep2, hp2, hb2⟩
  have hcore2 : CoreOf A r2.pdr o.frame_k (r.pdr.state o.state).latches r2.pdr.core := by
    rw [hp2]; exact ⟨hcore.sublist, hcore.relInd, hcore.init⟩
  have hl2 := hcore2.learnable hla fun hm => ⟨_, by rw [hb2]; exact List.mem_cons_self, hm⟩
  have hsub2 := hcore2.sublist.subset
  have hheap2 : ∀ s, s < n → SameState r.pdr r2.pdr s := by
    intro s _; rw [hp2]; exact ⟨rfl, rfl, rfl⟩
  simp only [Exec.wp_bind, wp_modifyP]
  obtain ⟨hI3, hev3⟩ := hI2.setTmpCore hl2.latches
  have hk3 : o.frame_k < r2.pdr.frames.length := by
    rw [hp2]; unfold PDR.depth at hok; exact (by omega : o.frame_k < r.pdr.frames.length)
  refine (generalize_spec hI3 hk3 (hl2.evolves hev3) fuel).mono ?_ fun _ h => h
  rintro _ r4 ⟨hI4, hev4, hl4, hsub4, _⟩
  obtain ⟨hI5, hev5, htm5⟩ := hI4.onNext o.state (f := punish r4.pdr.tmp_core) fun _ => ⟨rfl, rfl, rfl⟩
  simp only [Exec.wp_bind, wp_modifyP, wp_getP]
  have hl5 := hl4.evolves hev5
  have hev25 := hev3.trans (hev4.trans hev5)
  have hlen5 : (r4.pdr.onNext o.state (punish r4.pdr.tmp_core)).frames.length = r.pdr.frames.length := by
    have := hev25.len
    rw [setP_pdr] at this
    rw [this, hp2]
    rfl
  have hdep : (r4.pdr.onNext o.state (punish r4.pdr.tmp_core)).depth = r.pdr.depth := by
    unfold PDR.depth; rw [hlen5]
  rw [setP_pdr, htm5, hdep]
  refine (pushLevel_spec (k := o.frame_k + 1) hI5 hl4.latches (by omega) ?_ hl5.relInd).mono ?_ fun _ h => h
  · rw [setP_pdr, hlen5]; unfold PDR.depth at hok ⊢; omega
  rintro k' r6 ⟨hI6, hev6, _, htm6, _, hkk, hkd, hrel6⟩
  refine (pushObligation_spec hI6 o).bind ?_
  rintro pushpo r7 ⟨hI7, hev7, htm7⟩
  have htm : r7.pdr.tmp_core = r4.pdr.tmp_core := htm7.trans (htm6.trans htm5)
  have hev27 := hev25.trans (hev6.trans hev7)
  have hlen7 : r7.pdr.frames.length = r.pdr.frames.length := by
    rw [hev7.len, hev6.len]; exact hlen5
  have hl7 : Learnable A r7 (k' - 1) r7.pdr.tmp_core := by
    rw [htm]
    exact Learnable.evolves ⟨hl4.latches, hrel6, (hl5.evolves hev6).init⟩ hev7
  have hk7 : k' < r7.pdr.frames.length := by rw [hlen7]; unfold PDR.depth at *; omega
  refine (add_cube_spec hI7 .tmp_core (by omega) hk7 hl7 false).bind ?_
  rintro _ r8 ⟨hI8, hev8, hmem8, _, _⟩
  have hev28 := hev27.trans hev8
  have hkeep1 : Keeps r (r.block (r.pdr.state o.state).latches) := ⟨rfl, id, rfl⟩
  have hkeep : Keeps r r8 := hkeep1.trans (hkeep2.trans hev28.keeps)
  have hheap8 : ∀ s, s < n → SameState r.pdr r8.pdr s := by
    intro s hs
    obtain ⟨a1, a2, a3⟩ := hheap2 s hs
    obtain ⟨b1, b2, b3⟩ := hev28.heap s hs
    exact ⟨b1.trans a1, b2.trans a2, b3.trans a3⟩
  have hq8 : r8.pdr.obligation_queue = r.pdr.obligation_queue.tail := by
    rw [hev28.queue, hp2]; rfl
  have hlem8 : sortLits r7.pdr.tmp_core ⊆ (r.pdr.state o.state).latches := by
    intro l hl
    have hl7 : l ∈ r4.pdr.tmp_core := htm ▸ mem_sortLits.mp hl
    exact hsub2 (hsub4 hl7)
  rw [Exec.wp_ite]
  refine ⟨fun hgo => ?_,
    fun _ => ⟨hI8, hkeep, hheap8, k', by omega, ⟨_, hmem8, hlem8⟩, .inl hq8⟩⟩
  have hdep8 : r8.pdr.depth = r.pdr.depth := by unfold PDR.depth; rw [hkeep.len]
  have hlat8 : (r8.pdr.state o.state).latches = (r.pdr.state o.state).latches := (hheap8 _ hos).1
  have hI9 := hI8.requeueObligation (d := o.depth) hos (by omega) (by rw [hdep8]; exact hgo.1) hmem8
    (by rw [hlat8]; exact hlem8) fun hc => (hchain hc).change hheap8
  exact ⟨hI9.record, hkeep.trans ⟨rfl, id, rfl⟩, hheap8, k', by omega, ⟨_, hmem8, hlem8⟩,
    .inr ⟨hgo.1, congrArg _ hq8⟩⟩

/-! ## Counterexamples -/

theorem log_witness_hist (fuel : Nat) (s : Option Nat) :
    (log_witness fuel s).Wp (fun _ r' => r'.hist = r.hist ∧ r'.pdr.circuit = r.pdr.circuit ∧
        r'.pdr.obligation_queue = r.pdr.obligation_queue) (fun r' => r'.hist = r.hist) r := by
  induction fuel generalizing s r with
  | zero => unfold log_witness; exact rfl
  | succ fuel ih =>
      cases s with
      | none => unfold log_witness; exact ⟨rfl, rfl, rfl⟩
      | some s =>
          unfold log_witness
          simp only [Exec.wp_bind, wp_getP, wp_modifyP]
          exact ih _

/-- `log_witness` collects the state objects along a path. -/
theorem log_witness_path {p : PDR} {s : Nat} {L : List (List Int)} (hp : Path p n s L)
    (hs : r.pdr.states = p.states) (fuel : Nat) :
    (log_witness fuel (some s)).Wp (fun _ r' => ∃ sts, r'.pdr.cex_states = r.pdr.cex_states ++ sts ∧
      sts.map State.inputs = L ∧ sts.head? = some (p.state s) ∧ ∀ st ∈ sts, ∃ t, st = p.state t)
      (fun _ => True) r := by
  have hstate : ∀ {r : Run} t, r.pdr.states = p.states → r.pdr.state t = p.state t := by
    intro r t h; unfold PDR.state; rw [h]
  induction hp generalizing r fuel with
  | last hs' hn =>
      cases fuel with
      | zero => unfold log_witness; trivial
      | succ fuel =>
          unfold log_witness
          simp only [Exec.wp_bind, wp_getP, wp_modifyP, hstate _ hs, hn]
          cases fuel with
          | zero => unfold log_witness; trivial
          | succ fuel =>
              unfold log_witness
              exact ⟨[_], rfl, rfl, rfl, fun st hst => ⟨_, List.mem_singleton.mp hst⟩⟩
  | @step s t L hs' hn _ ih =>
      cases fuel with
      | zero => unfold log_witness; trivial
      | succ fuel =>
          unfold log_witness
          simp only [Exec.wp_bind, wp_getP, wp_modifyP, hstate _ hs, hn]
          refine Exec.Wp.mono (ih (by exact hs) fuel) ?_ fun _ h => h
          rintro _ r' ⟨sts, hcex, hmap, _, hall⟩
          refine ⟨p.state s :: sts, by rw [hcex]; simp, by simp [hmap], rfl, ?_⟩
          intro st hst
          rcases List.mem_cons.mp hst with rfl | hst
          · exact ⟨s, rfl⟩
          · exact hall st hst

end ModelChecker
