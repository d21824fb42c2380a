import ModelChecker.Pdr.Lemmas.Check

/-!
# Rounds

The calls of `rec_block_cube` in a run of `check`, taken apart: the heads of the main loop, the rounds
of `rec_block_cube` between them, and what one round does to the queue.
-/

namespace ModelChecker

open Logic

variable {A : Circuit} {E : Eliminator} {n : Nat} {r r' : Run} {env : PdrEnv}

/-! ## Heads of the main loop -/

/-- A state with a bad successor is found and `rec_block_cube` returns `true`. -/
def CtiRound (env : PdrEnv) (r r' : Run) : Prop :=
  ∃ s r1 fuel, env.RESULT r.clock = 0 ∧ findCti env r.tick = (.ok (some s), r1) ∧
    rec_block_cube env fuel (r1.startBlocking s) = (.ok true, r')

/-- The heads of the main loop in the runs of `check` on `A`. -/
inductive AtHead (env : PdrEnv) (A : Circuit) : Run → Prop
  | enter {r : Run} (h : prologue env { pdr := { circuit := A.toAiger } } = (.ok true, r)) :
      AtHead env A r
  | blocked {r r' : Run} (h : AtHead env A r) (hb : CtiRound env r r') : AtHead env A r'
  | extended {r r1 r2 r3 : Run} (h : AtHead env A r) (hR : env.RESULT r.clock = 0)
      (hc : findCti env r.tick = (.ok none, r1)) (hs : strengthen env r1 = (.ok false, r2))
      (hp : pushFrame env r2 = (.ok (), r3)) : AtHead env A r3

/-- `rec_block_cube` is called on the state object `s`. -/
def CtiAt (env : PdrEnv) (A : Circuit) (s : Nat) (r : Run) : Prop :=
  ∃ r0 r1, AtHead env A r0 ∧ env.RESULT r0.clock = 0 ∧ findCti env r0.tick = (.ok (some s), r1) ∧
    r = r1.startBlocking s

theorem LoopInv.ctiRound (h : LoopInv A env.minisat r) (hr : CtiRound env r r') :
    LoopInv A env.minisat r' := by
  obtain ⟨s, r1, fuel, _, hc, hb⟩ := hr
  obtain ⟨n, hI⟩ := h.inv
  have hlen := h.len
  obtain ⟨hI1, hev, _, hcti⟩ := (findCti_spec hI.tick (by rw [tick_pdr]; omega)).run_ok hc
  have hlen1 : r1.pdr.frames.length = r.pdr.frames.length := hev.len
  have hI2 := (hcti s rfl).2.start hI1 (by omega)
  have hpost := (rec_block_cube_spec hI2 (by show 2 ≤ r1.pdr.frames.length; omega)
    (hev.cex.trans h.cex) fuel).run_ok hb
  obtain ⟨hex, hk⟩ := hpost.1 rfl
  refine ⟨hex, ?_, hk.earliest (hev.earliest h.earliest), hk.cex.trans (hev.cex.trans h.cex)⟩
  rw [hk.len]
  show 3 ≤ r1.pdr.frames.length
  omega

theorem AtHead.loopInv (h : AtHead env A r) : LoopInv A env.minisat r := by
  induction h with
  | enter h => exact ((prologue_spec A env).run_ok h).1 rfl
  | blocked _ hb ih => exact ih.ctiRound hb
  | @extended r r1 r2 r3 _ hR hc hs hp ih =>
      obtain ⟨n, hI⟩ := ih.inv
      have hlen := ih.len
      obtain ⟨hI1, hev, hbad, _⟩ := (findCti_spec hI.tick (by rw [tick_pdr]; omega)).run_ok hc
      have hlen1 : r1.pdr.frames.length = r.pdr.frames.length := hev.len
      have hstr := (strengthen_spec hI1 (by omega) (hev.earliest ih.earliest) (hbad rfl)).run_ok hs
      obtain ⟨hI2, hev2, hbad2⟩ := hstr.1 rfl
      have hlen2 := hev2.len
      have hcex2 : r2.pdr.cex_states = [] := hev2.cex.trans (hev.cex.trans ih.cex)
      exact (pushFrame_spec hI2 (by omega) hcex2 fun _ => hbad2).run_ok hp

/-! ## Rounds of `rec_block_cube` -/

/-- One round: the first obligation is blocked, or has a predecessor. -/
inductive Round (env : PdrEnv) (r : Run) : Run → Prop
  | block {o : Obligation} {rest : List Obligation} {fuel : Nat} {r1 r2 : Run}
      (hq : r.pdr.obligation_queue = o :: rest) (hR : env.RESULT r.clock = 0)
      (hi : is_inductive env o.frame_k (r.pdr.state o.state).latches true r.tick = (.ok true, r1))
      (hb : blockObligation env fuel o r1 = (.ok (), r2)) : Round env r r2
  | expand {o : Obligation} {rest : List Obligation} {fuel : Nat} {r1 r2 : Run}
      (hq : r.pdr.obligation_queue = o :: rest) (hR : env.RESULT r.clock = 0)
      (hi : is_inductive env o.frame_k (r.pdr.state o.state).latches true r.tick = (.ok false, r1))
      (he : expandObligation env fuel o r1 = (.ok true, r2)) : Round env r r2

def Rounds (env : PdrEnv) : Run → Run → Prop := Relation.ReflTransGen (Round env)

/-- When `rec_block_cube` returns `true`, its last round left an empty queue, or `RESULT` is set. -/
theorem rec_block_cube_rounds (fuel : Nat) :
    (rec_block_cube env fuel).Wp (fun b r' => b = true → ∃ r1, Rounds env r r1 ∧
      (r1.pdr.obligation_queue = [] ∧ r' = r1 ∨ env.RESULT r1.clock ≠ 0 ∧ r' = r1.tick))
      (fun _ => True) r := by
  induction fuel generalizing r with
  | zero => trivial
  | succ fuel ih =>
      unfold rec_block_cube
      simp only [Exec.wp_bind, wp_getP]
      cases hq : r.pdr.obligation_queue with
      | nil => exact fun _ => ⟨r, .refl, .inl ⟨hq, rfl⟩⟩
      | cons o rest =>
          simp only [Exec.wp_bind, wp_readRESULT]
          rw [Exec.wp_ite]
          refine ⟨fun hR _ => ⟨r, .refl, .inr ⟨hR, rfl⟩⟩, fun hR => ?_⟩
          have hR : env.RESULT r.clock = 0 := not_not.mp hR
          refine (Exec.wp_run _ _).bind fun b r1 hi => ?_
          have hgo : ∀ {r2 : Run}, Round env r r2 → (rec_block_cube env fuel).Wp (fun b r' => b = true →
              ∃ r1, Rounds env r r1 ∧ (r1.pdr.obligation_queue = [] ∧ r' = r1 ∨
                env.RESULT r1.clock ≠ 0 ∧ r' = r1.tick)) (fun _ => True) r2 := by
            intro r2 hr
            refine (@ih r2).mono (fun b r' h hb => ?_) fun _ h => h
            obtain ⟨r3, h3, hend⟩ := h hb
            exact ⟨r3, .head hr h3, hend⟩
          cases b with
          | true =>
              refine (Exec.wp_run _ _).bind fun _ r2 hb => ?_
              exact hgo (.block hq hR hi hb)
          | false =>
              refine (Exec.wp_run _ _).bind fun go r2 he => ?_
              cases go with
              | true => exact hgo (.expand hq hR hi he)
              | false => exact Bool.noConfusion

/-! ## What a round does -/

/-- More cubes; the state objects that were there keep their `failed_depth`. -/
structure Spared (r r' : Run) : Prop where
  size : r.pdr.states.length ≤ r'.pdr.states.length
  cubes : ∀ j, (r.pdr.frame j).cubes ⊆ (r'.pdr.frame j).cubes
  failed_depth : ∀ t, t < r.pdr.states.length →
    (r'.pdr.state t).failed_depth = (r.pdr.state t).failed_depth

theorem Added.spared (h : Added r r') : Spared r r' :=
  ⟨h.states.length_le, h.cubes, fun _ ht => by rw [h.state ht]⟩

theorem Spared.trans {r'' : Run} (h : Spared r r') (h' : Spared r' r'') : Spared r r'' :=
  ⟨h.size.trans h'.size, fun j _ hc => h'.cubes j (h.cubes j hc),
    fun t ht => (h'.failed_depth t (ht.trans_le h.size)).trans (h.failed_depth t ht)⟩

/-- Punishing the successor does not mark it. -/
theorem spared_punish (r : Run) (s : Nat) (c : Cube) :
    Spared r (r.setP (r.pdr.onNext s (punish c))) := by
  unfold PDR.onNext
  split
  · rename_i u _
    refine ⟨by simp, fun _ _ h => h, fun t ht => ?_⟩
    by_cases hu : u < r.pdr.states.length
    · rw [setP_pdr, PDR.state_setState hu]
      split
      · rename_i htu
        rw [htu]
        rfl
      · rfl
    · rw [setP_pdr, PDR.setState_of_ge (by omega)]
  · exact ⟨le_rfl, fun _ _ h => h, fun _ _ => rfl⟩

theorem spared_of_eq (hs : r'.pdr.states = r.pdr.states) (hf : r'.pdr.frames = r.pdr.frames) :
    Spared r r' := (Added.of_eq hs hf).spared

theorem Spared.after {r1 : Run} (h : Spared r1 r') (hs : r1.pdr.states = r.pdr.states)
    (hf : r1.pdr.frames = r.pdr.frames) : Spared r r' := (spared_of_eq hs hf).trans h

theorem blockObligation_spared (fuel : Nat) (o : Obligation) :
    (blockObligation env fuel o).Wp (fun _ r' => Spared r r') (fun _ => True) r := by
  unfold blockObligation eraseObligation
  simp only [Exec.wp_bind, Exec.wp_modify, wp_modifyP, wp_record]
  refine Exec.Wp.mono ((adds_mic fuel).1 .tmp_core o.frame_k 1 _) (fun _ r1 h1 => ?_) fun _ h => h
  have h1' : Spared r r1 := h1.spared.after rfl rfl
  have h2 := h1'.trans (spared_punish r1 o.state r1.pdr.tmp_core)
  simp only [Exec.wp_bind, wp_modifyP, wp_getP]
  refine Exec.Wp.mono (adds_pushLevel _ _ _ _) (fun k r3 h3 => ?_) fun _ h => h
  have h4 := h2.trans h3.spared
  unfold pushObligation
  simp only [Exec.wp_bind, wp_getP, wp_modifyP, Exec.wp_pure]
  refine Exec.Wp.mono (adds_add_cube .tmp_core k true false _) (fun _ r5 h5 => ?_) fun _ h => h
  have h6 : Spared r r5 := h4.trans (h5.spared.after rfl rfl)
  rw [Exec.wp_ite]
  refine ⟨fun _ => ?_, fun _ => h6⟩
  exact h6.trans (spared_of_eq rfl rfl)

/-- The query of a round changes the solvers only. -/
structure Looked (r r1 : Run) : Prop where
  len : r1.pdr.frames.length = r.pdr.frames.length
  states : r1.pdr.states = r.pdr.states
  cubes : r1.pdr.cubes = r.pdr.cubes
  queue : r1.pdr.obligation_queue = r.pdr.obligation_queue

/-- What a round does to its obligation `o`. -/
inductive RoundOf (A : Circuit) (E : Eliminator) (n : Nat) (r1 : Run) (o : Obligation) : Run → Prop
  | block {r2 : Run} (h : BlockPost A E n r1 o r2) (hs : Spared r1 r2) : RoundOf A E n r1 o r2
  | drop {v : Nat} {r2 : Run} (h : Dropped A E n r1 o v r2) : RoundOf A E n r1 o r2
  | precede {r2 : Run} (hm : Modelled r1.pdr o.frame_k) (h : Preceded A E r1 o r2) : RoundOf A E n r1 o r2

/-- Between two rounds. -/
structure Searching (A : Circuit) (E : Eliminator) (n : Nat) (r : Run) : Prop where
  inv : Inv A E n r
  len : 3 ≤ r.pdr.frames.length
  cex : r.pdr.cex_states = []
  paths : ∀ o ∈ r.pdr.obligation_queue, ∃ L, Path r.pdr n o.state L

theorem Looked.state {r1 : Run} (h : Looked r r1) (s : Nat) : r1.pdr.state s = r.pdr.state s := by
  unfold PDR.state
  rw [h.states]

theorem Searching.is_inductive_run (h : Searching A env.minisat n r) {o : Obligation}
    (ho : o ∈ r.pdr.obligation_queue) {b : Bool} {r1 : Run}
    (hi : is_inductive env o.frame_k (r.pdr.state o.state).latches true r.tick = (.ok b, r1)) :
    Looked r r1 ∧ Inv A env.minisat n r1 ∧ r1.pdr.cex_states = [] ∧
      (b = true → CoreOf A r1.pdr o.frame_k (r1.pdr.state o.state).latches r1.pdr.core) ∧
      (b = false → Modelled r1.pdr o.frame_k ∧ HasModel A env.minisat r1.pdr o.frame_k
        ((r1.pdr.state o.state).latches.map (primeLit A (primes1 A)))) := by
  obtain ⟨_, hok⟩ := h.inv.queue o ho
  have hlen := h.len
  have hk : o.frame_k < r.tick.pdr.frames.length := by
    unfold PDR.depth at hok
    rw [tick_pdr]
    omega
  obtain ⟨hI1, hev, _, hst, hcu, _, hcore, _, hmod⟩ :=
    (is_inductive_spec h.inv.tick (h.inv.shape.states o.state) hk true).run_ok hi
  have hmod' := (is_inductive_modelled hk true).run_ok hi
  have hlook : Looked r r1 := ⟨hev.len, hst, hcu, hev.queue⟩
  refine ⟨hlook, hI1, hev.cex.trans h.cex, fun hb => ?_, fun hb => ⟨hmod' hb, ?_⟩⟩
  · rw [hlook.state]
    exact hcore hb rfl
  · rw [hlook.state]
    exact hmod hb

/-- A round, seen from the state after its query. -/
theorem Searching.round (h : Searching A env.minisat n r) (hr : Round env r r') :
    ∃ o rest r1, r.pdr.obligation_queue = o :: rest ∧ Looked r r1 ∧ Inv A env.minisat n r1 ∧
      r1.pdr.cex_states = [] ∧ RoundOf A env.minisat n r1 o r' := by
  have hlen := h.len
  cases hr with
  | @block o rest fuel r1 _ hq hR hi hb =>
      have ho : o ∈ r.pdr.obligation_queue := by rw [hq]; exact List.mem_cons_self
      obtain ⟨hlook, hI1, hcex, hcore, _⟩ := h.is_inductive_run ho hi
      have hpost := (blockObligation_spec hI1 (by rw [hlook.queue]; exact ho) (by rw [hlook.len]; omega)
        (hcore rfl) fuel).run_ok hb
      exact ⟨o, rest, r1, hq, hlook, hI1, hcex, .block hpost ((blockObligation_spared fuel o).run_ok hb)⟩
  | @expand o rest fuel r1 _ hq hR hi he =>
      have ho : o ∈ r.pdr.obligation_queue := by rw [hq]; exact List.mem_cons_self
      obtain ⟨hlook, hI1, hcex, _, hmod⟩ := h.is_inductive_run ho hi
      obtain ⟨hm, hmod⟩ := hmod rfl
      have hpost := (expandObligation_spec hI1 (by rw [hlook.queue]; exact ho) hmod hcex fuel).run_ok he
      refine ⟨o, rest, r1, hq, hlook, hI1, hcex, ?_⟩
      cases hpost with
      | drop h => exact .drop h
      | precede h => exact .precede hm h

theorem RoundOf.keeps {r1 : Run} {o : Obligation} (h : RoundOf A E n r1 o r') : Keeps r1 r' := by
  cases h with
  | block h => exact h.keeps
  | drop h => exact h.keeps
  | precede _ h => exact h.keeps

/-- The obligations after a round: those of before, or one about a state that has a path, too. -/
theorem RoundOf.searching {r1 : Run} {o : Obligation} {rest : List Obligation}
    (h : RoundOf A E n r1 o r') (hs : Searching A E n r) (hq : r.pdr.obligation_queue = o :: rest)
    (hlook : Looked r r1) (hI1 : Inv A E n r1) (hcex : r1.pdr.cex_states = []) :
    ∃ n', n ≤ n' ∧ Searching A E n' r' := by
  have hlen : 3 ≤ r'.pdr.frames.length := by rw [h.keeps.len, hlook.len]; exact hs.len
  have hcex' := h.keeps.cex.trans hcex
  have hpath : ∀ o' ∈ r1.pdr.obligation_queue, ∃ L, Path r1.pdr n o'.state L := by
    intro o' ho'
    rw [hlook.queue] at ho'
    obtain ⟨L, hL⟩ := hs.paths o' ho'
    exact ⟨L, hL.change fun t _ => by unfold SameState; rw [hlook.state]; exact ⟨rfl, rfl, rfl⟩⟩
  have hq1 : r1.pdr.obligation_queue = o :: rest := hlook.queue.trans hq
  have hoq : o ∈ r1.pdr.obligation_queue := by rw [hq1]; exact List.mem_cons_self
  have htail : ∀ o' ∈ r1.pdr.obligation_queue.tail, o' ∈ r1.pdr.obligation_queue :=
    fun _ => List.mem_of_mem_tail
  cases h with
  | block h =>
      refine ⟨n, le_rfl, h.inv, hlen, hcex', fun o' ho' => ?_⟩
      obtain ⟨k, _, _, hqueue⟩ := h.learned
      have hold : ∃ o2 ∈ r1.pdr.obligation_queue, o2.state = o'.state := by
        rcases hqueue with hqueue | ⟨_, hqueue⟩
        · rw [hqueue] at ho'
          exact ⟨o', htail _ ho', rfl⟩
        · rw [hqueue] at ho'
          rcases (mem_setInsert obligation_separates).mp ho' with rfl | ho'
          · exact ⟨o, hoq, rfl⟩
          · exact ⟨o', htail _ ho', rfl⟩
      obtain ⟨o2, ho2, hst⟩ := hold
      obtain ⟨L, hL⟩ := hpath o2 ho2
      exact ⟨L, hst ▸ hL.change h.heap⟩
  | drop h =>
      refine ⟨n, le_rfl, h.inv, hlen, hcex', fun o' ho' => ?_⟩
      rw [h.queue] at ho'
      obtain ⟨L, hL⟩ := hpath o' (htail _ ho')
      exact ⟨L, hL.change h.heap⟩
  | precede hm h =>
      have hn : n ≤ r1.pdr.states.length := hI1.size
      have hsize := h.size
      have hsame : ∀ t, t < n → SameState r1.pdr r'.pdr t := by
        intro t ht
        unfold SameState
        rw [h.heap t (by omega)]
        exact ⟨rfl, rfl, rfl⟩
      refine ⟨_, by omega, h.inv, hlen, hcex', fun o' ho' => ?_⟩
      rw [h.queue] at ho'
      rcases (mem_setInsert obligation_separates).mp ho' with rfl | ho'
      · obtain ⟨L, hL⟩ := hpath o hoq
        have hnew : r1.pdr.states.length < r'.pdr.states.length := by omega
        exact ⟨_, .step hnew h.next ((hL.change hsame).mono (by omega))⟩
      · obtain ⟨L, hL⟩ := hpath o' ho'
        exact ⟨L, (hL.change hsame).mono (by omega)⟩

/-- The search starts with the state found last. -/
theorem LoopInv.searching (h : LoopInv A env.minisat r) {s : Nat} {r1 : Run}
    (hc : findCti env r.tick = (.ok (some s), r1)) :
    s < r1.pdr.states.length ∧ (r1.pdr.state s).failed_depth = 0 ∧
      Searching A env.minisat r1.pdr.states.length (r1.startBlocking s) := by
  have hlen := h.len
  obtain ⟨n, hI⟩ := h.inv
  obtain ⟨hI1, hev, _, hcti⟩ := (findCti_spec hI.tick (by rw [tick_pdr]; omega)).run_ok hc
  obtain ⟨hs, hst⟩ := hcti s rfl
  have hlen1 : r1.pdr.frames.length = r.pdr.frames.length := hev.len
  refine ⟨hst.lt, ?_, hst.start hI1 (by omega), ?_, hev.cex.trans h.cex, ?_⟩
  · rw [hst.failed_depth, setP_pdr, PDR.state_pushState, if_pos hs]
  · show 3 ≤ r1.pdr.frames.length
    omega
  · intro o ho
    rw [List.mem_singleton.mp ho]
    obtain ⟨L, hL, _⟩ := hst.chained
    have hsame : ∀ t, t < r1.pdr.states.length → SameState r1.pdr (r1.startBlocking s).pdr t :=
      fun _ _ => ⟨rfl, rfl, rfl⟩
    exact ⟨L, hL.change hsame⟩

theorem CtiAt.searching {s : Nat} (h : CtiAt env A s r) :
    s < r.pdr.states.length ∧ Searching A env.minisat r.pdr.states.length r ∧
      r.pdr.obligation_queue = [⟨s, r.pdr.depth - 1, 1⟩] ∧ (r.pdr.state s).failed_depth = 0 := by
  obtain ⟨r0, r1, h0, _, hc, rfl⟩ := h
  obtain ⟨hs, hfd, hsearch⟩ := h0.loopInv.searching hc
  exact ⟨hs, hsearch, rfl, hfd⟩

end ModelChecker
