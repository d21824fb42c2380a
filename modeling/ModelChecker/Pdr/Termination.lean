import Mathlib.Data.Fintype.Pi
import ModelChecker.Pdr.Lemmas.Stops
import ModelChecker.Pdr.Progress

/-!
# Termination of blocking

A round of `rec_block_cube` makes the pair of two numbers smaller: the size of the levels, counted in
latch states, and the work that is left in the queue while the levels stay the same. The first
obligation is fresh when its state was extracted for this level: then it is not dropped, and blocking it
takes a state out of a level. So a chain of new predecessors ends with a smaller level.
-/

namespace ModelChecker

open Logic

variable {A : Circuit} {E : Eliminator} {n : Nat} {r r' : Run} {env : PdrEnv}

/-! ## The size of the levels -/

section Size

variable (A)

/-- The point with the latch values `u`. -/
def latchPoint (u : Fin A.num_latches → Bool) : Assignment := fun v =>
  if h : v - (A.num_inputs + 2) < A.num_latches then u ⟨v - (A.num_inputs + 2), h⟩ else false

theorem same_latchPoint (w : Assignment) :
    A.system.same (latchPoint A fun i => w (A.latch i)) w := by
  intro v hv
  obtain ⟨hlt, heq⟩ := Circuit.IsLatch.eq_latch hv
  unfold latchPoint
  rw [dif_pos hlt]
  exact congrArg w heq

open Classical in
/-- The number of latch states of level `i`. -/
noncomputable def levelSize (p : PDR) (i : Nat) : Nat :=
  (Finset.univ.filter fun u => Ic3.Excluded InCube p.cubes i (latchPoint A u)).card

noncomputable def levelsSize (p : PDR) : Nat :=
  ∑ i ∈ Finset.range p.frames.length, levelSize A p i

variable {A}

theorem levelSize_mono (h : Tightens r r') (i : Nat) : levelSize A r'.pdr i ≤ levelSize A r.pdr i := by
  classical
  refine Finset.card_le_card fun u hu => ?_
  simp only [Finset.mem_filter, Finset.mem_univ, true_and] at hu ⊢
  exact h.stronger i _ hu

theorem levelsSize_mono (h : Tightens r r') : levelsSize A r'.pdr ≤ levelsSize A r.pdr := by
  unfold levelsSize
  rw [h.len]
  exact Finset.sum_le_sum fun i _ => levelSize_mono h i

theorem levelsSize_lt (h : Tightens r r') (hs : Shape A E r.pdr) (hs' : Shape A E r'.pdr) {i : Nat}
    (hi : i < r.pdr.frames.length) {w : Assignment} (hw : Ic3.Excluded InCube r.pdr.cubes i w)
    (hw' : ¬ Ic3.Excluded InCube r'.pdr.cubes i w) : levelsSize A r'.pdr < levelsSize A r.pdr := by
  classical
  have hlt : levelSize A r'.pdr i < levelSize A r.pdr i := by
    refine Finset.card_lt_card ⟨fun u hu => ?_, fun hsub => hw' ?_⟩
    · simp only [Finset.mem_filter, Finset.mem_univ, true_and] at hu ⊢
      exact h.stronger i _ hu
    · rw [← hs'.excluded_same (same_latchPoint A w)]
      rw [← hs.excluded_same (same_latchPoint A w)] at hw
      have hmem := hsub (Finset.mem_filter.mpr ⟨Finset.mem_univ _, hw⟩)
      exact (Finset.mem_filter.mp hmem).2
  unfold levelsSize
  rw [h.len]
  exact Finset.sum_lt_sum (fun j _ => levelSize_mono h j) ⟨i, Finset.mem_range.mpr hi, hlt⟩

end Size

/-! ## The work in the queue -/

/-- The state of the obligation was not punished or marked, and has points one level above its own. -/
def Fresh (p : PDR) (o : Obligation) : Prop :=
  (p.state o.state).failed = 0 ∧ (p.state o.state).failed_depth = 0 ∧
    ∃ w, CubeSat w (p.state o.state).latches ∧ Ic3.Excluded InCube p.cubes (o.frame_k + 1) w

/-- The levels the obligations may still be pushed through. -/
def queueWork (d : Nat) (q : List Obligation) : Nat := (q.map fun o => d + 1 - o.frame_k).sum

open Classical in
noncomputable def PDR.work (p : PDR) : Nat :=
  match p.obligation_queue with
  | [] => 0
  | o :: q => if Fresh p o then o.frame_k else p.depth + 1 + queueWork p.depth (o :: q)

theorem queueWork_setInsert (d : Nat) (o : Obligation) (q : List Obligation) :
    queueWork d (setInsert Obligation.lt o q) ≤ d + 1 - o.frame_k + queueWork d q := by
  induction q with
  | nil => exact le_rfl
  | cons y ys ih =>
      unfold setInsert
      split_ifs
      · exact le_rfl
      · simp only [queueWork, List.map_cons, List.sum_cons] at ih ⊢
        omega
      · simp only [queueWork, List.map_cons, List.sum_cons]
        omega

/-- Whatever the first obligation is, the work is bounded by that of the queue. -/
theorem work_le (hI : Inv A E n r) :
    r.pdr.work ≤ r.pdr.depth + 1 + queueWork r.pdr.depth r.pdr.obligation_queue := by
  unfold PDR.work
  cases hq : r.pdr.obligation_queue with
  | nil => exact Nat.zero_le _
  | cons o q =>
      have hok := (hI.queue o (by rw [hq]; exact List.mem_cons_self)).2
      simp only
      split_ifs
      · omega
      · exact le_rfl

theorem work_of_fresh {o : Obligation} {q : List Obligation} (hq : r.pdr.obligation_queue = o :: q)
    (h : Fresh r.pdr o) : r.pdr.work = o.frame_k := by
  unfold PDR.work
  rw [hq]
  exact if_pos h

theorem work_of_not_fresh {o : Obligation} {q : List Obligation} (hq : r.pdr.obligation_queue = o :: q)
    (h : ¬ Fresh r.pdr o) : r.pdr.work = r.pdr.depth + 1 + queueWork r.pdr.depth (o :: q) := by
  unfold PDR.work
  rw [hq]
  exact if_neg h

theorem Looked.work (h : Looked r r') : r'.pdr.work = r.pdr.work := by
  have hd : r'.pdr.depth = r.pdr.depth := by unfold PDR.depth; rw [h.len]
  have hf : ∀ o, Fresh r'.pdr o ↔ Fresh r.pdr o := by
    intro o
    unfold Fresh
    rw [h.state, h.cubes]
  cases hq : r.pdr.obligation_queue with
  | nil =>
      unfold PDR.work
      rw [h.queue, hq]
  | cons o q =>
      have hq' : r'.pdr.obligation_queue = o :: q := h.queue.trans hq
      by_cases hfr : Fresh r.pdr o
      · rw [work_of_fresh hq hfr, work_of_fresh hq' ((hf o).mpr hfr)]
      · rw [work_of_not_fresh hq hfr, work_of_not_fresh hq' (fun h' => hfr ((hf o).mp h')), hd]

/-! ## Rounds make both smaller -/

/-- The order rounds go down in. -/
def Smaller (A : Circuit) (p p' : PDR) : Prop :=
  levelsSize A p < levelsSize A p' ∨ levelsSize A p = levelsSize A p' ∧ p.work < p'.work

theorem smaller_wf (A : Circuit) : WellFounded (Smaller A) := by
  refine Subrelation.wf (fun {p p'} h => ?_)
    (InvImage.wf (fun p : PDR => (levelsSize A p, p.work))
      (WellFounded.prod_lex (wellFounded_lt : WellFounded ((· < ·) : Nat → Nat → Prop))
        (wellFounded_lt : WellFounded ((· < ·) : Nat → Nat → Prop))))
  rcases h with h | ⟨he, h⟩
  · exact Prod.Lex.left _ _ h
  · show Prod.Lex _ _ (_, _) (_, _)
    rw [he]
    exact Prod.Lex.right _ h

section Cases

variable {o : Obligation} {rest : List Obligation}

/-- Less work in the queue is enough, unless the first obligation was fresh. -/
theorem smaller_of_queueWork (ht : Tightens r r') (hI' : Inv A E n r')
    (hq : r.pdr.obligation_queue = o :: rest) (hf : ¬ Fresh r.pdr o)
    (hlt : queueWork r.pdr.depth r'.pdr.obligation_queue < queueWork r.pdr.depth (o :: rest)) :
    Smaller A r'.pdr r.pdr := by
  rcases (levelsSize_mono (A := A) ht).lt_or_eq with hsize | hsize
  · exact .inl hsize
  · refine .inr ⟨hsize, ?_⟩
    have hle := work_le hI'
    rw [ht.depth] at hle
    rw [work_of_not_fresh hq hf]
    omega

/-- A blocked obligation was fresh, and a level loses its state, or it is raised. -/
theorem BlockPost.smaller (h : BlockPost A E n r o r') (ht : Tightens r r') (hI : Inv A E n r)
    (hlen : 3 ≤ r.pdr.frames.length) (hq : r.pdr.obligation_queue = o :: rest) :
    Smaller A r'.pdr r.pdr := by
  have hok := (hI.queue o (by rw [hq]; exact List.mem_cons_self)).2
  obtain ⟨k, hk, ⟨c, hc, hsub⟩, hqueue⟩ := h.learned
  by_cases hf : Fresh r.pdr o
  · obtain ⟨_, _, w, hw, hex⟩ := hf
    refine .inl (levelsSize_lt ht hI.shape h.inv.shape (by unfold PDR.depth at hok; omega) hex ?_)
    exact fun hno => hno k (by omega) c hc fun l hl => hw l (hsub hl)
  · refine smaller_of_queueWork ht h.inv hq hf ?_
    have hwork : queueWork r.pdr.depth (o :: rest) =
        r.pdr.depth + 1 - o.frame_k + queueWork r.pdr.depth rest := rfl
    rw [hwork]
    rw [hq, List.tail_cons] at hqueue
    rcases hqueue with hqueue | ⟨hkd, hqueue⟩
    · rw [hqueue]
      omega
    · rw [hqueue]
      have hins := queueWork_setInsert r.pdr.depth ⟨o.state, k, o.depth⟩ rest
      simp only at hins
      omega

theorem Dropped.smaller {v : Nat} (h : Dropped A E n r o v r') (ht : Tightens r r')
    (hI : Inv A E n r) (hI' : ∃ n', Inv A E n' r') (hq : r.pdr.obligation_queue = o :: rest) :
    Smaller A r'.pdr r.pdr := by
  obtain ⟨n', hI'⟩ := hI'
  have hok := (hI.queue o (by rw [hq]; exact List.mem_cons_self)).2
  refine smaller_of_queueWork ht hI' hq (fun hf => ?_) ?_
  · obtain ⟨hfail, hfd, _⟩ := hf
    rcases h.mark with ⟨hv, h0, _⟩ | ⟨h5, _⟩
    · exact h0 (hv.trans hfd)
    · omega
  · have hwork : queueWork r.pdr.depth (o :: rest) =
        r.pdr.depth + 1 - o.frame_k + queueWork r.pdr.depth rest := rfl
    rw [h.queue, hq, List.tail_cons, hwork]
    omega

theorem Preceded.fresh (h : Preceded A E r o r') (hm : Modelled r.pdr o.frame_k) (hI : Inv A E n r)
    (hcub : r'.pdr.cubes = r.pdr.cubes) :
    Fresh r'.pdr ⟨r.pdr.states.length, o.frame_k - 1, o.depth + 1⟩ := by
  obtain ⟨w, hw, hex⟩ := hm.excluded hI.shape hI.stored h.level
  refine ⟨h.failed.1, h.failed.2, w, fun l hl => hw l (h.latches.subset hl), ?_⟩
  rw [hcub]
  simp only [Nat.sub_add_cancel h.level]
  exact hex

theorem Preceded.smaller (h : Preceded A E r o r') (hm : Modelled r.pdr o.frame_k)
    (ht : Tightens r r') (hI : Inv A E n r) (hq : r.pdr.obligation_queue = o :: rest) :
    Smaller A r'.pdr r.pdr := by
  have hok := (hI.queue o (by rw [hq]; exact List.mem_cons_self)).2
  have hlev := h.level
  have hcub : r'.pdr.cubes = r.pdr.cubes := by
    funext j
    unfold PDR.cubes PDR.frame
    rw [h.frames]
  have hsize : levelsSize A r'.pdr = levelsSize A r.pdr := by
    unfold levelsSize levelSize
    rw [ht.len, hcub]
  have hq' : r'.pdr.obligation_queue =
      ⟨r.pdr.states.length, o.frame_k - 1, o.depth + 1⟩ :: o :: rest := by
    have hlt : Obligation.lt ⟨r.pdr.states.length, o.frame_k - 1, o.depth + 1⟩ o = true := by
      unfold Obligation.lt
      rw [if_pos (by simp only; omega)]
    rw [h.queue, hq, setInsert, if_pos hlt]
  refine .inr ⟨hsize, ?_⟩
  rw [work_of_fresh hq' (h.fresh hm hI hcub)]
  by_cases hf : Fresh r.pdr o
  · rw [work_of_fresh hq hf]
    simp only
    omega
  · rw [work_of_not_fresh hq hf]
    simp only
    omega

theorem RoundOf.smaller (h : RoundOf A E n r o r') (hI : Inv A E n r)
    (hlen : 3 ≤ r.pdr.frames.length) (hI' : ∃ n', Inv A E n' r')
    (hq : r.pdr.obligation_queue = o :: rest) : Smaller A r'.pdr r.pdr := by
  have ht := h.tightens
  cases h with
  | block h hs => exact h.smaller ht hI hlen hq
  | drop h => exact h.smaller ht hI hI' hq
  | precede hm h => exact h.smaller hm ht hI hq

end Cases

theorem Searching.smaller (h : Searching A env.minisat n r) (hr : Round env r r') :
    (∃ n', Searching A env.minisat n' r') ∧ Smaller A r'.pdr r.pdr := by
  obtain ⟨o, rest, r1, hq, hlook, hI1, hcex, hof⟩ := h.round hr
  obtain ⟨n', _, hs'⟩ := hof.searching h hq hlook hI1 hcex
  have hsm := hof.smaller hI1 (by rw [hlook.len]; exact h.len) ⟨n', hs'.inv⟩ (hlook.queue.trans hq)
  refine ⟨⟨n', hs'⟩, ?_⟩
  have hsize : levelsSize A r1.pdr = levelsSize A r.pdr := by
    unfold levelsSize levelSize
    rw [hlook.len, hlook.cubes]
  unfold Smaller at hsm ⊢
  rwa [hsize, hlook.work] at hsm

/-! ## The calls inside a round -/

theorem Path.pushState {p : PDR} {s : Nat} {L : List (List Int)} (hp : Path p n s L)
    (hn : n ≤ p.states.length) {st : State} (hst : st.next = some s) :
    Path (p.pushState st) (p.states.length + 1) p.states.length (st.inputs :: L) := by
  have hself : (p.pushState st).state p.states.length = st := by
    rw [PDR.state_pushState, if_pos rfl]
  have hold : ∀ t, t < n → SameState p (p.pushState st) t := by
    intro t ht
    unfold SameState
    rw [PDR.state_pushState, if_neg (by omega)]
    exact ⟨rfl, rfl, rfl⟩
  have hstep := Path.step (Nat.lt_succ_self p.states.length) (by rw [hself]; exact hst)
    ((hp.change hold).mono (by omega))
  rwa [hself] at hstep

/-- Following `next` along a path takes as many steps as the path has states. -/
theorem halts_log_witness {p : PDR} {s : Nat} {L : List (List Int)} (hp : Path p n s L)
    (hs : r.pdr.states = p.states) : Exec.Halts .fuel (fun n => log_witness n (some s)) r := by
  have hstate : ∀ {r : Run} t, r.pdr.states = p.states → r.pdr.state t = p.state t := by
    intro r t h
    unfold PDR.state
    rw [h]
  induction hp generalizing r with
  | last _ hn =>
      refine .succ ?_
      simp only [log_witness]
      rw [halts_getP, halts_modifyP, hstate _ hs, hn]
      exact .succ (halts_pure _)
  | step _ hn _ ih =>
      refine .succ ?_
      simp only [log_witness]
      rw [halts_getP, halts_modifyP, hstate _ hs, hn]
      exact ih hs

theorem halts_blockObligation (o : Obligation) :
    Exec.Halts .fuel (fun n => blockObligation env n o) r := by
  unfold blockObligation eraseObligation
  refine .then_const Exec.stops_modify fun _ _ => .then_const
    (Exec.stops_modify.then fun _ _ => Exec.stops_modify) fun _ _ => .then_const Exec.stops_modify
    fun _ r1 => .then (halts_generalize o.frame_k r1) (chain_mic env .tmp_core o.frame_k 1)
    (fun _ => .const _) fun _ r2 => Exec.halts_of_stops ?_
  refine Exec.stops_modify.then fun _ _ => Exec.stops_lift.then fun p _ =>
    (stops_pushLevel _ _ _).then fun k _ => Exec.Stops.then ?_ fun b _ =>
    (stops_add_cube _ _ _ _).then fun _ _ => Exec.stops_ite (fun _ => ?_) fun _ => Exec.stops_pure
  · unfold pushObligation
    exact Exec.stops_lift.then fun _ _ => Exec.stops_modify.then fun _ _ => Exec.stops_pure
  · unfold insertObligation
    exact Exec.stops_modify.then fun _ _ => Exec.stops_modify

theorem halts_expandObligation {o : Obligation} (hp : ∃ L, Path r.pdr n o.state L)
    (hn : n ≤ r.pdr.states.length) : Exec.Halts .fuel (fun n => expandObligation env n o) r := by
  have herase : ∀ {r : Run}, (eraseObligation).Stops (· ≠ Stop.fuel) r := by
    intro r
    unfold eraseObligation
    exact Exec.stops_modify.then fun _ _ => Exec.stops_modify
  unfold expandObligation
  rw [halts_getP]
  refine .ite (fun _ => ?_) fun _ => .ite (fun _ => ?_) fun _ => .ite (fun _ => ?_) fun _ => ?_
  · exact .then_const herase fun _ _ => .then_const Exec.stops_modify fun _ _ => halts_pure _
  · exact .then_const herase fun _ _ => .then_const Exec.stops_modify fun _ _ =>
      .then_const Exec.stops_modify fun _ _ => halts_pure _
  · -- the counterexample is written down along `next`
    obtain ⟨L, hp⟩ := hp
    set st : State := { modelState r.pdr.circuit (r.pdr.frame 0).solver with next := some o.state }
    rw [halts_newState, halts_modifyP]
    have hpath := hp.pushState hn (show st.next = some o.state from rfl)
    exact .then (halts_log_witness hpath rfl) (chain_log_witness _) (fun _ => .const _)
      fun _ _ => halts_pure _
  · refine .then_const Exec.stops_lift fun s _ => .then_const (stops_extract _ _ _ _ (by simp))
      fun _ _ => .then_const ?_ fun _ _ => halts_pure _
    unfold insertObligation
    exact Exec.stops_modify.then fun _ _ => Exec.stops_modify

/-- When every round ends in a state from which `rec_block_cube` halts, it halts. -/
theorem Searching.halts_of_rounds (h : Searching A env.minisat n r)
    (hr : ∀ r', Round env r r' → Exec.Halts .fuel (fun n => rec_block_cube env n) r') :
    Exec.Halts .fuel (fun n => rec_block_cube env n) r := by
  refine .succ ?_
  simp only [rec_block_cube]
  rw [halts_getP]
  cases hq : r.pdr.obligation_queue with
  | nil => exact halts_pure _
  | cons o rest =>
      simp only
      rw [halts_readRESULT]
      refine .ite (fun _ => halts_pure _) fun hR => ?_
      have hR : env.RESULT r.clock = 0 := not_not.mp hR
      have ho : o ∈ r.pdr.obligation_queue := by rw [hq]; exact List.mem_cons_self
      refine .bind_const (stops_is_inductive _ _ _) (Exec.wp_run _ _) fun b r1 hi => ?_
      obtain ⟨hlook, hI1, _⟩ := h.is_inductive_run ho hi
      cases b with
      | true =>
          have hw : ∀ n, (blockObligation env n o).Wp (fun _ r2 => Round env r r2) (fun _ => True) r1 :=
            fun n => (Exec.wp_run _ _).mono (fun _ _ hb => .block hq hR hi hb) fun _ h => h
          exact .bind (halts_blockObligation o) (chain_blockObligation env o)
            (fun _ => chain_rec_block_cube env) hw fun _ r2 h2 => hr r2 h2
      | false =>
          have hw : ∀ n, (expandObligation env n o).Wp (fun go r2 => go = true → Round env r r2)
              (fun _ => True) r1 := by
            refine fun n => (Exec.wp_run _ _).mono (fun go r2 he hgo => ?_) fun _ h => h
            subst hgo
            exact .expand hq hR hi he
          obtain ⟨L, hL⟩ := h.paths o ho
          have hsame : ∀ t, t < n → SameState r.pdr r1.pdr t := by
            intro t _
            unfold SameState
            rw [hlook.state]
            exact ⟨rfl, rfl, rfl⟩
          refine .bind (halts_expandObligation ⟨L, hL.change hsame⟩ hI1.size)
            (chain_expandObligation env o) (fun go n => ?_) hw fun go r2 h2 => ?_
          · exact .ite (chain_rec_block_cube env n) (.refl _)
          · exact .ite (fun hgo => hr r2 (h2 hgo)) fun _ => halts_pure _

theorem Searching.halts (h : Searching A env.minisat n r) :
    Exec.Halts .fuel (fun n => rec_block_cube env n) r := by
  induction hp : r.pdr using (smaller_wf A).induction generalizing r n with
  | _ p ih =>
  subst hp
  refine h.halts_of_rounds fun r' hr => ?_
  obtain ⟨⟨n', hs'⟩, hsm⟩ := h.smaller hr
  exact ih r'.pdr hsm hs' rfl

/-- Every call of `rec_block_cube` has finitely many rounds: no run of rounds goes on forever, and with
enough fuel the call ends. -/
theorem rec_block_cube_terminates (A : Circuit) (env : PdrEnv) {s : Nat} {r : Run}
    (h : CtiAt env A s r) :
    (¬ ∃ f : Nat → Run, f 0 = r ∧ ∀ i, Round env (f i) (f (i + 1))) ∧
      ∃ N, ∀ fuel, N ≤ fuel → (rec_block_cube env fuel r).1 ≠ .error .fuel := by
  obtain ⟨_, hsearch, _, _⟩ := h.searching
  constructor
  · rintro ⟨f, h0, hf⟩
    have hall : ∀ i, ∃ n, Searching A env.minisat n (f i) := by
      intro i
      induction i with
      | zero => exact ⟨_, h0 ▸ hsearch⟩
      | succ i ih =>
          obtain ⟨n, hn⟩ := ih
          exact (hn.smaller (hf i)).1
    refine (wellFounded_iff_isEmpty_descending_chain.mp (smaller_wf A)).false
      ⟨fun i => (f i).pdr, fun i => ?_⟩
    obtain ⟨n, hn⟩ := hall i
    exact (hn.smaller (hf i)).2
  · obtain ⟨N, hN, hst⟩ := hsearch.halts.stable (chain_rec_block_cube env)
    exact ⟨N, fun fuel hfuel => by rw [hst fuel hfuel]; exact hN⟩

/-- The call on `stuck`. -/
theorem rec_block_cube_terminates_stuck : ∃ N, ∀ fuel, N ≤ fuel →
    (rec_block_cube (Sample.envOf Sample.stuckAnswers) fuel (Sample.stuckCti.2.startBlocking 0)).1 ≠
      .error .fuel :=
  (rec_block_cube_terminates Sample.stuck (Sample.envOf Sample.stuckAnswers) Sample.stuck_ctiAt).2

end ModelChecker
