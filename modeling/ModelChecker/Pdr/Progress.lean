import ModelChecker.Pdr.Lemmas.Rounds
import ModelChecker.Pdr.Theorems

/-!
# Progress of blocking

`rec_block_cube` drops obligations through the tests on `failed` and `failed_depth`. Only obligations
that were pushed past the frontier are dropped, so the state the search started with is blocked when
`rec_block_cube` returns `true` and no other thread has finished.
-/

namespace ModelChecker

open Logic

variable {A : Circuit} {E : Eliminator} {n : Nat} {r r' : Run} {env : PdrEnv}

/-! ## Levels -/

/-- As many levels, and each of them without the states of before or smaller. -/
structure Tightens (r r' : Run) : Prop where
  len : r'.pdr.frames.length = r.pdr.frames.length
  stronger : ∀ i w, Ic3.Excluded InCube r'.pdr.cubes i w → Ic3.Excluded InCube r.pdr.cubes i w

theorem Tightens.refl (r : Run) : Tightens r r := ⟨rfl, fun _ _ h => h⟩

theorem Tightens.trans {r'' : Run} (h : Tightens r r') (h' : Tightens r' r'') : Tightens r r'' :=
  ⟨h'.len.trans h.len, fun i w hw => h.stronger i w (h'.stronger i w hw)⟩

theorem Tightens.depth (h : Tightens r r') : r'.pdr.depth = r.pdr.depth := by
  unfold PDR.depth
  rw [h.len]

theorem Evolves.tightens (h : Evolves n r r') : Tightens r r' := ⟨h.len, h.stronger⟩

theorem excluded_of_subset (h : ∀ j, (r.pdr.frame j).cubes ⊆ (r'.pdr.frame j).cubes) (i : Nat)
    (w : Assignment) (hw : Ic3.Excluded InCube r'.pdr.cubes i w) : Ic3.Excluded InCube r.pdr.cubes i w :=
  fun j hj c hc => hw j hj c (h j hc)

theorem Looked.tightens (h : Looked r r') : Tightens r r' := by
  refine ⟨h.len, fun i w hw => ?_⟩
  rw [h.cubes] at hw
  exact hw

theorem RoundOf.tightens {o : Obligation} (h : RoundOf A E n r o r') : Tightens r r' := by
  have hsame : r'.pdr.frames = r.pdr.frames → ∀ j, (r.pdr.frame j).cubes ⊆ (r'.pdr.frame j).cubes := by
    intro hf j c hc
    unfold PDR.frame at *
    rwa [hf]
  refine ⟨h.keeps.len, excluded_of_subset ?_⟩
  cases h with
  | block h hs => exact hs.cubes
  | drop h => exact hsame h.frames
  | precede hm h => exact hsame h.frames

theorem Searching.rounds (h : Searching A env.minisat n r) (hr : Rounds env r r') :
    (∃ n', n ≤ n' ∧ Searching A env.minisat n' r') ∧ Tightens r r' := by
  induction hr with
  | refl => exact ⟨⟨n, le_rfl, h⟩, .refl r⟩
  | tail _ hr ih =>
      obtain ⟨⟨n1, hn1, h1⟩, ht1⟩ := ih
      obtain ⟨o, rest, r2, hq, hlook, hI2, hcex, hof⟩ := h1.round hr
      obtain ⟨n2, hn2, h2⟩ := hof.searching h1 hq hlook hI2 hcex
      exact ⟨⟨n2, hn1.trans hn2, h2⟩, ht1.trans (hlook.tightens.trans hof.tightens)⟩

/-- A call of `rec_block_cube` that returns `true` only tightens the levels. -/
theorem Searching.tightens (h : Searching A env.minisat n r) {fuel : Nat}
    (hb : rec_block_cube env fuel r = (.ok true, r')) : Tightens r r' := by
  obtain ⟨r1, hr, hend⟩ := (rec_block_cube_rounds fuel).run_ok hb rfl
  rcases hend with ⟨_, rfl⟩ | ⟨_, rfl⟩
  · exact (h.rounds hr).2
  · exact (h.rounds hr).2.trans ⟨rfl, fun _ _ hw => hw⟩

/-! ## The obligation of the start -/

/-- The state object `s`, with the latches `L`, is to be blocked at the level below the top `D`: its
obligation is still queued, or a lemma at `D` or above does so. Marks lie beyond `D`. -/
structure Blocking (s D : Nat) (L : Cube) (r : Run) : Prop where
  depth : r.pdr.depth = D
  latches : (r.pdr.state s).latches = L
  marks : ∀ o ∈ r.pdr.obligation_queue, (r.pdr.state o.state).failed_depth = 0 ∨
    D < (r.pdr.state o.state).failed_depth
  root : ⟨s, D - 1, 1⟩ ∈ r.pdr.obligation_queue ∨ ∃ j, D ≤ j ∧ ∃ c ∈ (r.pdr.frame j).cubes, c ⊆ L

variable {s D : Nat} {L : Cube}

theorem Looked.blocking (h : Looked r r') (hb : Blocking s D L r) : Blocking s D L r' where
  depth := by unfold PDR.depth; rw [h.len]; exact hb.depth
  latches := by rw [h.state]; exact hb.latches
  marks o ho := by
    rw [h.queue] at ho
    rw [h.state]
    exact hb.marks o ho
  root := by
    rw [h.queue]
    refine hb.root.imp id ?_
    rintro ⟨j, hj, c, hc, hsub⟩
    have hmem : c ∈ r'.pdr.cubes j := by rw [h.cubes]; exact hc
    exact ⟨j, hj, c, hmem, hsub⟩

/-- Only obligations past the frontier are dropped. -/
theorem Dropped.past {o : Obligation} {v : Nat} (h : Dropped A E n r o v r') (hb : Blocking s D L r)
    (ho : o ∈ r.pdr.obligation_queue) : D < v ∧ v ≤ o.depth + o.frame_k := by
  rcases h.mark with ⟨hv, h0, hle⟩ | ⟨_, hv, hlt⟩
  · rcases hb.marks o ho with hz | hlt
    · exact absurd (hv.trans hz) h0
    · exact ⟨hv ▸ hlt, hle⟩
  · rw [hb.depth] at hlt
    exact ⟨hlt, hv.le⟩

section Cases

variable {o : Obligation} {rest : List Obligation}

/-- Blocking keeps the other obligations; that of the start is blocked one level above its own. -/
theorem BlockPost.blocking (h : BlockPost A E n r o r') (hsp : Spared r r') (hI : Inv A E n r)
    (hD : 1 ≤ D) (hs : s < n) (hq : r.pdr.obligation_queue = o :: rest) (hb : Blocking s D L r)
    (hdepth : r'.pdr.depth = D) : Blocking s D L r' := by
  have hsize := hI.size
  have hfd : ∀ o' ∈ r.pdr.obligation_queue, (r'.pdr.state o'.state).failed_depth = 0 ∨
      D < (r'.pdr.state o'.state).failed_depth := by
    intro o' ho'
    rw [hsp.failed_depth _ ((hI.queue o' ho').1.trans_le hsize)]
    exact hb.marks o' ho'
  obtain ⟨k, hk, ⟨c, hc, hsub⟩, hqueue⟩ := h.learned
  rw [hq, List.tail_cons] at hqueue
  rw [hq] at hfd
  have hrest : ∀ o' ∈ rest, o' ∈ r'.pdr.obligation_queue := by
    intro o' ho'
    rcases hqueue with hqueue | ⟨_, hqueue⟩
    · rwa [hqueue]
    · rw [hqueue]; exact (mem_setInsert obligation_separates).mpr (.inr ho')
  refine ⟨hdepth, (h.heap s hs).1.trans hb.latches, fun o' ho' => ?_, ?_⟩
  · rcases hqueue with hqueue | ⟨_, hqueue⟩
    · rw [hqueue] at ho'
      exact hfd o' (List.mem_cons_of_mem _ ho')
    · rw [hqueue] at ho'
      rcases (mem_setInsert obligation_separates).mp ho' with rfl | ho'
      · exact hfd o List.mem_cons_self
      · exact hfd o' (List.mem_cons_of_mem _ ho')
  · rcases hb.root with hroot | ⟨j, hj, d, hd, hdL⟩
    · rw [hq] at hroot
      rcases List.mem_cons.mp hroot with rfl | hroot
      · refine .inr ⟨k, ?_, c, hc, ?_⟩
        · simp only at hk
          omega
        · rwa [hb.latches] at hsub
      · exact .inl (hrest _ hroot)
    · exact .inr ⟨j, hj, d, hsp.cubes j hd, hdL⟩

/-- The obligation of the start is not dropped. -/
theorem Dropped.blocking {v : Nat} (h : Dropped A E n r o v r') (hD : 1 ≤ D) (hs : s < n)
    (hq : r.pdr.obligation_queue = o :: rest) (hb : Blocking s D L r) (hdepth : r'.pdr.depth = D) :
    Blocking s D L r' := by
  obtain ⟨hlt, hle⟩ := h.past hb (by rw [hq]; exact List.mem_cons_self)
  have hqueue : r'.pdr.obligation_queue = rest := by rw [h.queue, hq, List.tail_cons]
  refine ⟨hdepth, (h.heap s hs).1.trans hb.latches, fun o' ho' => ?_, ?_⟩
  · rw [hqueue] at ho'
    rcases h.failed_depth o'.state with hv | hv
    · rw [hv]
      exact hb.marks o' (by rw [hq]; exact List.mem_cons_of_mem _ ho')
    · exact .inr (hv ▸ hlt)
  · rw [hqueue]
    unfold PDR.frame
    rw [h.frames]
    refine hb.root.imp (fun hroot => ?_) id
    rw [hq] at hroot
    rcases List.mem_cons.mp hroot with rfl | hroot
    · simp only at hle
      omega
    · exact hroot

theorem Preceded.blocking (h : Preceded A E r o r') (hI : Inv A E n r) (hs : s < n)
    (hb : Blocking s D L r) (hdepth : r'.pdr.depth = D) : Blocking s D L r' := by
  have hsize := hI.size
  refine ⟨hdepth, by rw [h.heap s (by omega)]; exact hb.latches, fun o' ho' => ?_, ?_⟩
  · rw [h.queue] at ho'
    rcases (mem_setInsert obligation_separates).mp ho' with rfl | ho'
    · exact .inl h.failed.2
    · rw [h.heap _ ((hI.queue o' ho').1.trans_le hsize)]
      exact hb.marks o' ho'
  · rw [h.queue]
    unfold PDR.frame
    rw [h.frames]
    exact hb.root.imp (fun hroot => (mem_setInsert obligation_separates).mpr (.inr hroot)) id

/-- What one round keeps. -/
theorem RoundOf.blocking (h : RoundOf A E n r o r') (hI : Inv A E n r) (hD : 1 ≤ D) (hs : s < n)
    (hq : r.pdr.obligation_queue = o :: rest) (hb : Blocking s D L r) : Blocking s D L r' := by
  have hdepth : r'.pdr.depth = D := by rw [h.tightens.depth]; exact hb.depth
  cases h with
  | block h hsp => exact h.blocking hsp hI hD hs hq hb hdepth
  | drop h => exact h.blocking hD hs hq hb hdepth
  | precede hm h => exact h.blocking hI hs hb hdepth

end Cases

theorem Searching.blocking (h : Searching A env.minisat n r) (hD : 1 ≤ D) (hs : s < n)
    (hb : Blocking s D L r) (hr : Rounds env r r') :
    ∃ n', Searching A env.minisat n' r' ∧ Blocking s D L r' := by
  suffices h' : ∃ n', n ≤ n' ∧ Searching A env.minisat n' r' ∧ Blocking s D L r' by
    obtain ⟨n', _, h'⟩ := h'
    exact ⟨n', h'⟩
  induction hr with
  | refl => exact ⟨n, le_rfl, h, hb⟩
  | tail _ hr ih =>
      obtain ⟨n1, hn1, h1, hb1⟩ := ih
      obtain ⟨o, rest, r2, hq, hlook, hI2, hcex, hof⟩ := h1.round hr
      obtain ⟨n2, hn2, h2⟩ := hof.searching h1 hq hlook hI2 hcex
      exact ⟨n2, hn1.trans hn2, h2,
        hof.blocking hI2 hD (by omega) (hlook.queue.trans hq) (hlook.blocking hb1)⟩

theorem CtiAt.blocking (h : CtiAt env A s r) :
    1 ≤ r.pdr.depth ∧ Blocking s r.pdr.depth (r.pdr.state s).latches r := by
  obtain ⟨_, hsearch, hq, hfd⟩ := h.searching
  refine ⟨by have := hsearch.len; unfold PDR.depth; omega, rfl, rfl, fun o ho => .inl ?_, .inl ?_⟩
  · rw [hq] at ho
    rw [List.mem_singleton.mp ho]
    exact hfd
  · rw [hq]
    exact List.mem_singleton_self _

/-! ## The theorem -/

theorem LoopInv.tightens (h : LoopInv A env.minisat r) (hr : CtiRound env r r') (hA : AtHead env A r) :
    Tightens r r' := by
  obtain ⟨s, r1, fuel, hR, hc, hb⟩ := hr
  obtain ⟨n, hI⟩ := h.inv
  have hlen := h.len
  obtain ⟨_, hev, _⟩ := (findCti_spec hI.tick (by rw [tick_pdr]; omega)).run_ok hc
  obtain ⟨_, hsearch, _⟩ := CtiAt.searching ⟨r, r1, hA, hR, hc, rfl⟩
  have h1 : Tightens r r1 := ⟨hev.len, hev.stronger⟩
  have h2 : Tightens r1 (r1.startBlocking s) := ⟨rfl, fun _ _ hw => hw⟩
  exact h1.trans (h2.trans (hsearch.tightens hb))

theorem AtHead.ctiRounds (h : AtHead env A r) (hr : Relation.ReflTransGen (CtiRound env) r r') :
    AtHead env A r' ∧ Tightens r r' := by
  induction hr with
  | refl => exact ⟨h, .refl r⟩
  | tail _ hr ih => exact ⟨.blocked ih.1 hr, ih.2.trans (ih.1.loopInv.tightens hr ih.1)⟩

/-- A state found later has a point of the top level. -/
theorem AtHead.findCti (h : AtHead env A r) {s : Nat}
    (hc : ModelChecker.findCti env r.tick = (.ok (some s), r')) :
    ∃ w, CubeSat w (r'.pdr.state s).latches ∧ Ic3.Excluded InCube r.pdr.cubes r.pdr.depth w := by
  have hL := h.loopInv
  obtain ⟨n, hI⟩ := hL.inv
  have hlen := hL.len
  obtain ⟨_, hev, _, hcti⟩ := (findCti_spec hI.tick (by rw [tick_pdr]; omega)).run_ok hc
  have hdep : r'.pdr.depth = r.pdr.depth := hev.depth
  obtain ⟨w, hw, hex⟩ := (hcti s rfl).2.level (by rw [hdep]; unfold PDR.depth; omega)
  rw [hdep] at hex
  exact ⟨w, hw, hev.stronger _ w hex⟩

/-- When `rec_block_cube` returns `true` and `RESULT` was 0 all along, a lemma at the top level or above
blocks the state it was called for. No state found later at this depth contains it, and only obligations
past the frontier were dropped on the way. -/
theorem rec_block_cube_progress (A : Circuit) (env : PdrEnv) {s : Nat} {r : Run} (h : CtiAt env A s r) :
    (∀ fuel r', rec_block_cube env fuel r = (.ok true, r') →
      (∀ t, t < r'.clock → env.RESULT t = 0) →
      r'.pdr.depth = r.pdr.depth ∧ (r'.pdr.state s).latches = (r.pdr.state s).latches ∧
      (∃ j, r'.pdr.depth ≤ j ∧ ∃ c ∈ (r'.pdr.frame j).cubes, c ⊆ (r'.pdr.state s).latches) ∧
      (∀ w, CubeSat w (r'.pdr.state s).latches → ¬ CnfSat w
        (lemmaClauses A env.minisat r'.pdr.depth (r'.pdr.frame r'.pdr.depth).solver)) ∧
      ∀ r1 s2 r2, Relation.ReflTransGen (CtiRound env) r' r1 →
        findCti env r1.tick = (.ok (some s2), r2) →
        ¬ (r'.pdr.state s).latches ⊆ (r2.pdr.state s2).latches) ∧
    ∀ r1 o rest r2 fuel go r3, Rounds env r r1 → r1.pdr.obligation_queue = o :: rest →
      is_inductive env o.frame_k (r1.pdr.state o.state).latches true r1.tick = (.ok false, r2) →
      expandObligation env fuel o r2 = (.ok go, r3) → o ∉ r3.pdr.obligation_queue →
      r.pdr.depth < o.depth + o.frame_k := by
  obtain ⟨hs, hsearch, _, _⟩ := h.searching
  obtain ⟨hD, hb0⟩ := h.blocking
  constructor
  · intro fuel r' hrun hR
    obtain ⟨r1, hr, hend⟩ := (rec_block_cube_rounds fuel).run_ok hrun rfl
    -- `RESULT` is 0, so the queue is empty
    have hr' : r1.pdr.obligation_queue = [] ∧ r' = r1 := by
      refine hend.resolve_right ?_
      rintro ⟨hne, rfl⟩
      exact hne (hR _ (by simp))
    obtain ⟨hq, rfl⟩ := hr'
    obtain ⟨n', hs1, hb1⟩ := hsearch.blocking hD hs hb0 hr
    obtain ⟨j, hj, c, hc, hsub⟩ : ∃ j, r.pdr.depth ≤ j ∧ ∃ c ∈ (r'.pdr.frame j).cubes,
        c ⊆ (r.pdr.state s).latches := by
      refine hb1.root.resolve_left fun hroot => ?_
      rw [hq] at hroot
      cases hroot
    have hex : ∀ w, CubeSat w (r.pdr.state s).latches →
        ¬ Ic3.Excluded InCube r'.pdr.cubes r.pdr.depth w := by
      intro w hw hexc
      exact hexc j hj c hc fun l hl => hw l (hsub hl)
    have hlen1 := hs1.len
    rw [hb1.depth, hb1.latches]
    refine ⟨rfl, rfl, ⟨j, hj, c, hc, hsub⟩, fun w hw hcnf => ?_, fun r1 s2 r2 hlater hcti hle => ?_⟩
    · refine hex w hw ((hs1.inv.good.lemma_iff hD ?_ w).mp hcnf)
      rw [← hb1.depth]
      unfold PDR.depth
      omega
    · obtain ⟨r0, rc, h0, hR0, hc0, rfl⟩ := h
      have hhead : AtHead env A r' := .blocked h0 ⟨s, rc, fuel, hR0, hc0, hrun⟩
      obtain ⟨hhead1, ht⟩ := hhead.ctiRounds hlater
      obtain ⟨w, hw, hexw⟩ := hhead1.findCti hcti
      rw [ht.depth, hb1.depth] at hexw
      exact hex w (fun l hl => hw l (hle hl)) (ht.stronger _ w hexw)
  · intro r1 o rest r2 fuel go r3 hr hq hi he hout
    obtain ⟨n1, hs1, hb1⟩ := hsearch.blocking hD hs hb0 hr
    have ho : o ∈ r1.pdr.obligation_queue := by rw [hq]; exact List.mem_cons_self
    obtain ⟨hlook, hI2, hcex, _, hmod⟩ := hs1.is_inductive_run ho hi
    have ho2 : o ∈ r2.pdr.obligation_queue := by rw [hlook.queue]; exact ho
    have hexp := (expandObligation_spec hI2 ho2 (hmod rfl).2 hcex fuel).run_ok he
    cases hexp with
    | drop hd =>
        obtain ⟨hlt, hle⟩ := hd.past (hlook.blocking hb1) ho2
        omega
    | precede hp =>
        rw [hp.queue] at hout
        exact absurd ((mem_setInsert obligation_separates).mpr (.inr ho2)) hout
    | cex _ hq3 => exact absurd (hq3 ▸ ho2) hout

namespace Sample

/-- The run on `stuck` up to its call of `rec_block_cube`. -/
noncomputable def stuckHead : Except Stop Bool × Run :=
  prologue (envOf stuckAnswers) { pdr := { circuit := stuck.toAiger } }

noncomputable def stuckCti : Except Stop (Option Nat) × Run :=
  findCti (envOf stuckAnswers) stuckHead.2.tick

noncomputable def stuckBlocked : Except Stop Bool × Run :=
  rec_block_cube (envOf stuckAnswers) 10 (stuckCti.2.startBlocking 0)

theorem stuck_ctiAt : CtiAt (envOf stuckAnswers) stuck 0 (stuckCti.2.startBlocking 0) := by
  have h1 : stuckHead.1 = .ok true := by decide +kernel
  have h2 : stuckCti.1 = .ok (some 0) := by decide +kernel
  exact ⟨stuckHead.2, stuckCti.2, .enter (Prod.ext h1 rfl), rfl, Prod.ext h2 rfl, rfl⟩

end Sample

/-- The first state found on `stuck` is blocked at level 1. -/
theorem rec_block_cube_progress_stuck : Sample.stuckBlocked.1 = .ok true ∧
    ∃ j, Sample.stuckBlocked.2.pdr.depth ≤ j ∧ ∃ c ∈ (Sample.stuckBlocked.2.pdr.frame j).cubes,
      c ⊆ (Sample.stuckBlocked.2.pdr.state 0).latches := by
  have hrun : Sample.stuckBlocked.1 = .ok true := by decide +kernel
  refine ⟨hrun, ?_⟩
  have hb : Sample.stuckBlocked = (.ok true, Sample.stuckBlocked.2) := Prod.ext hrun rfl
  exact ((rec_block_cube_progress Sample.stuck (Sample.envOf Sample.stuckAnswers) Sample.stuck_ctiAt).1
    10 _ hb fun _ _ => rfl).2.2.1

end ModelChecker
