import ModelChecker.Pdr.Lemmas.Rounds
import ModelChecker.Pdr.Lemmas.Stops
import ModelChecker.Pdr.Theorems

/-!
# Convergence of propagation

Without states that reach a bad one, `propagate` looks at the top level only. A round moves its cubes one
level up, where none are stored yet; if one stays behind, the next round has fewer cubes to move, and a
level without cubes ends the run.
-/

namespace ModelChecker

open Logic

variable {α : Type} {A : Circuit} {env : PdrEnv} {r r' r'' : Run}

/-! ## Operations that store no cube -/

/-- The same cubes, obligations and mode of propagation. -/
structure SameCubes (r r' : Run) : Prop where
  len : r'.pdr.frames.length = r.pdr.frames.length
  cubes : ∀ j, (r'.pdr.frame j).cubes = (r.pdr.frame j).cubes
  queue : r'.pdr.obligation_queue = r.pdr.obligation_queue
  flag : r'.pdr.top_frame_cannot_reach_bad = r.pdr.top_frame_cannot_reach_bad

instance : Std.Refl SameCubes := ⟨fun _ => ⟨rfl, fun _ => rfl, rfl, rfl⟩⟩

instance : IsTrans Run SameCubes where
  trans _ _ _ h h' := ⟨h'.len.trans h.len, fun j => (h'.cubes j).trans (h.cubes j), h'.queue.trans h.queue,
    h'.flag.trans h.flag⟩

theorem SameCubes.depth (h : SameCubes r r') : r'.pdr.depth = r.pdr.depth := by
  unfold PDR.depth
  rw [h.len]

/-- Members other than the frames. -/
theorem SameCubes.of_frames (hf : r'.pdr.frames = r.pdr.frames)
    (hq : r'.pdr.obligation_queue = r.pdr.obligation_queue)
    (hb : r'.pdr.top_frame_cannot_reach_bad = r.pdr.top_frame_cannot_reach_bad) : SameCubes r r' := by
  refine ⟨by rw [hf], fun j => ?_, hq, hb⟩
  unfold PDR.frame
  rw [hf]

/-- The program stores no cube. -/
abbrev Stable (x : PdrM α) : Prop := Exec.Moves SameCubes x

theorem stable_getP : Stable getP := fun _ => .of_frames rfl rfl rfl

theorem stable_ask (q : Query) : Stable (ask env q) := fun _ => .of_frames rfl rfl rfl

theorem stable_reorder (c : Cube) : Stable (reorder env c) := fun _ => .of_frames rfl rfl rfl

theorem stable_record : Stable record := fun _ => .of_frames rfl rfl rfl

theorem stable_newState (st : State) : Stable (newState st) := fun _ => .of_frames rfl rfl rfl

theorem stable_modifyP {f : PDR → PDR} (hf : ∀ p, (f p).frames = p.frames)
    (hq : ∀ p, (f p).obligation_queue = p.obligation_queue)
    (hb : ∀ p, (f p).top_frame_cannot_reach_bad = p.top_frame_cannot_reach_bad) : Stable (modifyP f) :=
  fun r => .of_frames (hf r.pdr) (hq r.pdr) (hb r.pdr)

theorem stable_setSolver (k : PDR → Nat) (s : CaDiCaL) : Stable (modifyP fun p => p.setSolver (k p) s) := by
  intro r
  refine ⟨PDR.length_setSolver, fun j => ?_, rfl, rfl⟩
  show ((r.pdr.setSolver (k r.pdr) s).frame j).cubes = _
  by_cases hk : k r.pdr < r.pdr.frames.length
  · rw [PDR.frame_setSolver hk]
    split <;> rfl
  · rw [PDR.setSolver, List.modify_eq_self (not_lt.mp hk)]

theorem stable_is_init (c : Cube) : Stable (is_init env c) :=
  .bind stable_getP fun _ => .bind (stable_ask _) fun _ =>
    .bind (stable_modifyP (fun _ => rfl) (fun _ => rfl) fun _ => rfl) fun _ => .pure _

theorem stable_is_inductive (k : Nat) (c : Cube) (g : Bool) : Stable (is_inductive env k c g) := by
  have hset : ∀ f : PDR → Cube, Stable (modifyP fun p => { p with core := f p }) :=
    fun f => stable_modifyP (fun _ => rfl) (fun _ => rfl) fun _ => rfl
  have hask : Stable (askInductive env k c) :=
    .bind (stable_reorder c) fun _ => .bind stable_getP fun _ => .bind (stable_ask _) fun _ =>
      .bind (stable_setSolver (fun _ => k) _) fun _ => .bind stable_record fun _ => .pure _
  have hcore : ∀ s, Stable (takeCore env s c) := fun s =>
    .bind (hset _) fun _ => .bind stable_getP fun _ => .bind (stable_is_init _) fun _ =>
      .ite (hset _) (.pure _)
  refine .bind hask fun s => .ite (.pure _) ?_
  cases g with
  | true => exact .bind (hcore s) fun _ => .pure _
  | false => exact .pure _

theorem stable_extract (k s : Nat) (succ : Option Nat) (findex : Nat) :
    Stable (extract_state_from_sat env k s succ findex) := by
  have hload : Stable (loadLift env) := by
    refine .bind stable_getP fun p => ?_
    cases p.lift with
    | some l => exact .pure _
    | none =>
        refine .bind (.bind (stable_modifyP ?_ ?_ ?_) fun _ => .bind stable_getP fun _ => .pure _) fun _ => .pure _
        all_goals
          intro p
          unfold PDR.fillSatelite2
          split <;> rfl
  have hask : Stable (askLift env k succ) :=
    .bind hload fun _ => .bind stable_getP fun _ => .bind (stable_reorder _) fun _ =>
      .bind (stable_ask _) fun _ => .ite (.throw _) (.pure _)
  exact .bind hask fun _ => .bind (stable_modifyP (fun _ => rfl) (fun _ => rfl) fun _ => rfl) fun _ => stable_record

theorem stable_findCti : Stable (findCti env) := by
  have hset : ∀ s f, Stable (modifyP fun p => p.setState s f) := fun s f =>
    stable_modifyP (fun _ => rfl) (fun _ => rfl) fun _ => rfl
  have hask : Stable (askBad env) :=
    .bind stable_getP fun _ => .bind (stable_ask _) fun _ => .bind (stable_setSolver PDR.depth _) fun _ =>
      .bind stable_record fun _ => .pure _
  refine .bind (stable_newState _) fun s => .bind ?_ fun _ => .pure _
  refine .bind (hset s _) fun _ => .bind hask fun _ => .ite ?_ (.pure _)
  exact .bind stable_getP fun _ => .bind (stable_newState _) fun _ => .bind (stable_extract _ _ _ _) fun _ =>
    .bind (hset s _) fun _ => .pure _

/-! ## One level up -/

theorem length_setInsert_le {lt : α → α → Bool} (x : α) (l : List α) : (setInsert lt x l).length ≤ l.length + 1 := by
  induction l with
  | nil => simp [setInsert]
  | cons y l ih =>
      unfold setInsert
      split
      · simp
      · split
        · simpa using ih
        · simp

/-- `add_cube` stores at most one cube, at level `k`. -/
structure StoredOne (k : Nat) (p p' : PDR) : Prop where
  len : p'.frames.length = p.frames.length
  other : ∀ j, j ≠ k → (p'.frame j).cubes = (p.frame j).cubes
  one : (p'.frame k).cubes.length ≤ (p.frame k).cubes.length + 1
  queue : p'.obligation_queue = p.obligation_queue
  flag : p'.top_frame_cannot_reach_bad = p.top_frame_cannot_reach_bad

theorem storedOne_add_cube (p : PDR) (v : CubeVar) (k : Nat) (b isp : Bool) :
    StoredOne k p (p.add_cube v k b isp) := by
  have hinsert : ∀ (q : PDR) (c : Cube), StoredOne k q (q.setFrames (insertCube q.frames c k b)) := by
    refine fun q c => ⟨PDR.length_insertCube, fun j hj => ?_, ?_, rfl, rfl⟩
    · rw [PDR.insertCube_cubes, if_neg fun h => hj h.1]
    · rw [PDR.insertCube_cubes]
      split
      · exact length_setInsert_le _ _
      · exact Nat.le_succ _
  have hnone : ∀ q : PDR, q.frames = p.frames → q.obligation_queue = p.obligation_queue →
      q.top_frame_cannot_reach_bad = p.top_frame_cannot_reach_bad → ∀ c, StoredOne k p (if c ∈ (q.frame k).cubes then q
        else q.setFrames (insertCube q.frames c k b)) := by
    intro q hf hq hb c
    have hcubes : ∀ j, (q.frame j).cubes = (p.frame j).cubes := fun j => by rw [PDR.frame, hf, PDR.frame]
    split
    · exact ⟨by rw [hf], fun j _ => hcubes j, by rw [hcubes]; exact Nat.le_succ _, hq, hb⟩
    · have h := hinsert q c
      exact ⟨by rw [h.len, hf], fun j hj => (h.other j hj).trans (hcubes j), by rw [← hcubes]; exact h.one,
        h.queue.trans hq, h.flag.trans hb⟩
  unfold PDR.add_cube
  cases isp <;> cases v <;> (refine hnone _ ?_ ?_ ?_ _ <;> rfl)

/-- Cubes of level `i` have moved to the next one. -/
structure Carried (i : Nat) (r r' : Run) : Prop where
  len : r'.pdr.frames.length = r.pdr.frames.length
  count : (r'.pdr.frame i).cubes.length + (r'.pdr.frame (i + 1)).cubes.length ≤
    (r.pdr.frame i).cubes.length + (r.pdr.frame (i + 1)).cubes.length
  queue : r'.pdr.obligation_queue = r.pdr.obligation_queue
  flag : r'.pdr.top_frame_cannot_reach_bad = r.pdr.top_frame_cannot_reach_bad

theorem Carried.refl (i : Nat) (r : Run) : Carried i r r := ⟨rfl, le_rfl, rfl, rfl⟩

theorem Carried.trans {i : Nat} (h : Carried i r r') (h' : Carried i r' r'') : Carried i r r'' :=
  ⟨h'.len.trans h.len, h'.count.trans h.count, h'.queue.trans h.queue, h'.flag.trans h.flag⟩

theorem SameCubes.carried (h : SameCubes r r') (i : Nat) : Carried i r r' :=
  ⟨h.len, by rw [h.cubes, h.cubes], h.queue, h.flag⟩

/-- A cube that moves up is taken out of its level. -/
theorem propagateCube_carried {i : Nat} (hi : i < r.pdr.frames.length) {c : Cube} (hc : c ∈ (r.pdr.frame i).cubes) :
    (propagateCube env i c).Wp (fun _ r' => Carried i r r' ∧
      ∀ d ∈ (r.pdr.frame i).cubes, d ≠ c → d ∈ (r'.pdr.frame i).cubes) (fun _ => True) r := by
  unfold propagateCube
  refine (stable_is_inductive i c true r).bind fun b r1 h1 => ?_
  cases b with
  | false => exact ⟨h1.carried i, fun d hd _ => by rw [h1.cubes]; exact hd⟩
  | true =>
      simp only [if_true, Exec.wp_bind, wp_getP, add_cube, wp_modifyP, wp_record]
      have h2 := storedOne_add_cube r1.pdr .core (i + 1) (decide (r1.pdr.core.length < c.length)) true
      generalize r1.pdr.add_cube .core (i + 1) (decide (r1.pdr.core.length < c.length)) true = p at h2
      have hip : i < p.frames.length := by rw [h2.len, h1.len]; exact hi
      have hsame : (p.frame i).cubes = (r.pdr.frame i).cubes := (h2.other i (by omega)).trans (h1.cubes i)
      have hone := h2.one
      rw [h1.cubes] at hone
      have hlen : ((p.frame i).cubes.erase c).length + 1 = (r.pdr.frame i).cubes.length := by
        rw [hsame]
        exact List.length_erase_add_one hc
      have hat : ((p.setCubes i ((p.frame i).cubes.erase c)).frame i).cubes = (p.frame i).cubes.erase c := by
        rw [PDR.frame_setCubes hip, if_pos rfl]
      have hup : ((p.setCubes i ((p.frame i).cubes.erase c)).frame (i + 1)).cubes = (p.frame (i + 1)).cubes := by
        rw [PDR.frame_setCubes hip, if_neg (by omega)]
      refine ⟨⟨?_, ?_, h2.queue.trans h1.queue, h2.flag.trans h1.flag⟩, fun d hd hdc => ?_⟩
      · exact PDR.length_setCubes.trans (h2.len.trans h1.len)
      · show ((p.setCubes i ((p.frame i).cubes.erase c)).frame i).cubes.length +
          ((p.setCubes i ((p.frame i).cubes.erase c)).frame (i + 1)).cubes.length ≤ _
        rw [hat, hup]
        omega
      · show d ∈ ((p.setCubes i ((p.frame i).cubes.erase c)).frame i).cubes
        rw [hat, hsame]
        exact (List.mem_erase_of_ne hdc).mpr hd

/-- The loop over the cubes of a level. -/
theorem propagateCubes_carried {i : Nat} (hi : i < r.pdr.frames.length) (hnd : (r.pdr.frame i).cubes.Nodup) :
    (Exec.forEach (r.pdr.frame i).cubes (propagateCube env i)).Wp (fun _ r' => Carried i r r') (fun _ => True) r := by
  -- the cubes still to come are those of the level that were not looked at
  refine (Exec.wp_forEach (fun rest s => Carried i r s ∧ rest.Nodup ∧ rest ⊆ (s.pdr.frame i).cubes) ?_
    ⟨.refl i r, hnd, fun _ h => h⟩).mono (fun _ _ h => h.1) fun _ h => h
  · rintro c rest s ⟨hs, hn, hsub⟩
    obtain ⟨hcn, hn⟩ := List.nodup_cons.mp hn
    refine (propagateCube_carried (by rw [hs.len]; exact hi) (hsub List.mem_cons_self)).mono ?_ fun _ h => h
    rintro _ s' ⟨hs', hkeep⟩
    refine ⟨hs.trans hs', hn, fun d hd => hkeep d (hsub (List.mem_cons_of_mem _ hd)) ?_⟩
    rintro rfl
    exact hcn hd

/-! ## Rounds at the frontier -/

/-- Propagation starts at the top level, above which nothing is stored. -/
structure Frontier (r : Run) : Prop where
  flag : r.pdr.top_frame_cannot_reach_bad = true
  queue : r.pdr.obligation_queue = []
  top : (r.pdr.frame (r.pdr.depth + 1)).cubes = []

theorem Frontier.same (h : Frontier r) (hs : SameCubes r r') : Frontier r' := by
  refine ⟨hs.flag.trans h.flag, hs.queue.trans h.queue, ?_⟩
  rw [hs.depth, hs.cubes]
  exact h.top

/-- If a cube stays behind, fewer cubes arrive. -/
theorem Frontier.strengthen (env : PdrEnv) (h : Frontier r) (hlen : 3 ≤ r.pdr.frames.length)
    (hnd : (r.pdr.frame r.pdr.depth).cubes.Nodup) : ∃ b r', strengthen env r = (.ok b, r') ∧ (b = false →
      r'.pdr.frames.length = r.pdr.frames.length ∧ r'.pdr.obligation_queue = [] ∧
      (r'.pdr.frame (r.pdr.depth + 1)).cubes.length < (r.pdr.frame r.pdr.depth).cubes.length) := by
  have hd : r.pdr.depth < r.pdr.frames.length := by
    unfold PDR.depth
    omega
  have hwp : (propagate env).Wp (fun b r' => b = false → r'.pdr.frames.length = r.pdr.frames.length ∧
      r'.pdr.obligation_queue = [] ∧
      (r'.pdr.frame (r.pdr.depth + 1)).cubes.length < (r.pdr.frame r.pdr.depth).cubes.length) (fun _ => True) r := by
    have hstart : r.pdr.start_k = r.pdr.depth := by
      unfold PDR.start_k
      rw [if_pos h.flag]
    have hone : r.pdr.depth + 1 - r.pdr.start_k = 1 := by
      rw [hstart]
      omega
    unfold propagate
    rw [Exec.wp_bind, wp_getP, hone, hstart, propagateLevels, Exec.wp_bind, wp_getP]
    refine (propagateCubes_carried hd hnd).bind fun _ r1 h1 => ?_
    rw [Exec.wp_bind, wp_getP]
    split
    next => exact Exec.wp_skip fun _ _ hb => by cases hb
    next hne =>
      intro _
      have hcount := h1.count
      rw [h.top, List.length_nil] at hcount
      exact ⟨h1.len, h1.queue.trans h.queue, by omega⟩
  have heq : ModelChecker.strengthen env r = propagate env r := by
    show (if r.pdr.obligation_queue.length ≠ 0 then Exec.throw .obligations else propagate env) r = _
    rw [if_neg (by rw [h.queue]; exact fun hne => hne rfl)]
  have hstops : (propagate env).Stops (fun _ => False) r := stops_propagate
  obtain ⟨b, r', hrun⟩ := hstops.exists_ok
  exact ⟨b, r', heq.trans hrun, hwp.run_ok hrun⟩

/-- A new top level. -/
theorem pushFrame_cubes (env : PdrEnv) (r : Run) : ∃ r', pushFrame env r = (.ok (), r') ∧
    r'.pdr.frames.length = r.pdr.frames.length + 1 ∧ (∀ j, (r'.pdr.frame j).cubes = (r.pdr.frame j).cubes) ∧
    r'.pdr.obligation_queue = r.pdr.obligation_queue ∧ r'.pdr.top_frame_cannot_reach_bad = true := by
  have hfill : (r.pdr.fillSatelite env.minisat).frames = r.pdr.frames ∧
      (r.pdr.fillSatelite env.minisat).obligation_queue = r.pdr.obligation_queue := by
    unfold PDR.fillSatelite
    split <;> exact ⟨rfl, rfl⟩
  refine ⟨_, rfl, ?_, fun j => ?_, hfill.2, rfl⟩
  · show (PDR.extend (r.pdr.fillSatelite env.minisat) _).frames.length = _
    rw [length_extend, hfill.1]
  · show ((PDR.extend (r.pdr.fillSatelite env.minisat) _).frame j).cubes = _
    rw [extend_cubes, PDR.frame, hfill.1, PDR.frame]

/-- The next depth is entered. -/
theorem Frontier.push (env : PdrEnv) (hlen : 2 ≤ r.pdr.frames.length) (hq : r.pdr.obligation_queue = []) :
    ∃ r', pushFrame env r = (.ok (), r') ∧ Frontier r' ∧ r'.pdr.depth = r.pdr.depth + 1 ∧
      ∀ j, (r'.pdr.frame j).cubes = (r.pdr.frame j).cubes := by
  obtain ⟨r', hrun, hl, hc, hq', hf⟩ := pushFrame_cubes env r
  have hd : r'.pdr.depth = r.pdr.depth + 1 := by
    unfold PDR.depth
    omega
  refine ⟨r', hrun, ⟨hf, hq'.trans hq, ?_⟩, hd, hc⟩
  rw [hc, PDR.frame_of_ge]
  unfold PDR.depth
  omega

/-! ## Runs -/

/-- `m` depths further, without a state that reaches a bad one on the way. -/
inductive Deeper (env : PdrEnv) : Nat → Run → Run → Prop
  | here {r : Run} : Deeper env 0 r r
  | step {m : Nat} {r r1 r2 r3 r' : Run} (hR : env.RESULT r.clock = 0)
      (hc : findCti env r.tick = (.ok none, r1)) (hs : strengthen env r1 = (.ok false, r2))
      (hp : pushFrame env r2 = (.ok (), r3)) (h : Deeper env m r3 r') : Deeper env (m + 1) r r'

/-- The head of the main loop at the moment a depth is entered. -/
inductive Entered (env : PdrEnv) (A : Circuit) : Run → Prop
  | first {r : Run} (h : prologue env { pdr := { circuit := A.toAiger } } = (.ok true, r)) : Entered env A r
  | next {r0 r1 r2 r : Run} (h : AtHead env A r0) (hR : env.RESULT r0.clock = 0)
      (hc : findCti env r0.tick = (.ok none, r1)) (hs : strengthen env r1 = (.ok false, r2))
      (hp : pushFrame env r2 = (.ok (), r)) : Entered env A r

theorem Entered.atHead (h : Entered env A r) : AtHead env A r := by
  cases h with
  | first h => exact .enter h
  | next h hR hc hs hp => exact .extended h hR hc hs hp

theorem mainLoop_set (hR : env.RESULT r.clock ≠ 0) (fuel : Nat) : mainLoop env (fuel + 1) r = (.ok 0, r.tick) := by
  have hread : readRESULT env r = (.ok (env.RESULT r.clock), r.tick) := rfl
  rw [mainLoop_succ, Exec.run_bind_ok hread, if_pos hR]
  rfl

/-- A round without a state that reaches a bad one. -/
theorem mainLoop_none {r1 r2 : Run} {b : Bool} (hR : env.RESULT r.clock = 0)
    (hc : findCti env r.tick = (.ok none, r1)) (hs : strengthen env r1 = (.ok b, r2)) (fuel : Nat) :
    mainLoop env (fuel + 1) r = (if b then pure 20 else do
      pushFrame env
      mainLoop env fuel) r2 := by
  have hread : readRESULT env r = (.ok (env.RESULT r.clock), r.tick) := rfl
  rw [mainLoop_succ, Exec.run_bind_ok hread, if_neg (not_not.mpr hR), Exec.run_bind_ok hc]
  dsimp only
  rw [Exec.run_bind_ok hs]

/-- A round that blocks the state found. -/
theorem mainLoop_some {r1 : Run} {s fuel : Nat} (hR : env.RESULT r.clock = 0)
    (hc : findCti env r.tick = (.ok (some s), r1))
    (hb : rec_block_cube env fuel (r1.startBlocking s) = (.ok true, r')) :
    mainLoop env (fuel + 1) r = mainLoop env fuel r' := by
  have hread : readRESULT env r = (.ok (env.RESULT r.clock), r.tick) := rfl
  have hstart : (Exec.modify (·.startBlocking s) : PdrM Unit) r1 = (.ok (), r1.startBlocking s) := rfl
  rw [mainLoop_succ, Exec.run_bind_ok hread, if_neg (not_not.mpr hR), Exec.run_bind_ok hc]
  dsimp only
  rw [Exec.run_bind_ok hstart, Exec.run_bind_ok hb]
  rfl

/-- `check` passes through every head of the main loop. -/
theorem AtHead.check (h : AtHead env A r) : ∃ j N, ∀ fuel, N ≤ fuel →
    check env (fuel + j) { pdr := { circuit := A.toAiger } } = mainLoop env fuel r := by
  induction h with
  | enter h =>
      refine ⟨0, 0, fun fuel _ => ?_⟩
      rw [Nat.add_zero, check_eq, Exec.run_bind_ok h]
      rfl
  | @blocked r r' _ hb ih =>
      obtain ⟨j, N, ih⟩ := ih
      obtain ⟨s, r1, fuel0, hR, hc, hrec⟩ := hb
      refine ⟨j + 1, max N fuel0, fun fuel hfuel => ?_⟩
      have hmore : rec_block_cube env fuel (r1.startBlocking s) = (.ok true, r') := by
        rcases (chain_rec_block_cube env).below (le_trans (le_max_right N fuel0) hfuel) (r1.startBlocking s)
          with he | he
        · rw [hrec] at he
          cases he
        · rw [← he, hrec]
      rw [show fuel + (j + 1) = fuel + 1 + j by omega, ih _ (by omega), mainLoop_some hR hc hmore]
  | @extended r r1 r2 r3 _ hR hc hs hp ih =>
      obtain ⟨j, N, ih⟩ := ih
      refine ⟨j + 1, N, fun fuel hfuel => ?_⟩
      rw [show fuel + (j + 1) = fuel + 1 + j by omega, ih _ (by omega), mainLoop_none hR hc hs]
      exact Exec.run_bind_ok hp

/-- From a frontier with cubes to move, the run ends after at most as many further depths. -/
theorem Frontier.converges (hF : Frontier r) (hA : AtHead env A r)
    (hno : ∀ m r', Deeper env m r r' → env.RESULT r'.clock = 0 → ∃ r1, findCti env r'.tick = (.ok none, r1)) :
    ∃ m r', m ≤ (r.pdr.frame r.pdr.depth).cubes.length ∧ Deeper env m r r' ∧
      ∀ fuel, m < fuel → ∃ r2, mainLoop env fuel r = (.ok (if env.RESULT r'.clock = 0 then 20 else 0), r2) := by
  induction hM : (r.pdr.frame r.pdr.depth).cubes.length using Nat.strong_induction_on generalizing r with
  | h M ih =>
      by_cases hR : env.RESULT r.clock = 0
      · obtain ⟨r1, hc⟩ := hno 0 r .here hR
        have hsame : SameCubes r.tick r1 := (stable_findCti r.tick).run_ok hc
        have hF1 : Frontier r1 := (Frontier.mk hF.flag hF.queue hF.top : Frontier r.tick).same hsame
        obtain ⟨n, hI⟩ := hA.loopInv.inv
        have hlen : 3 ≤ r1.pdr.frames.length := by
          rw [hsame.len]
          exact hA.loopInv.len
        have hcubes : (r1.pdr.frame r1.pdr.depth).cubes = (r.pdr.frame r.pdr.depth).cubes := by
          rw [hsame.depth, hsame.cubes]
          rfl
        have hnd : (r1.pdr.frame r1.pdr.depth).cubes.Nodup := by
          rw [hcubes]
          exact hI.shape.nodup _
        obtain ⟨b, r2, hs, hfalse⟩ := hF1.strengthen env hlen hnd
        cases b with
        | true =>
            refine ⟨0, r, Nat.zero_le _, .here, fun fuel hfuel => ⟨r2, ?_⟩⟩
            obtain ⟨fuel, rfl⟩ := Nat.exists_eq_add_of_lt hfuel
            rw [Nat.zero_add, mainLoop_none hR hc hs, if_pos hR]
            rfl
        | false =>
            obtain ⟨hl2, hq2, hlt⟩ := hfalse rfl
            obtain ⟨r3, hp, hF3, hd3, hc3⟩ := Frontier.push env (by omega) hq2
            have hd : r2.pdr.depth = r1.pdr.depth := by
              unfold PDR.depth
              rw [hl2]
            have hcount : (r3.pdr.frame r3.pdr.depth).cubes.length < M := by
              rw [hc3, hd3, hd, ← hM, ← hcubes]
              exact hlt
            obtain ⟨m, r', hm, hdeep, hrun⟩ := ih _ hcount hF3 (.extended hA hR hc hs hp)
              (fun m r' hdeep => hno (m + 1) r' (.step hR hc hs hp hdeep)) rfl
            refine ⟨m + 1, r', by omega, .step hR hc hs hp hdeep, fun fuel hfuel => ?_⟩
            obtain ⟨fuel, rfl⟩ := Nat.exists_eq_add_of_lt (Nat.zero_lt_of_lt hfuel)
            obtain ⟨r4, hr4⟩ := hrun (0 + fuel) (by omega)
            refine ⟨r4, ?_⟩
            rw [mainLoop_none hR hc hs, ← hr4]
            exact Exec.run_bind_ok hp
      · refine ⟨0, r, Nat.zero_le _, .here, fun fuel hfuel => ⟨r.tick, ?_⟩⟩
        obtain ⟨fuel, rfl⟩ := Nat.exists_eq_add_of_lt hfuel
        rw [mainLoop_set hR, if_neg hR]

theorem prologue_frontier (A : Circuit) (env : PdrEnv) : (prologue env).Wp (fun b r' => b = true → Frontier r')
    (HistGood A env.minisat) { pdr := { circuit := A.toAiger } } := by
  unfold prologue
  rw [Exec.wp_bind]
  refine initializePdr_eq ?_
  refine check_BMC0_spec.bind fun b r1 h1 => ?_
  cases b with
  | false => exact fun hb => by cases hb
  | true =>
      obtain ⟨hI, hlen, hq, hcex⟩ := h1.1 rfl
      refine (check_BMC1_spec hI hlen hcex).bind fun b r2 h2 => ?_
      cases b with
      | false => exact fun hb => by cases hb
      | true =>
          obtain ⟨_, hlen2, hq2, _⟩ := h2.1 rfl
          obtain ⟨r3, hrun, hF, _⟩ := Frontier.push env (by omega) (hq2.trans hq)
          simp only [Bool.not_true, Bool.false_eq_true, if_false, Exec.wp_bind]
          unfold Exec.Wp
          rw [hrun]
          exact fun _ => hF

/-- `strengthen` asserts that no obligation is left. -/
theorem strengthen_queue {b : Bool} (h : strengthen env r = (.ok b, r')) : r.pdr.obligation_queue = [] := by
  by_contra hne
  have hpos : r.pdr.obligation_queue.length ≠ 0 := fun h0 => hne (List.length_eq_zero_iff.mp h0)
  have herr : strengthen env r = (.error .obligations, r) := by
    show (if r.pdr.obligation_queue.length ≠ 0 then Exec.throw .obligations else propagate env) r = _
    rw [if_pos hpos]
    rfl
  rw [herr] at h
  cases h

theorem Entered.frontier (h : Entered env A r) : Frontier r := by
  cases h with
  | first h => exact (prologue_frontier A env).run_ok h rfl
  | @next r0 r1 r2 r h hR hc hs hp =>
      have hL := h.loopInv
      obtain ⟨n, hI⟩ := hL.inv
      have hlen := hL.len
      obtain ⟨hI1, hev, hbad, _⟩ := (findCti_spec hI.tick (by rw [tick_pdr]; omega)).run_ok hc
      have hlen1 : r1.pdr.frames.length = r0.pdr.frames.length := hev.len
      have hstr := (strengthen_spec hI1 (by omega) (hev.earliest hL.earliest) (hbad rfl)).run_ok hs
      obtain ⟨_, hev2, _⟩ := hstr.1 rfl
      have hlen2 := hev2.len
      obtain ⟨r', hrun, hF, _⟩ := Frontier.push env (by omega) (hev2.queue.trans (strengthen_queue hs))
      rw [hp] at hrun
      cases hrun
      exact hF

/-- When no depth from `r` on has a state that reaches a bad one, `check` returns 20 after at most as many
further depths as there are cubes at the top level of `r`; it returns 0 if it then finds `RESULT` set. -/
theorem frontier_converges (A : Circuit) (env : PdrEnv) {r : Run} (h : Entered env A r)
    (hno : ∀ m r', Deeper env m r r' → env.RESULT r'.clock = 0 → ∃ r1, findCti env r'.tick = (.ok none, r1)) :
    ∃ m r', m ≤ (r.pdr.frame r.pdr.depth).cubes.length ∧ Deeper env m r r' ∧
      ∃ N, ∀ fuel, N ≤ fuel → ∃ r2, runCheck env A fuel = (.ok (if env.RESULT r'.clock = 0 then 20 else 0), r2) := by
  obtain ⟨m, r', hm, hdeep, hrun⟩ := h.frontier.converges h.atHead hno
  obtain ⟨j, N, hcheck⟩ := h.atHead.check
  refine ⟨m, r', hm, hdeep, max N (m + 1) + j, fun fuel hfuel => ?_⟩
  obtain ⟨fuel, rfl⟩ := Nat.exists_eq_add_of_le (le_trans (Nat.le_add_left j _) hfuel)
  have hN : N ≤ fuel ∧ m < fuel := by
    have := le_max_left N (m + 1)
    have := le_max_right N (m + 1)
    omega
  obtain ⟨r2, hr2⟩ := hrun fuel hN.2
  refine ⟨r2, ?_⟩
  rw [runCheck, Nat.add_comm j fuel, hcheck fuel hN.1, hr2]

namespace Sample

/-- Latches that become true one after the other; the last one without its predecessor is bad. -/
def shift : Circuit where
  num_inputs := 0
  num_latches := 3
  num_ands := 1
  ands := [⟨5, 4, -3⟩]
  nexts := [-1, 2, 3]
  init_state := [-2, -3, -4]
  constraints := []
  allbad := [5]
  bad := 5
  default_vals := [0, 0, 0]
  wf := by constructor <;> decide

/-- The lemma at level 1 is not inductive, the one found after it is stored at level 2. -/
def shiftAnswers : Nat → Answer
  | 0 => .unsat [5]
  | 1 => .unsat [9]
  | 3 => model [3, 6, 8, 9]
  | 5 => .unsat [10, -2, 3, -4]
  | 8 => .unsat [10, -6, 7, -8]
  | 9 => .unsat [-2, 3, -4]
  | 11 => .unsat [3, -4]
  | 13 => .unsat [11, 7, -8]
  | 14 => .unsat [3, -4]
  | 15 => model []
  | 16 => .unsat [3]
  | 18 => .unsat [12, 7]
  | 19 => .unsat [3]
  | 21 => model [2, 6, 7, 10]
  | 24 => .unsat [11, -6, 7, -8]
  | 25 => .unsat [-2, 3, -4]
  | 27 => .unsat [3, -4]
  | 29 => model [2, 6, 7, 12]
  | 31 => .unsat [11, 2, -3, -4]
  | 32 => model []
  | 33 => model []
  | 34 => .unsat [-2, 3]
  | 36 => .unsat [13, -6, 7]
  | 37 => .unsat [-2, 3]
  | 41 => model [2, 6, 7, 14]
  | 45 => .unsat [10, -6, 7]
  | 46 => .unsat [-2, 3]
  | _ => .unsat [9]

noncomputable def shiftEnv : PdrEnv := envOf shiftAnswers

/-- The run at depth 1: a state is found and blocked, and then none; one lemma stays behind. -/
noncomputable def shiftHead : Except Stop Bool × Run := prologue shiftEnv { pdr := { circuit := shift.toAiger } }

noncomputable def shiftCti : Except Stop (Option Nat) × Run := findCti shiftEnv shiftHead.2.tick

noncomputable def shiftBlocked : Except Stop Bool × Run := rec_block_cube shiftEnv 10 (shiftCti.2.startBlocking 0)

noncomputable def shiftFree : Except Stop (Option Nat) × Run := findCti shiftEnv shiftBlocked.2.tick

noncomputable def shiftKept : Except Stop Bool × Run := strengthen shiftEnv shiftFree.2

noncomputable def shiftPushed : Except Stop Unit × Run := pushFrame shiftEnv shiftKept.2

/-- The run at depth 2. -/
noncomputable def shiftNext : Except Stop (Option Nat) × Run := findCti shiftEnv shiftPushed.2.tick

noncomputable def shiftDone : Except Stop Bool × Run := strengthen shiftEnv shiftNext.2

theorem ok_of_fst {α : Type} {x : Except Stop α × Run} {a : α} (h : x.1 = .ok a) : x = (.ok a, x.2) :=
  Prod.ext h rfl

theorem shift_entered : Entered shiftEnv shift shiftPushed.2 := by
  have h1 : shiftHead = (.ok true, shiftHead.2) := ok_of_fst (by decide +kernel)
  have h2 : shiftCti = (.ok (some 0), shiftCti.2) := ok_of_fst (by decide +kernel)
  have h3 : shiftBlocked = (.ok true, shiftBlocked.2) := ok_of_fst (by decide +kernel)
  have h4 : shiftFree = (.ok none, shiftFree.2) := ok_of_fst (by decide +kernel)
  have h5 : shiftKept = (.ok false, shiftKept.2) := ok_of_fst (by decide +kernel)
  have h6 : shiftPushed = (.ok (), shiftPushed.2) := ok_of_fst (by decide +kernel)
  have hR : ∀ t, shiftEnv.RESULT t = 0 := fun _ => rfl
  exact .next (.blocked (.enter h1) ⟨0, shiftCti.2, 10, hR _, h2, h3⟩) (hR _) h4 h5 h6

end Sample

/-- Depth 2 is entered with one cube at its top level, and the run returns 20. -/
theorem frontier_converges_shift : (Sample.shiftPushed.2.pdr.frame 2).cubes = [[-2, 3]] ∧
    ∃ N, ∀ fuel, N ≤ fuel → ∃ r, runCheck Sample.shiftEnv Sample.shift fuel = (.ok 20, r) := by
  have h7 : Sample.shiftNext = (.ok none, Sample.shiftNext.2) := Sample.ok_of_fst (by decide +kernel)
  have h8 : Sample.shiftDone = (.ok true, Sample.shiftDone.2) := Sample.ok_of_fst (by decide +kernel)
  have hnext : findCti Sample.shiftEnv Sample.shiftPushed.2.tick = (.ok none, Sample.shiftNext.2) := h7
  have hdone : strengthen Sample.shiftEnv Sample.shiftNext.2 = (.ok true, Sample.shiftDone.2) := h8
  have hno : ∀ m r', Deeper Sample.shiftEnv m Sample.shiftPushed.2 r' → Sample.shiftEnv.RESULT r'.clock = 0 →
      ∃ r1, findCti Sample.shiftEnv r'.tick = (.ok none, r1) := by
    intro m r' hdeep _
    cases hdeep with
    | here => exact ⟨_, hnext⟩
    | step hR hc hs hp h =>
        -- the first round ends the run
        obtain ⟨_, hr1⟩ := Prod.mk.inj (hnext.symm.trans hc)
        rw [← hr1, hdone] at hs
        have hb := congrArg Prod.fst hs
        cases hb
  obtain ⟨m, r', _, _, N, hN⟩ := frontier_converges Sample.shift Sample.shiftEnv Sample.shift_entered hno
  exact ⟨by decide +kernel, N, hN⟩

end ModelChecker
