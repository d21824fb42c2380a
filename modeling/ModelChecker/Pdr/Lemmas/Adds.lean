import ModelChecker.Logic.Fuel
import ModelChecker.Pdr.Lemmas.Cubes
import ModelChecker.Pdr.Lemmas.Runs

/-!
# What generalisation leaves alone

The operations below `rec_block_cube` create state objects and store cubes, but change no state object
that was there before and remove no cube.
-/

namespace ModelChecker

open Logic

variable {α β : Type} {env : PdrEnv}

/-- More state objects and more cubes. -/
structure Added (r r' : Run) : Prop where
  states : r.pdr.states <+: r'.pdr.states
  cubes : ∀ j, (r.pdr.frame j).cubes ⊆ (r'.pdr.frame j).cubes

theorem Added.refl (r : Run) : Added r r := ⟨List.prefix_rfl, fun _ _ h => h⟩

theorem Added.trans {r r' r'' : Run} (h : Added r r') (h' : Added r' r'') : Added r r'' :=
  ⟨h.states.trans h'.states, fun j _ hc => h'.cubes j (h.cubes j hc)⟩

theorem Added.of_eq {r r' : Run} (hs : r'.pdr.states = r.pdr.states)
    (hf : r'.pdr.frames = r.pdr.frames) : Added r r' := by
  refine ⟨by rw [hs], fun j => ?_⟩
  unfold PDR.frame
  rw [hf]
  exact fun _ h => h

theorem Added.state {r r' : Run} (h : Added r r') {s : Nat} (hs : s < r.pdr.states.length) :
    r'.pdr.state s = r.pdr.state s := by
  obtain ⟨t, ht⟩ := h.states
  unfold PDR.state
  rw [← ht, List.getD_eq_getElem?_getD, List.getD_eq_getElem?_getD, List.getElem?_append_left hs]

instance : Std.Refl Added := ⟨Added.refl⟩

instance : IsTrans Run Added := ⟨fun _ _ _ => Added.trans⟩

/-- The program only creates state objects and stores cubes. -/
def OnlyAdds (x : PdrM α) : Prop := ∀ r, x.Wp (fun _ r' => Added r r') (fun _ => True) r

theorem OnlyAdds.bind {x : PdrM α} {f : α → PdrM β} (hx : OnlyAdds x) (hf : ∀ a, OnlyAdds (f a)) :
    OnlyAdds (x >>= f) :=
  Exec.Moves.bind hx hf

theorem OnlyAdds.after {x : PdrM α} (hx : OnlyAdds x) {r r' : Run} (h : Added r r') :
    x.Wp (fun _ r'' => Added r r'') (fun _ => True) r' :=
  (hx r').mono (fun _ _ h' => h.trans h') fun _ h => h

theorem OnlyAdds.pure (a : α) : OnlyAdds (Pure.pure a) := Exec.Moves.pure a

theorem OnlyAdds.throw (e : Stop) : OnlyAdds (Exec.throw e : PdrM α) := Exec.Moves.throw e

theorem OnlyAdds.ite {c : Prop} [Decidable c] {x y : PdrM α} (hx : OnlyAdds x) (hy : OnlyAdds y) :
    OnlyAdds (if c then x else y) :=
  Exec.Moves.ite hx hy

theorem OnlyAdds.modifyP {f : PDR → PDR} (hs : ∀ p, (f p).states = p.states)
    (hf : ∀ p, (f p).frames = p.frames) : OnlyAdds (ModelChecker.modifyP f) :=
  fun r => .of_eq (hs r.pdr) (hf r.pdr)

theorem adds_getP : OnlyAdds getP := fun r => .refl r

theorem adds_record : OnlyAdds record := fun _ => .of_eq rfl rfl

theorem adds_ask (q : Query) : OnlyAdds (ask env q) := fun _ => .of_eq rfl rfl

theorem adds_reorder (c : Cube) : OnlyAdds (reorder env c) := fun _ => .of_eq rfl rfl

/-! ## Queries -/

theorem adds_is_init (c : Cube) : OnlyAdds (is_init env c) := by
  unfold is_init
  refine .bind adds_getP fun _ => .bind (adds_ask _) fun _ => .bind (.modifyP ?_ ?_) fun _ => .pure _
  · exact fun _ => rfl
  · exact fun _ => rfl

theorem adds_setSolver (k : Nat) (s : CaDiCaL) : OnlyAdds (modifyP fun p => p.setSolver k s) := by
  intro r
  refine ⟨List.prefix_rfl, fun j => ?_⟩
  show (r.pdr.frame j).cubes ⊆ ((r.pdr.setSolver k s).frame j).cubes
  by_cases hk : k < r.pdr.frames.length
  · rw [PDR.frame_setSolver hk]
    split <;> exact fun _ h => h
  · unfold PDR.setSolver
    rw [List.modify_eq_self (by omega)]
    exact fun _ h => h

theorem adds_takeCore (s : CaDiCaL) (c : Cube) : OnlyAdds (takeCore env s c) := by
  unfold takeCore
  refine .bind (.modifyP ?_ ?_) fun _ => .bind adds_getP fun p => .bind (adds_is_init _) fun b =>
    .ite (.modifyP ?_ ?_) (.pure _)
  all_goals exact fun _ => rfl

theorem adds_is_inductive (k : Nat) (c : Cube) (g : Bool) : OnlyAdds (is_inductive env k c g) := by
  have hask : OnlyAdds (askInductive env k c) := by
    unfold askInductive
    exact .bind (adds_reorder _) fun _ => .bind adds_getP fun _ => .bind (adds_ask _) fun _ =>
      .bind (adds_setSolver k _) fun _ => .bind adds_record fun _ => .pure _
  unfold is_inductive
  refine .bind hask fun s => .ite (.pure _) ?_
  cases g with
  | true => exact .bind (adds_takeCore s c) fun _ => .pure _
  | false => exact .pure _

theorem adds_pushLevel (c : Cube) (n k : Nat) : OnlyAdds (pushLevel env c n k) := by
  induction n generalizing k with
  | zero => exact .pure _
  | succ n ih =>
      unfold pushLevel
      exact .bind (adds_is_inductive k c false) fun _ => .ite (ih _) (.pure _)

theorem adds_ctgBlocked (ct k : Nat) (c : Cube) : OnlyAdds (ctgBlocked env ct k c) := by
  unfold ctgBlocked
  exact .ite (.bind (adds_is_init c) fun _ => .ite (.pure _) (adds_is_inductive _ _ _)) (.pure _)

theorem cubes_insertCube (p : PDR) (c : Cube) (k : Nat) (b : Bool) (j : Nat) :
    (p.frame j).cubes ⊆ ((p.setFrames (insertCube p.frames c k b)).frame j).cubes := by
  rw [PDR.insertCube_cubes]
  split
  · exact fun _ h => (mem_setInsert cube_CMP_separates).mpr (.inr h)
  · exact fun _ h => h

theorem adds_add_cube (v : CubeVar) (k : Nat) (b isp : Bool) : OnlyAdds (add_cube v k b isp) := by
  unfold add_cube
  refine .bind (fun r => ?_) fun _ => adds_record
  show Added r (r.setP (r.pdr.add_cube v k b isp))
  -- the two members that change first are not read by `Added`
  obtain ⟨p, hp, hs, hf⟩ : ∃ p : PDR, r.pdr.add_cube v k b isp =
      (if sortLits (r.pdr.cube v) ∈ (p.frame k).cubes then p
        else p.setFrames (insertCube p.frames (sortLits (r.pdr.cube v)) k b)) ∧
      p.states = r.pdr.states ∧ p.frames = r.pdr.frames := by
    unfold PDR.add_cube
    cases v <;> cases isp <;> exact ⟨_, rfl, rfl, rfl⟩
  rw [hp]
  have hr : Added r (r.setP p) := .of_eq hs hf
  split
  · exact hr
  · exact hr.trans ⟨List.prefix_rfl, cubes_insertCube p _ k b⟩

/-! ## Lifting -/

theorem adds_askLift (k : Nat) (succ : Option Nat) : OnlyAdds (askLift env k succ) := by
  have hload : OnlyAdds (loadLift env) := by
    unfold loadLift
    refine .bind adds_getP fun p => ?_
    cases p.lift with
    | some l => exact .pure _
    | none =>
        unfold encode_lift
        refine .bind (.bind (.modifyP ?_ ?_) fun _ => .bind adds_getP fun _ => .pure _) fun _ => .pure _
        · intro p
          unfold PDR.fillSatelite2
          split <;> rfl
        · intro p
          unfold PDR.fillSatelite2
          split <;> rfl
  unfold askLift
  exact .bind hload fun _ => .bind adds_getP fun _ => .bind (adds_reorder _) fun _ =>
    .bind (adds_ask _) fun _ => .ite (.throw _) (.pure _)

/-- A new state object is filled. -/
theorem added_extract {r0 r : Run} (h0 : Added r0 r) {s : Nat} (hs : r0.pdr.states.length ≤ s)
    (k : Nat) (succ : Option Nat) (findex : Nat) :
    (extract_state_from_sat env k s succ findex).Wp (fun _ r' => Added r0 r') (fun _ => True) r := by
  unfold extract_state_from_sat
  refine (adds_askLift k succ r).bind ?_
  rintro ⟨lift, st⟩ r1 h1
  simp only [Exec.wp_bind, wp_modifyP, wp_record]
  have h := h0.trans h1
  refine ⟨?_, fun j => h.cubes j⟩
  show r0.pdr.states <+: r1.pdr.states.modify s _
  have hpre := h.states
  rw [List.prefix_iff_getElem?] at hpre ⊢
  intro i hi
  rw [List.getElem?_modify_ne _ _ (by omega)]
  exact hpre i hi

/-! ## Generalisation -/

theorem added_pushState (r : Run) (st : State) : Added r (r.setP (r.pdr.pushState st)) :=
  ⟨List.prefix_append _ _, fun _ _ h => h⟩

theorem adds_mic (fuel : Nat) :
    (∀ v k depth, OnlyAdds (mic env fuel v k depth)) ∧
    (∀ v k depth tmp required failed, OnlyAdds (micLoop env fuel v k depth tmp required failed)) ∧
    (∀ c k depth required ctg join, OnlyAdds (CTG_down env fuel c k depth required ctg join)) := by
  have hset : ∀ (v : CubeVar) (c : Cube), OnlyAdds (modifyP fun p => p.setCube v c) := by
    intro v c
    cases v <;> exact .modifyP (fun _ => rfl) fun _ => rfl
  induction fuel with
  | zero =>
      refine ⟨fun v k depth => ?_, fun v k depth tmp required failed => ?_,
        fun c k depth required ctg join => ?_⟩
      · unfold mic; exact .throw _
      · unfold micLoop; exact .throw _
      · unfold CTG_down; exact .throw _
  | succ fuel ih =>
      obtain ⟨ihmic, ihloop, ihdown⟩ := ih
      refine ⟨fun v k depth => ?_, fun v k depth tmp required failed => ?_,
        fun c k depth required ctg join => ?_⟩
      · unfold mic
        exact .bind adds_getP fun _ => .bind (adds_reorder _) fun c => .bind (hset v c) fun _ =>
          ihloop _ _ _ _ _ _
      · unfold micLoop
        cases tmp with
        | nil => exact .pure _
        | cons l rest =>
            exact .bind adds_getP fun _ => .ite (ihloop _ _ _ _ _ _) (.bind (ihdown _ _ _ _ _ _)
              fun x => .ite (.bind (hset v x.2) fun _ => ihloop _ _ _ _ _ _)
                (.ite (.pure _) (ihloop _ _ _ _ _ _)))
      · unfold CTG_down
        refine .bind (adds_is_init c) fun _ => .ite (.pure _) (.bind (adds_is_inductive _ _ _)
          fun _ => .ite (.bind adds_getP fun _ => .pure _) (.ite (.pure _) fun r => ?_))
        -- the two new state objects, the first of which is filled
        rw [Exec.wp_bind, wp_newState, Exec.wp_bind, wp_newState]
        have h2 := (added_pushState r {}).trans (added_pushState _ { latches := c })
        refine (added_extract h2 le_rfl _ _ _).bind fun _ r3 h3 => ?_
        refine (OnlyAdds.bind adds_getP fun p => .bind (adds_ctgBlocked ctg k _) fun b => .ite ?_ ?_).after h3
        · exact .bind adds_getP fun _ => .bind (adds_pushLevel _ _ _) fun i =>
            .bind (ihmic _ _ _) fun _ => .bind (adds_add_cube _ _ _ _) fun _ => ihdown _ _ _ _ _ _
        · exact .ite (.ite (.pure _) (ihdown _ _ _ _ _ _)) (.pure _)

end ModelChecker
