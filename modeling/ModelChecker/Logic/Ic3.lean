import ModelChecker.Logic.System

/-!
# Abstract property-directed reachability

The machine below keeps a sequence of sets of cubes. A cube is stored at one level only and counts for
every level up to it, so the states of level `i` are those outside all cubes stored at `i` or above.
Its steps say under which conditions a cube may be learned, moved up or an obligation queued. The
results are the ones every run needs: the level sequence is closed under transitions
(`Reachable.closed`), it over-approximates the reachable states as long as no blocked obligation meets
an initial state (`Reachable.initiation`, `Reachable.overapprox`), and an empty level is an inductive
invariant (`Reachable.safe`).
-/

namespace ModelChecker.Logic

/-- Levels, queued obligations (a cube and the level it is to be blocked at), and the cubes of the
obligations blocked so far. -/
structure Ic3 (C : Type) where
  len : Nat
  frames : Nat → Set C
  queue : Set (C × Nat)
  blocked : Set C

namespace Ic3

variable {W C : Type} (T : System W) (sat : C → W → Prop)

def depth (s : Ic3 C) : Nat := s.len - 2

/-- Outside every cube stored at level `i` or above. -/
def Excluded (frames : Nat → Set C) (i : Nat) (w : W) : Prop :=
  ∀ j, i ≤ j → ∀ c ∈ frames j, ¬ sat c w

/-- Level `0` is the initial condition. -/
def Level (frames : Nat → Set C) (i : Nat) (w : W) : Prop :=
  if i = 0 then T.Init w else Excluded sat frames i w

/-- The cube holds an initial point that satisfies the constraints. -/
def MeetsInit (c : C) : Prop := ∃ w, T.Init w ∧ T.Cons w ∧ sat c w

def RelInd (frames : Nat → Set C) (i : Nat) (c : C) : Prop :=
  ∀ w w', Level T sat frames i w → ¬ sat c w → T.Step w w' → ¬ sat c w'

/-- No transition out of level `i` ends in a bad point. -/
def BadFree (frames : Nat → Set C) (i : Nat) : Prop :=
  ∀ w w', Level T sat frames i w → T.Step w w' → ¬ T.Bad w'

/-- From each point of `c`, some input leads to a bad point at once or into `d`. -/
def Lifts (c d : C) : Prop :=
  ∀ w, sat c w → ∃ v, T.same w v ∧ (T.Bad v ∨ ∀ w', T.Next v w' → sat d w')

/-- From each point of `c`, some input leads to a bad point at once or in one step. -/
def LiftsBad (c : C) : Prop :=
  ∀ w, sat c w → ∃ v, T.same w v ∧ (T.Bad v ∨ ∃ w', T.Next v w' ∧ T.Bad w')

def Subsumes (d c : C) : Prop := ∀ w, sat c w → sat d w

/-- The states of the abstract machine. The conditions on obligations are only asked for where the
system has no constraints. -/
inductive Reachable : Ic3 C → Prop
  | base {f : Nat → Set C} (hf : ∀ j, f j = ∅) (h0 : ∀ w, T.Init w → T.Cons w → ¬ T.Bad w) :
      Reachable ⟨1, f, ∅, ∅⟩
  | extend {s} (hs : Reachable s)
      (h1 : s.len = 1 → ∀ w w', T.Init w → T.Step w w' → ¬ T.Bad w')
      (hd : 3 ≤ s.len → BadFree T sat s.frames s.depth) : Reachable { s with len := s.len + 1 }
  | learn {s} {k : Nat} {c : C} (hs : Reachable s) (hk : 1 ≤ k) (hl : k < s.len)
      (hr : RelInd T sat s.frames (k - 1) c)
      (hi : MeetsInit T sat c → ∃ b ∈ s.blocked, MeetsInit T sat b) :
      Reachable { s with frames := Function.update s.frames k (insert c (s.frames k)) }
  | drop {s} {i : Nat} {c d : C} (hs : Reachable s) (hi : 1 ≤ i) (hd : d ∈ s.frames (i + 1))
      (hsub : Subsumes sat d c) :
      Reachable { s with frames := Function.update s.frames i (s.frames i \ {c}) }
  | enqueueBad {s} {c : C} (hs : Reachable s) (hl : 3 ≤ s.len)
      (hc : (∀ w, T.Cons w) → LiftsBad T sat c) :
      Reachable { s with queue := {(c, s.depth - 1)} }
  | enqueue {s} {c d : C} {k : Nat} (hs : Reachable s) (hq : (d, k + 1) ∈ s.queue)
      (hc : (∀ w, T.Cons w) → Lifts T sat c d) :
      Reachable { s with queue := insert (c, k) s.queue }
  | requeue {s} {c d : C} {k : Nat} (hs : Reachable s) (h1 : 1 ≤ k) (hk : k ≤ s.depth)
      (hd : d ∈ s.frames k) (hsub : Subsumes sat d c) :
      Reachable { s with queue := insert (c, k) s.queue }
  | dequeue {s} {q : Set (C × Nat)} (hs : Reachable s) (hq : q ⊆ s.queue) :
      Reachable { s with queue := q }
  | block {s} {c : C} {k : Nat} (hs : Reachable s) (hq : (c, k) ∈ s.queue) :
      Reachable { s with blocked := insert c s.blocked }

variable {T sat}

/-! ## Levels -/

theorem Excluded.mono {f : Nat → Set C} {i j : Nat} (h : i ≤ j) {w : W} (hw : Excluded sat f i w) :
    Excluded sat f j w :=
  fun k hk => hw k (h.trans hk)

@[simp] theorem level_zero {f : Nat → Set C} {w : W} : Level T sat f 0 w ↔ T.Init w := by
  simp [Level]

theorem level_pos {f : Nat → Set C} {i : Nat} (h : 1 ≤ i) {w : W} :
    Level T sat f i w ↔ Excluded sat f i w := by
  simp [Level, show i ≠ 0 by omega]

/-- A cube stored at level `k` is one more condition on the levels up to `k`. -/
theorem excluded_insert {f : Nat → Set C} {k i : Nat} {c : C} {w : W} :
    Excluded sat (Function.update f k (insert c (f k))) i w ↔
      Excluded sat f i w ∧ (i ≤ k → ¬ sat c w) := by
  unfold Excluded
  constructor
  · intro h
    refine ⟨fun j hj d hd => h j hj d ?_, fun hk => h k hk c (by simp)⟩
    by_cases hjk : j = k
    · subst hjk; simp [hd]
    · simp [hjk, hd]
  · rintro ⟨h, hc⟩ j hj d hd
    by_cases hjk : j = k
    · subst hjk
      simp only [Function.update_self, Set.mem_insert_iff] at hd
      rcases hd with rfl | hd
      · exact hc hj
      · exact h j hj d hd
    · rw [Function.update_of_ne hjk] at hd
      exact h j hj d hd

/-- Dropping a cube that is subsumed one level higher changes no level. -/
theorem excluded_drop {f : Nat → Set C} {i k : Nat} {c d : C} (hd : d ∈ f (k + 1))
    (hsub : Subsumes sat d c) {w : W} :
    Excluded sat (Function.update f k (f k \ {c})) i w ↔ Excluded sat f i w := by
  constructor
  · intro h j hj e he hsat
    by_cases hjk : j = k
    · subst hjk
      by_cases hec : e = c
      · subst hec
        exact h (j + 1) (by omega) d (by rw [Function.update_of_ne (by omega)]; exact hd) (hsub w hsat)
      · exact h j hj e (by simp [he, hec]) hsat
    · exact h j hj e (by rw [Function.update_of_ne hjk]; exact he) hsat
  · intro h j hj e he
    refine h j hj e ?_
    by_cases hjk : j = k
    · subst hjk; simp at he; exact he.1
    · rwa [Function.update_of_ne hjk] at he

/-! ## Closure under transitions -/

theorem Reachable.empty_above {s : Ic3 C} (h : Reachable T sat s) : ∀ j, s.len ≤ j → s.frames j = ∅ := by
  induction h with
  | base hf _ => exact fun j _ => hf j
  | extend hs _ _ ih => exact fun j hj => ih j (by simp only at hj; omega)
  | learn hs _ hl _ _ ih =>
      intro j hj
      simp only at hj ⊢
      rw [Function.update_of_ne (by omega)]
      exact ih j hj
  | @drop s i _ _ hs _ _ _ ih =>
      intro j hj
      simp only at hj ⊢
      by_cases hji : j = i
      · subst hji; simp [ih j hj]
      · rw [Function.update_of_ne hji]; exact ih j hj
  | enqueueBad _ _ _ ih => exact ih
  | enqueue _ _ _ ih => exact ih
  | requeue _ _ _ _ _ ih => exact ih
  | dequeue _ _ ih => exact ih
  | block _ _ ih => exact ih

/-- Constrained transitions lead from each level to the next one. -/
theorem Reachable.closed {s : Ic3 C} (h : Reachable T sat s) {i : Nat} (hi : 1 ≤ i)
    (hl : i + 1 < s.len) {w w' : W} (hw : Excluded sat s.frames i w) (hst : T.Step w w') :
    Excluded sat s.frames (i + 1) w' := by
  induction h with
  | base _ _ => simp at hl
  | @extend s hs _ _ ih =>
      by_cases hlt : i + 1 < s.len
      · exact ih hlt hw
      · -- the new top level is still empty
        intro j hj c hc
        simp only at hc
        rw [hs.empty_above j (by omega)] at hc
        cases hc
  | @learn s k c hs hk _ hr _ ih =>
      simp only at hw ⊢
      rw [excluded_insert] at hw ⊢
      refine ⟨ih hl hw.1, fun hik => hr w w' ?_ (hw.2 (by omega)) hst⟩
      rw [level_pos (by omega)]
      exact hw.1.mono (by omega)
  | drop hs _ hd hsub ih =>
      simp only at hw ⊢
      rw [excluded_drop hd hsub] at hw ⊢
      exact ih hl hw
  | enqueueBad _ _ _ ih => exact ih hl hw
  | enqueue _ _ _ ih => exact ih hl hw
  | requeue _ _ _ _ _ ih => exact ih hl hw
  | dequeue _ _ ih => exact ih hl hw
  | block _ _ ih => exact ih hl hw

/-! ## Initiation -/

theorem Reachable.initiation {s : Ic3 C} (h : Reachable T sat s)
    (hb : ∀ b ∈ s.blocked, ¬ MeetsInit T sat b) :
    ∀ j, ∀ c ∈ s.frames j, ¬ MeetsInit T sat c := by
  induction h with
  | base hf _ => intro j c hc; simp only [hf j] at hc; cases hc
  | extend _ _ _ ih => exact ih hb
  | @learn s k c _ _ _ _ hi ih =>
      intro j d hd
      simp only at hd
      by_cases hjk : j = k
      · subst hjk
        simp only [Function.update_self, Set.mem_insert_iff] at hd
        rcases hd with rfl | hd
        · intro hm
          obtain ⟨b, hbm, hbi⟩ := hi hm
          exact hb b hbm hbi
        · exact ih hb j d hd
      · rw [Function.update_of_ne hjk] at hd
        exact ih hb j d hd
  | @drop s i _ _ _ _ _ _ ih =>
      intro j d hd
      simp only at hd
      by_cases hji : j = i
      · subst hji; simp at hd; exact ih hb j d hd.1
      · rw [Function.update_of_ne hji] at hd; exact ih hb j d hd
  | enqueueBad _ _ _ ih => exact ih hb
  | enqueue _ _ _ ih => exact ih hb
  | requeue _ _ _ _ _ ih => exact ih hb
  | dequeue _ _ ih => exact ih hb
  | block _ _ ih => exact ih fun b hbm => hb b (Set.mem_insert_of_mem _ hbm)

theorem Reachable.init_not_bad {s : Ic3 C} (h : Reachable T sat s) :
    ∀ w, T.Init w → T.Cons w → ¬ T.Bad w := by
  induction h with
  | base _ h0 => exact h0
  | _ => assumption

/-- An empty level is an inductive invariant, once the top level cannot reach a bad point. -/
theorem Reachable.safe {s : Ic3 C} (h : Reachable T sat s)
    (hb : ∀ b ∈ s.blocked, ¬ MeetsInit T sat b) {i : Nat} (hi : 1 ≤ i) (hd : i ≤ s.depth)
    (he : s.frames i = ∅) (hbad : BadFree T sat s.frames s.depth) : T.Safe := by
  have hlen : i + 1 < s.len := by unfold depth at hd; omega
  refine System.safe_of_invariant (Excluded sat s.frames i) h.init_not_bad ?_ ?_ ?_
  · intro w hw hc j _ c hcm hsat
    exact h.initiation hb j c hcm ⟨w, hw, hc, hsat⟩
  · intro w w' hw hst j hj c hc
    by_cases hji : j = i
    · subst hji; rw [he] at hc; cases hc
    · exact h.closed hi hlen hw hst j (by omega) c hc
  · intro w w' hw hst
    refine hbad w w' ?_ hst
    rw [level_pos (by omega)]
    exact hw.mono hd

/-! ## Over-approximation of the reachable states

Without constraints, nothing an obligation asks for is ever reached, so blocking it is harmless. -/

/-- The number of steps within which no bad point is known to be reachable. -/
def bound (s : Ic3 C) : Nat := if s.len = 1 then 0 else max 1 s.depth

structure Sound (T : System W) (sat : C → W → Prop) (s : Ic3 C) : Prop where
  noBad : ∀ w, T.Within s.bound w → ¬ T.Bad w
  approx : ∀ i, 1 ≤ i → i < s.len → ∀ w, T.Within i w → Excluded sat s.frames i w
  queue : ∀ c k, (c, k) ∈ s.queue → 3 ≤ s.len ∧ k ≤ s.depth ∧ ∀ w, T.Within k w → ¬ sat c w
  blocked : ∀ b ∈ s.blocked, ¬ MeetsInit T sat b

/-- A path within level `k - 1` that avoids bad points cannot enter a cube inductive there. -/
theorem Sound.not_sat {s : Ic3 C} (hs : Sound T sat s) (hcons : ∀ w, T.Cons w) {k : Nat} {c : C}
    (hk : 1 ≤ k) (hl : k < s.len) (hr : RelInd T sat s.frames (k - 1) c)
    (hi : MeetsInit T sat c → ∃ b ∈ s.blocked, MeetsInit T sat b) {w : W} (hw : T.Within k w) :
    ¬ sat c w := by
  have hinit : ∀ v, T.Init v → ¬ sat c v := by
    intro v hv hsat
    obtain ⟨b, hb, hm⟩ := hi ⟨v, hv, hcons v, hsat⟩
    exact hs.blocked b hb hm
  obtain ⟨j, hj, hrj⟩ := hw
  induction j generalizing w with
  | zero => exact hinit w hrj
  | succ j ih =>
      obtain ⟨v, hv, hn⟩ := hrj
      have hwithin : T.Within (k - 1) v := ⟨j, by omega, hv⟩
      have hnb : ¬ T.Bad v := hs.noBad v (hwithin.mono (by
        unfold bound depth; split <;> omega))
      refine hr v w ?_ (ih (by omega) hv) ⟨hcons v, hnb, hn, hcons w⟩
      by_cases hk1 : k = 1
      · subst hk1
        have : j = 0 := by omega
        subst this
        exact level_zero.mpr hv
      · rw [level_pos (by omega)]
        exact hs.approx (k - 1) (by omega) (by omega) v hwithin

/-- The level property holds of the new top level, which has no cubes. -/
theorem Sound.extend {s : Ic3 C} (hr : Reachable T sat s) (hs : Sound T sat s)
    (hcons : ∀ w, T.Cons w) (h1 : s.len = 1 → ∀ w w', T.Init w → T.Step w w' → ¬ T.Bad w')
    (hd : 3 ≤ s.len → BadFree T sat s.frames s.depth) :
    Sound T sat { s with len := s.len + 1 } := by
  refine ⟨?_, ?_, ?_, hs.blocked⟩
  · rintro w ⟨j, hj, hrj⟩
    by_cases hold : j ≤ s.bound
    · exact hs.noBad w ⟨j, hold, hrj⟩
    · -- one step more than before: the last transition starts in the old top level
      obtain ⟨i, rfl⟩ : ∃ i, j = i + 1 := ⟨j - 1, by omega⟩
      have hcase : (s.len = 1 ∧ i = 0) ∨ (3 ≤ s.len ∧ i = s.depth ∧ s.bound = s.depth) := by
        simp only [bound, depth] at hj hold ⊢
        split_ifs at hj hold ⊢ <;> omega
      obtain ⟨v, hv, hn⟩ := hrj
      have hvb : T.Within s.bound v := ⟨i, by simp only [bound]; split_ifs <;> omega, hv⟩
      have hst : T.Step v w := ⟨hcons v, hs.noBad v hvb, hn, hcons w⟩
      rcases hcase with ⟨hlen, rfl⟩ | ⟨h3, rfl, hb⟩
      · exact h1 hlen v w hv hst
      · have hdep : 1 ≤ s.depth := by unfold depth; omega
        refine hd h3 v w ?_ hst
        rw [level_pos hdep]
        exact hs.approx _ hdep (by unfold depth; omega) v (hb ▸ hvb)
  · intro i hi hl w hw
    by_cases hil : i < s.len
    · exact hs.approx i hi hil w hw
    · intro j hj c hc
      simp only at hc
      rw [hr.empty_above j (by omega)] at hc
      cases hc
  · intro c k hq
    obtain ⟨h3, hk, hw⟩ := hs.queue c k hq
    exact ⟨by simp only; omega, by unfold depth at *; simp only; omega, hw⟩

theorem Reachable.sound {s : Ic3 C} (h : Reachable T sat s) (hcons : ∀ w, T.Cons w) :
    Sound T sat s := by
  induction h with
  | base hf h0 =>
      refine ⟨?_, ?_, ?_, ?_⟩
      · rintro w ⟨j, hj, hr⟩
        have : j = 0 := by simpa [bound] using hj
        subst this
        exact h0 w hr (hcons w)
      · intro i _ _ w _ j _ c hc; simp only [hf j] at hc; cases hc
      · intro c k hq; cases hq
      · intro b hb; cases hb
  | extend hs h1 hd ih => exact Sound.extend hs ih hcons h1 hd
  | @learn s k c hs hk hl hr hi ih =>
      refine ⟨ih.noBad, ?_, ih.queue, ih.blocked⟩
      intro i hi1 hil w hw
      simp only at hil ⊢
      rw [excluded_insert]
      exact ⟨ih.approx i hi1 hil w hw, fun hik => ih.not_sat hcons hk hl hr hi (hw.mono hik)⟩
  | drop hs _ hd hsub ih =>
      refine ⟨ih.noBad, ?_, ih.queue, ih.blocked⟩
      intro i hi1 hil w hw
      simp only at hil ⊢
      rw [excluded_drop hd hsub]
      exact ih.approx i hi1 hil w hw
  | @enqueueBad s c hs hl hc ih =>
      refine ⟨ih.noBad, ih.approx, ?_, ih.blocked⟩
      intro d k hq
      obtain ⟨rfl, rfl⟩ := Prod.mk.inj (Set.mem_singleton_iff.mp hq)
      refine ⟨hl, by unfold depth; simp only; omega, fun w hw hsat => ?_⟩
      have hb : s.bound = s.depth := by
        unfold bound depth; rw [if_neg (by omega)]; omega
      obtain ⟨v, hsame, hbad | ⟨w', hn, hbad⟩⟩ := hc hcons w hsat
      · exact ih.noBad v ((hw.same hsame).mono (by rw [hb]; omega)) hbad
      · exact ih.noBad w' (((hw.same hsame).next hn).mono (by rw [hb]; unfold depth; omega)) hbad
  | @enqueue s c d k hs hq hc ih =>
      refine ⟨ih.noBad, ih.approx, ?_, ih.blocked⟩
      intro e j he
      rcases Set.mem_insert_iff.mp he with he | he
      · obtain ⟨rfl, rfl⟩ := Prod.mk.inj he
        obtain ⟨h3, hk, hun⟩ := ih.queue d (j + 1) hq
        refine ⟨h3, by unfold depth at *; simp only at *; omega, fun w hw hsat => ?_⟩
        obtain ⟨v, hsame, hbad | hnext⟩ := hc hcons w hsat
        · refine ih.noBad v ((hw.same hsame).mono ?_) hbad
          unfold bound; rw [if_neg (by omega)]; omega
        · obtain ⟨w', hn⟩ := T.total v
          exact hun w' ((hw.same hsame).next hn) (hnext w' hn)
      · exact ih.queue e j he
  | @requeue s c d k hs h1 hk hd hsub ih =>
      refine ⟨ih.noBad, ih.approx, ?_, ih.blocked⟩
      intro e j he
      rcases Set.mem_insert_iff.mp he with he | he
      · obtain ⟨rfl, rfl⟩ := Prod.mk.inj he
        have h3 : 3 ≤ s.len := by unfold depth at hk; omega
        refine ⟨h3, hk, fun w hw hsat => ?_⟩
        exact ih.approx j h1 (by unfold depth at hk; omega) w hw j le_rfl d hd (hsub w hsat)
      · exact ih.queue e j he
  | dequeue hs hq ih => exact ⟨ih.noBad, ih.approx, fun c k h => ih.queue c k (hq h), ih.blocked⟩
  | @block s c k hs hq ih =>
      refine ⟨ih.noBad, ih.approx, ih.queue, ?_⟩
      intro b hb
      rcases Set.mem_insert_iff.mp hb with rfl | hb
      · rintro ⟨w, hw, _, hsat⟩
        exact (ih.queue b k hq).2.2 w ⟨0, by omega, hw⟩ hsat
      · exact ih.blocked b hb

end Ic3

end ModelChecker.Logic
