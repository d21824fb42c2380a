import Mathlib.Tactic

/-!
# Constrained transition systems

A point `w` fixes a state and the input read in that state; `Next` fixes the state part of the
successor only. Constraints restrict the points a trace may visit, and `same` relates the points with
one state.
-/

namespace ModelChecker.Logic

structure System (W : Type) where
  Init : W → Prop
  Next : W → W → Prop
  Cons : W → Prop
  Bad : W → Prop
  same : W → W → Prop
  same_refl : ∀ w, same w w
  init_same : ∀ {w v}, same w v → Init w → Init v
  next_same : ∀ {u w v}, same w v → Next u w → Next u v
  total : ∀ w, ∃ w', Next w w'

namespace System

variable {W : Type} (T : System W)

/-- `w 0, …, w n` starts in an initial state, follows `Next` and satisfies the constraints at every
step, the last one included. -/
def Trace (n : Nat) (w : Nat → W) : Prop :=
  T.Init (w 0) ∧ (∀ i, i < n → T.Next (w i) (w (i + 1))) ∧ ∀ i, i ≤ n → T.Cons (w i)

/-- No trace ends in a bad point. -/
def Safe : Prop := ∀ n w, T.Trace n w → ¬ T.Bad (w n)

/-- A constrained transition out of a point that is not bad. -/
structure Step (w w' : W) : Prop where
  cons : T.Cons w
  notBad : ¬ T.Bad w
  next : T.Next w w'
  cons' : T.Cons w'

/-- `w` ends a path of `n` transitions from an initial state; constraints are not looked at. -/
def ReachIn : Nat → W → Prop
  | 0, w => T.Init w
  | n + 1, w => ∃ v, ReachIn n v ∧ T.Next v w

/-- Reached in at most `n` steps. -/
def Within (n : Nat) (w : W) : Prop := ∃ j, j ≤ n ∧ T.ReachIn j w

variable {T}

theorem ReachIn.same {n : Nat} {w v : W} (hs : T.same w v) (h : T.ReachIn n w) : T.ReachIn n v := by
  cases n with
  | zero => exact T.init_same hs h
  | succ n =>
      obtain ⟨u, hu, hn⟩ := h
      exact ⟨u, hu, T.next_same hs hn⟩

theorem Within.same {n : Nat} {w v : W} (hs : T.same w v) (h : T.Within n w) : T.Within n v := by
  obtain ⟨j, hj, hr⟩ := h
  exact ⟨j, hj, hr.same hs⟩

theorem Within.mono {m n : Nat} (h : m ≤ n) {w : W} (hw : T.Within m w) : T.Within n w := by
  obtain ⟨j, hj, hr⟩ := hw
  exact ⟨j, hj.trans h, hr⟩

theorem Within.next {n : Nat} {w w' : W} (hw : T.Within n w) (hn : T.Next w w') :
    T.Within (n + 1) w' := by
  obtain ⟨j, hj, hr⟩ := hw
  exact ⟨j + 1, by omega, w, hr, hn⟩

theorem Trace.reachIn {n : Nat} {w : Nat → W} (h : T.Trace n w) {i : Nat} (hi : i ≤ n) :
    T.ReachIn i (w i) := by
  induction i with
  | zero => exact h.1
  | succ i ih => exact ⟨w i, ih (by omega), h.2.1 i (by omega)⟩

/-- Without constraints every path is a trace. -/
theorem ReachIn.exists_trace (hcons : ∀ w, T.Cons w) {n : Nat} {w : W} (h : T.ReachIn n w) :
    ∃ tr, T.Trace n tr ∧ tr n = w := by
  induction n generalizing w with
  | zero => exact ⟨fun _ => w, ⟨h, fun _ hi => absurd hi (Nat.not_lt_zero _), fun _ _ => hcons _⟩, rfl⟩
  | succ n ih =>
      obtain ⟨v, hv, hn⟩ := h
      obtain ⟨tr, ht, rfl⟩ := ih hv
      refine ⟨fun i => if i ≤ n then tr i else w, ⟨?_, fun i hi => ?_, fun _ _ => hcons _⟩, ?_⟩
      · simp only [Nat.zero_le, ↓reduceIte]
        exact ht.1
      · have hin : i ≤ n := by omega
        simp only [hin, ↓reduceIte]
        split_ifs with hle
        · exact ht.2.1 i (by omega)
        · obtain rfl : i = n := by omega
          exact hn
      · exact if_neg (by omega)

/-- An invariant that holds initially, is kept by constrained steps out of good points and excludes
bad successors makes the system safe. -/
theorem safe_of_invariant (F : W → Prop) (h0 : ∀ w, T.Init w → T.Cons w → ¬ T.Bad w)
    (hF : ∀ w, T.Init w → T.Cons w → F w) (hstep : ∀ w w', F w → T.Step w w' → F w')
    (hbad : ∀ w w', F w → T.Step w w' → ¬ T.Bad w') : T.Safe := by
  rintro n w ⟨hi, hn, hc⟩
  -- no point of the trace is bad, and all of them are in `F`
  have key : ∀ i, i ≤ n → F (w i) ∧ ¬ T.Bad (w i) := by
    intro i
    induction i with
    | zero => exact fun _ => ⟨hF _ hi (hc 0 (by omega)), h0 _ hi (hc 0 (by omega))⟩
    | succ i ih =>
        intro hle
        obtain ⟨hf, hb⟩ := ih (by omega)
        have hs : T.Step (w i) (w (i + 1)) :=
          ⟨hc i (by omega), hb, hn i (by omega), hc (i + 1) hle⟩
        exact ⟨hstep _ _ hf hs, hbad _ _ hf hs⟩
  exact (key n le_rfl).2

end System

end ModelChecker.Logic
