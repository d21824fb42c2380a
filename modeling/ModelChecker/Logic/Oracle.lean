import ModelChecker.Logic.Exec

/-!
# Programs that read a value others change

A program with a clock reads a value that may be different at every time. `Causal` says that its run
depends only on the values up to the time it ends at.
-/

namespace ModelChecker.Logic.Exec

variable {σ ε α β ι : Type} {clock : σ → Nat}

/-! ## Clocks -/

/-- The clock does not go back, however the program ends. -/
def Grows (clock : σ → Nat) (x : Exec σ ε α) : Prop := ∀ s, clock s ≤ clock (x s).2

theorem Grows.pure (a : α) : Grows clock (Pure.pure a : Exec σ ε α) := fun _ => le_rfl

theorem Grows.throw (e : ε) : Grows clock (throw e : Exec σ ε α) := fun _ => le_rfl

theorem Grows.modify {f : σ → σ} (h : ∀ s, clock s ≤ clock (f s)) :
    Grows clock (modify f : Exec σ ε Unit) := h

theorem Grows.lift {f : σ → α × σ} (h : ∀ s, clock s ≤ clock (f s).2) :
    Grows clock (lift f : Exec σ ε α) := h

theorem Grows.bind {x : Exec σ ε α} {f : α → Exec σ ε β} (hx : Grows clock x) (hf : ∀ a, Grows clock (f a)) :
    Grows clock (x >>= f) := by
  intro s
  have h := hx s
  rcases hxs : x s with ⟨e | a, s'⟩
  · rw [run_bind_error hxs]
    rwa [hxs] at h
  · rw [run_bind_ok hxs]
    rw [hxs] at h
    exact h.trans (hf a s')

theorem Grows.ite {c : Prop} [Decidable c] {x y : Exec σ ε α} (hx : Grows clock x) (hy : Grows clock y) :
    Grows clock (if c then x else y) := by
  split
  · exact hx
  · exact hy

theorem Grows.forEach {f : α → Exec σ ε Unit} (h : ∀ x, Grows clock (f x)) (xs : List α) :
    Grows clock (forEach xs f) := by
  induction xs with
  | nil => exact .pure ()
  | cons x xs ih => exact (h x).bind fun _ => ih

/-! ## Causality -/

/-- The run depends on the values before the time it ends at. -/
structure Causal (clock : σ → Nat) (x : (Nat → ι) → Exec σ ε α) : Prop where
  grows : ∀ ρ, Grows clock (x ρ)
  agrees : ∀ ρ ρ' s, (∀ t, t < clock (x ρ s).2 → ρ t = ρ' t) → x ρ' s = x ρ s

/-- A program that does not read the value. -/
theorem Causal.const {x : Exec σ ε α} (h : Grows clock x) : Causal clock fun _ : Nat → ι => x :=
  ⟨fun _ => h, fun _ _ _ _ => rfl⟩

/-- The value at the time of the clock, which then goes on. -/
theorem Causal.read {tick : σ → σ} (h : ∀ s, clock (tick s) = clock s + 1) :
    Causal clock fun ρ : Nat → α => (lift fun s => (ρ (clock s), tick s) : Exec σ ε α) := by
  refine ⟨fun ρ => .lift fun s => (Nat.le_succ _).trans (h s).ge, fun ρ ρ' s hag => ?_⟩
  have hlt : clock s < clock (tick s) := by
    rw [h]
    exact Nat.lt_succ_self _
  have hs : ρ (clock s) = ρ' (clock s) := hag _ hlt
  show (Except.ok (ρ' (clock s)), tick s) = (Except.ok (ρ (clock s)), tick s)
  rw [hs]

theorem Causal.bind {x : (Nat → ι) → Exec σ ε α} {f : (Nat → ι) → α → Exec σ ε β} (hx : Causal clock x)
    (hf : ∀ a, Causal clock fun ρ => f ρ a) : Causal clock fun ρ => x ρ >>= f ρ := by
  refine ⟨fun ρ => (hx.grows ρ).bind fun a => (hf a).grows ρ, fun ρ ρ' s hag => ?_⟩
  rcases hxs : x ρ s with ⟨e | a, s'⟩
  · rw [run_bind_error hxs] at hag
    have hx' : x ρ' s = (.error e, s') := (hx.agrees ρ ρ' s (by rw [hxs]; exact hag)).trans hxs
    rw [run_bind_error hxs, run_bind_error hx']
  · rw [run_bind_ok hxs] at hag
    have hle : clock s' ≤ clock (f ρ a s').2 := (hf a).grows ρ s'
    have hx' : x ρ' s = (.ok a, s') :=
      (hx.agrees ρ ρ' s (by rw [hxs]; exact fun t ht => hag t (lt_of_lt_of_le ht hle))).trans hxs
    rw [run_bind_ok hxs, run_bind_ok hx']
    exact (hf a).agrees ρ ρ' s' hag

theorem Causal.ite {c : Prop} [Decidable c] {x y : (Nat → ι) → Exec σ ε α} (hx : Causal clock x)
    (hy : Causal clock y) : Causal clock fun ρ => if c then x ρ else y ρ := by
  by_cases hc : c
  · simp only [hc, ↓reduceIte]
    exact hx
  · simp only [hc, ↓reduceIte]
    exact hy

end ModelChecker.Logic.Exec
