import Mathlib.Tactic

/-!
# State-passing programs with errors

`Exec σ ε α` runs on a state and keeps the state also when it stops with an error. `x.Wp Q E s` is the
weakest precondition used for it: from the state `s`, a normal return satisfies `Q` and an error leaves
a state with `E`.
-/

namespace ModelChecker.Logic

def Exec (σ ε α : Type) := σ → Except ε α × σ

namespace Exec

variable {σ ε α β : Type}

def pure (a : α) : Exec σ ε α := fun s => (.ok a, s)

def bind (x : Exec σ ε α) (f : α → Exec σ ε β) : Exec σ ε β := fun s =>
  match x s with
  | (.ok a, s') => f a s'
  | (.error e, s') => (.error e, s')

instance : Monad (Exec σ ε) where
  pure := Exec.pure
  bind := Exec.bind

def modify (f : σ → σ) : Exec σ ε Unit := fun s => (.ok (), f s)

def throw (e : ε) : Exec σ ε α := fun s => (.error e, s)

/-- A step that computes its result and the next state at once. -/
def lift (f : σ → α × σ) : Exec σ ε α := fun s => (.ok (f s).1, (f s).2)

/-- One call for each element of the list. -/
def forEach (xs : List α) (f : α → Exec σ ε Unit) : Exec σ ε Unit :=
  match xs with
  | [] => Pure.pure ()
  | x :: xs => do
      f x
      forEach xs f

theorem run_bind_ok {x : Exec σ ε α} {f : α → Exec σ ε β} {s s' : σ} {a : α} (h : x s = (.ok a, s')) :
    (x >>= f) s = f a s' := by
  show Exec.bind x f s = f a s'
  simp only [Exec.bind, h]

theorem run_bind_error {x : Exec σ ε α} {f : α → Exec σ ε β} {s s' : σ} {e : ε}
    (h : x s = (.error e, s')) : (x >>= f) s = (.error e, s') := by
  show Exec.bind x f s = _
  simp only [Exec.bind, h]

theorem bind_eq_ok {x : Exec σ ε α} {f : α → Exec σ ε β} {s t : σ} {b : β} :
    (x >>= f) s = (.ok b, t) ↔ ∃ a m, x s = (.ok a, m) ∧ f a m = (.ok b, t) := by
  constructor
  · intro h
    rcases hx : x s with ⟨e | a, m⟩
    · rw [run_bind_error hx] at h
      cases h
    · rw [run_bind_ok hx] at h
      exact ⟨a, m, rfl, h⟩
  · rintro ⟨a, m, hx, hf⟩
    rw [run_bind_ok hx, hf]

theorem pure_eq_ok {s t : σ} {a b : α} : (Pure.pure a : Exec σ ε α) s = (.ok b, t) ↔ a = b ∧ s = t := by
  show (Except.ok a, s) = (Except.ok b, t) ↔ _
  simp

/-- A test that stops the program when it fails. -/
theorem guard_eq_ok {c : Prop} [Decidable c] {e : ε} {x : Exec σ ε α} {s t : σ} {a : α} :
    (if c then throw e else x) s = (.ok a, t) ↔ ¬ c ∧ x s = (.ok a, t) := by
  by_cases hc : c
  · simp [hc, throw]
  · simp [hc]

instance : LawfulMonad (Exec σ ε) :=
  LawfulMonad.mk' _ (fun x => by
      funext s
      show bind x pure s = x s
      unfold bind pure
      split <;> rename_i h <;> rw [h])
    (fun _ _ => rfl)
    (fun x f g => by
      funext s
      show bind (bind x f) g s = bind x (fun a => bind (f a) g) s
      unfold bind
      cases h : x s with
      | mk e s' => cases e <;> rfl)

/-! ## Weakest preconditions -/

def Wp (x : Exec σ ε α) (Q : α → σ → Prop) (E : σ → Prop) (s : σ) : Prop :=
  match x s with
  | (.ok a, s') => Q a s'
  | (.error _, s') => E s'

variable {Q Q' : α → σ → Prop} {E E' : σ → Prop} {s : σ}

@[simp] theorem wp_pure {a : α} : Wp (Pure.pure a : Exec σ ε α) Q E s ↔ Q a s := Iff.rfl

@[simp] theorem wp_bind {x : Exec σ ε α} {f : α → Exec σ ε β} {R : β → σ → Prop} :
    Wp (x >>= f) R E s ↔ Wp x (fun a => Wp (f a) R E) E s := by
  show Wp (Exec.bind x f) R E s ↔ _
  unfold Wp Exec.bind
  rcases x s with ⟨e | a, s'⟩
  · exact Iff.rfl
  · exact Iff.rfl

@[simp] theorem wp_modify {f : σ → σ} {Q : Unit → σ → Prop} :
    Wp (modify f : Exec σ ε Unit) Q E s ↔ Q () (f s) := Iff.rfl

@[simp] theorem wp_lift {f : σ → α × σ} : Wp (lift f : Exec σ ε α) Q E s ↔ Q (f s).1 (f s).2 := Iff.rfl

@[simp] theorem wp_throw {e : ε} : Wp (throw e : Exec σ ε α) Q E s ↔ E s := Iff.rfl

theorem wp_ite {c : Prop} [Decidable c] {x y : Exec σ ε α} :
    Wp (if c then x else y) Q E s ↔ (c → Wp x Q E s) ∧ (¬ c → Wp y Q E s) := by
  by_cases h : c <;> simp [h]

theorem Wp.mono {x : Exec σ ε α} (h : Wp x Q E s) (hQ : ∀ a s', Q a s' → Q' a s')
    (hE : ∀ s', E s' → E' s') : Wp x Q' E' s := by
  unfold Wp at *
  rcases hx : x s with ⟨e | a, s'⟩
  · rw [hx] at h; exact hE s' h
  · rw [hx] at h; exact hQ a s' h

theorem Wp.and {x : Exec σ ε α} (h : Wp x Q E s) (h' : Wp x Q' E' s) :
    Wp x (fun a s' => Q a s' ∧ Q' a s') (fun s' => E s' ∧ E' s') s := by
  unfold Wp at *
  rcases hx : x s with ⟨e | a, s'⟩
  · rw [hx] at h h'; exact ⟨h, h'⟩
  · rw [hx] at h h'; exact ⟨h, h'⟩

/-- The rule for sequencing: the first part establishes what the second one needs. -/
theorem Wp.bind {x : Exec σ ε α} {f : α → Exec σ ε β} {R : β → σ → Prop} (h : Wp x Q E s)
    (hf : ∀ a s', Q a s' → Wp (f a) R E s') : Wp (x >>= f) R E s :=
  wp_bind.mpr (h.mono hf fun _ h => h)

/-- Nothing needs to be known about the first part. -/
theorem wp_skip {x : Exec σ ε α} {f : α → Exec σ ε β} {R : β → σ → Prop}
    (hf : ∀ a s', Wp (f a) R (fun _ => True) s') : Wp (x >>= f) R (fun _ => True) s := by
  rw [wp_bind]
  unfold Wp
  rcases x s with ⟨e | a, s'⟩
  · trivial
  · exact hf a s'

/-- The invariant rule for `forEach`; `I` may depend on the elements still to come. -/
theorem wp_forEach {f : α → Exec σ ε Unit} (I : List α → σ → Prop)
    (h : ∀ x rest s, I (x :: rest) s → Wp (f x) (fun _ => I rest) E s) {xs : List α} {s : σ}
    (hs : I xs s) : Wp (forEach xs f) (fun _ => I []) E s := by
  induction xs generalizing s with
  | nil => exact hs
  | cons x xs ih => exact (h x xs s hs).bind fun _ _ h => ih h

theorem Wp.run_ok {x : Exec σ ε α} (h : Wp x Q E s) {s' : σ} {a : α} (hr : x s = (.ok a, s')) :
    Q a s' := by
  unfold Wp at h
  rw [hr] at h
  exact h

/-- The result and the state of the run itself. -/
theorem wp_run (x : Exec σ ε α) (s : σ) : Wp x (fun a s' => x s = (.ok a, s')) (fun _ => True) s := by
  unfold Wp
  split
  · assumption
  · trivial

/-- A program that cannot stop early returns. -/
theorem Wp.exists_ok {x : Exec σ ε α} (h : Wp x Q (fun _ => False) s) :
    ∃ a s', x s = (.ok a, s') ∧ Q a s' := by
  unfold Wp at h
  rcases hx : x s with ⟨e | a, s'⟩
  · rw [hx] at h; exact h.elim
  · rw [hx] at h; exact ⟨a, s', rfl, h⟩

/-- A condition that holds however the program ends. -/
theorem Wp.final {x : Exec σ ε α} {F : σ → Prop} (h : Wp x (fun _ => F) F s) : F (x s).2 := by
  unfold Wp at h
  rcases hx : x s with ⟨e | a, s'⟩
  · rw [hx] at h; exact h
  · rw [hx] at h; exact h

/-! ## The states before and after -/

/-- A program that returns has gone along `R`. -/
def Moves (R : σ → σ → Prop) (x : Exec σ ε α) : Prop := ∀ s, x.Wp (fun _ s' => R s s') (fun _ => True) s

section Moves

variable {R : σ → σ → Prop} {x y : Exec σ ε α} {f : α → Exec σ ε β}

theorem Moves.bind [IsTrans σ R] (hx : Moves R x) (hf : ∀ a, Moves R (f a)) : Moves R (x >>= f) :=
  fun s => (hx s).bind fun a s' h => (hf a s').mono (fun _ s'' h' => IsTrans.trans s s' s'' h h') fun _ h' => h'

theorem Moves.pure [Std.Refl R] (a : α) : Moves R (Pure.pure a : Exec σ ε α) := fun s => Std.Refl.refl s

theorem Moves.throw (e : ε) : Moves R (throw e : Exec σ ε α) := fun _ => trivial

theorem Moves.ite {c : Prop} [Decidable c] (hx : Moves R x) (hy : Moves R y) : Moves R (if c then x else y) := by
  split
  · exact hx
  · exact hy

end Moves

end Exec

end ModelChecker.Logic
