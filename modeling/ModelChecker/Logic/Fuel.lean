import ModelChecker.Logic.Exec

/-!
# Programs with fuel

A program that takes fuel stops with one fixed error when the fuel is spent. More fuel changes nothing
else (`Chain`), so a program that does not run out of some amount of fuel has one outcome (`Halts`).
`Stops` bounds the errors a program may stop with.
-/

namespace ModelChecker.Logic.Exec

variable {σ ε α β : Type}

/-! ## Errors -/

/-- Whenever the program stops early, its error satisfies `P`. -/
def Stops (x : Exec σ ε α) (P : ε → Prop) (s : σ) : Prop := ∀ e, (x s).1 = .error e → P e

section Stops

variable {P : ε → Prop} {s : σ}

theorem stops_pure {a : α} : (Pure.pure a : Exec σ ε α).Stops P s := by
  rintro e ⟨⟩

theorem stops_lift {f : σ → α × σ} : (lift f : Exec σ ε α).Stops P s := by
  rintro e ⟨⟩

theorem stops_modify {f : σ → σ} : (modify f : Exec σ ε Unit).Stops P s := by
  rintro e ⟨⟩

theorem stops_throw {e : ε} (h : P e) : (throw e : Exec σ ε α).Stops P s := by
  rintro e' ⟨⟩
  exact h

theorem stops_ite {c : Prop} [Decidable c] {x y : Exec σ ε α} (hx : c → x.Stops P s)
    (hy : ¬ c → y.Stops P s) : (if c then x else y).Stops P s := by
  split
  · exact hx ‹_›
  · exact hy ‹_›

/-- The second part is asked about the states the first part can leave. -/
theorem Stops.bind {x : Exec σ ε α} {f : α → Exec σ ε β} {Q : α → σ → Prop} {E : σ → Prop}
    (hx : x.Stops P s) (hw : x.Wp Q E s) (hf : ∀ a s', Q a s' → (f a).Stops P s') :
    (x >>= f).Stops P s := by
  intro e he
  rcases hxs : x s with ⟨e' | a, s'⟩
  · rw [run_bind_error hxs] at he
    cases he
    exact hx _ (by rw [hxs])
  · rw [run_bind_ok hxs] at he
    exact hf a s' (hw.run_ok hxs) e he

/-- A first part about which nothing needs to be known. -/
theorem Stops.then {x : Exec σ ε α} {f : α → Exec σ ε β} (hx : x.Stops P s)
    (hf : ∀ a s', (f a).Stops P s') : (x >>= f).Stops P s := by
  intro e he
  rcases hxs : x s with ⟨e' | a, s'⟩
  · rw [run_bind_error hxs] at he
    cases he
    exact hx _ (by rw [hxs])
  · rw [run_bind_ok hxs] at he
    exact hf a s' e he

theorem stops_bind_iff {x : Exec σ ε α} {f : α → Exec σ ε β} :
    (x >>= f).Stops P s ↔ x.Stops P s ∧ ∀ a m, x s = (.ok a, m) → (f a).Stops P m := by
  constructor
  · intro h
    refine ⟨fun e he => ?_, fun a m hx e he => ?_⟩
    · rcases hx : x s with ⟨e' | a, m⟩
      · rw [hx] at he
        cases he
        exact h e (by rw [run_bind_error hx])
      · rw [hx] at he
        cases he
    · exact h e (by rw [run_bind_ok hx, he])
  · rintro ⟨hx, hf⟩ e he
    rcases hxs : x s with ⟨e' | a, m⟩
    · rw [run_bind_error hxs] at he
      cases he
      exact hx e (by rw [hxs])
    · rw [run_bind_ok hxs] at he
      exact hf a m hxs e he

theorem stops_forEach {f : α → Exec σ ε Unit} (h : ∀ x s, (f x).Stops P s) (xs : List α) (s : σ) :
    (forEach xs f).Stops P s := by
  induction xs generalizing s with
  | nil => exact stops_pure
  | cons x xs ih => exact (h x s).then fun _ s' => ih s'

theorem Stops.mono {x : Exec σ ε α} {P' : ε → Prop} (h : x.Stops P s) (hP : ∀ e, P e → P' e) :
    x.Stops P' s :=
  fun e he => hP e (h e he)

/-- A program without errors returns. -/
theorem Stops.exists_ok {x : Exec σ ε α} (h : x.Stops (fun _ => False) s) : ∃ a s', x s = (.ok a, s') := by
  cases hx : x s with
  | mk res s' =>
      cases res with
      | ok a => exact ⟨a, s', rfl⟩
      | error e => exact (h e (by rw [hx])).elim

end Stops

/-! ## Fuel -/

/-- `y` does what `x` does, unless `x` stops with `e`. -/
def Below (e : ε) (x y : Exec σ ε α) : Prop := ∀ s, (x s).1 = .error e ∨ x s = y s

section Below

variable {e : ε}

theorem Below.refl (x : Exec σ ε α) : Below e x x := fun _ => .inr rfl

theorem Below.trans {x y z : Exec σ ε α} (h : Below e x y) (h' : Below e y z) : Below e x z := by
  intro s
  rcases h s with hs | hs
  · exact .inl hs
  · rw [hs]; exact h' s

theorem Below.throw (y : Exec σ ε α) : Below e (throw e) y := fun _ => .inl rfl

theorem Below.bind {x y : Exec σ ε α} {f g : α → Exec σ ε β} (h : Below e x y)
    (hf : ∀ a, Below e (f a) (g a)) : Below e (x >>= f) (y >>= g) := by
  intro s
  rcases hx : x s with ⟨e' | a, s'⟩
  · rcases h s with hs | hs
    · rw [run_bind_error hx]
      rw [hx] at hs
      cases hs
      exact .inl rfl
    · rw [run_bind_error hx, run_bind_error (hs ▸ hx)]
      exact .inr rfl
  · rcases h s with hs | hs
    · rw [hx] at hs
      cases hs
    · rw [run_bind_ok hx, run_bind_ok (hs ▸ hx)]
      exact hf a s'

theorem Below.ite {c : Prop} [Decidable c] {x x' y y' : Exec σ ε α} (hx : Below e x x')
    (hy : Below e y y') : Below e (if c then x else y) (if c then x' else y') := by
  split
  · exact hx
  · exact hy

end Below

/-- More fuel only makes a difference where the fuel was spent. -/
def Chain (e : ε) (f : Nat → Exec σ ε α) : Prop := ∀ n, Below e (f n) (f (n + 1))

/-- Some amount of fuel is enough. -/
def Halts (e : ε) (f : Nat → Exec σ ε α) (s : σ) : Prop := ∃ n, (f n s).1 ≠ .error e

section Halts

variable {e : ε} {s : σ}

theorem Chain.const (x : Exec σ ε α) : Chain e fun _ => x := fun _ => .refl x

theorem Chain.below {f : Nat → Exec σ ε α} (h : Chain e f) {m n : Nat} (hmn : m ≤ n) :
    Below e (f m) (f n) := by
  induction n, hmn using Nat.le_induction with
  | base => exact .refl _
  | succ n _ ih => exact ih.trans (h n)

/-- Once the fuel is enough, its amount does not matter. -/
theorem Halts.stable {f : Nat → Exec σ ε α} (hh : Halts e f s) (hc : Chain e f) :
    ∃ n, (f n s).1 ≠ .error e ∧ ∀ m, n ≤ m → f m s = f n s := by
  obtain ⟨n, hn⟩ := hh
  refine ⟨n, hn, fun m hm => ?_⟩
  rcases hc.below hm s with h | h
  · exact absurd h hn
  · exact h.symm

theorem halts_of_stops {x : Exec σ ε α} (h : x.Stops (· ≠ e) s) : Halts e (fun _ => x) s :=
  ⟨0, fun he => h e he rfl⟩

/-- The rule for sequencing: the second part halts from every state the first part can leave. -/
theorem Halts.bind {f : Nat → Exec σ ε α} {g : Nat → α → Exec σ ε β} {Q : α → σ → Prop}
    {E : σ → Prop} (hf : Halts e f s) (hc : Chain e f) (hg : ∀ a, Chain e fun n => g n a)
    (hw : ∀ n, (f n).Wp Q E s) (hh : ∀ a s', Q a s' → Halts e (fun n => g n a) s') :
    Halts e (fun n => f n >>= g n) s := by
  obtain ⟨n, hn, hst⟩ := hf.stable hc
  rcases hx : f n s with ⟨e' | a, s'⟩
  · refine ⟨n, fun he => hn ?_⟩
    have he : ((f n >>= g n) s).1 = .error e := he
    rw [run_bind_error hx] at he
    cases he
    rw [hx]
  · have hq := (hw n).run_ok hx
    obtain ⟨m, hm, hst'⟩ := (hh a s' hq).stable (hg a)
    refine ⟨max n m, ?_⟩
    show ((f (max n m) >>= g (max n m)) s).1 ≠ .error e
    rw [run_bind_ok ((hst _ (le_max_left n m)).trans hx), hst' _ (le_max_right n m)]
    exact hm

/-- A first part about which nothing needs to be known. -/
theorem Halts.then {f : Nat → Exec σ ε α} {g : Nat → α → Exec σ ε β} (hf : Halts e f s)
    (hc : Chain e f) (hg : ∀ a, Chain e fun n => g n a) (hh : ∀ a s', Halts e (fun n => g n a) s') :
    Halts e (fun n => f n >>= g n) s := by
  have hw : ∀ n, (f n).Wp (fun _ _ => True) (fun _ => True) s := fun n =>
    (wp_run (f n) s).mono (fun _ _ _ => trivial) fun _ h => h
  exact hf.bind hc hg hw fun a s' _ => hh a s'

/-- A first part that takes no fuel. -/
theorem Halts.bind_const {x : Exec σ ε α} {g : Nat → α → Exec σ ε β} {Q : α → σ → Prop} {E : σ → Prop}
    (hx : x.Stops (· ≠ e) s) (hw : x.Wp Q E s) (hh : ∀ a s', Q a s' → Halts e (fun n => g n a) s') :
    Halts e (fun n => x >>= g n) s := by
  rcases hxs : x s with ⟨e' | a, s'⟩
  · refine ⟨0, fun he => ?_⟩
    have he : ((x >>= g 0) s).1 = .error e := he
    rw [run_bind_error hxs] at he
    cases he
    exact hx _ (by rw [hxs]) rfl
  · obtain ⟨n, hn⟩ := hh a s' (hw.run_ok hxs)
    refine ⟨n, ?_⟩
    show ((x >>= g n) s).1 ≠ .error e
    rw [run_bind_ok hxs]
    exact hn

/-- A first part that takes no fuel and about which nothing needs to be known. -/
theorem Halts.then_const {x : Exec σ ε α} {g : Nat → α → Exec σ ε β} (hx : x.Stops (· ≠ e) s)
    (hh : ∀ a s', Halts e (fun n => g n a) s') : Halts e (fun n => x >>= g n) s :=
  .bind_const hx (wp_run x s) fun a s' _ => hh a s'

/-- One unit of fuel is spent first. -/
theorem Halts.succ {f : Nat → Exec σ ε α} (h : Halts e (fun n => f (n + 1)) s) : Halts e f s := by
  obtain ⟨n, hn⟩ := h
  exact ⟨n + 1, hn⟩

theorem Halts.ite {c : Prop} [Decidable c] {f g : Nat → Exec σ ε α} (hf : c → Halts e f s)
    (hg : ¬ c → Halts e g s) : Halts e (fun n => if c then f n else g n) s := by
  by_cases hc : c
  · simp only [hc, ↓reduceIte]
    exact hf hc
  · simp only [hc, ↓reduceIte]
    exact hg hc

end Halts

end ModelChecker.Logic.Exec
