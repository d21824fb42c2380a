import Mathlib.Tactic

/-!
# Fair runs

Infinite runs of a system whose steps are taken by one of several threads. A thread is treated fairly
when it takes a step again and again until it is done.
-/

namespace ModelChecker.Logic

variable {σ ι : Type} {step : ι → σ → σ → Prop} {f : Nat → σ}

/-- In each step a thread moves, or nothing happens. -/
def IsRun (step : ι → σ → σ → Prop) (f : Nat → σ) : Prop :=
  ∀ n, f (n + 1) = f n ∨ ∃ e, step e (f n) (f (n + 1))

/-- At any time the thread is going to be done or to take a step. -/
def Fair (step : ι → σ → σ → Prop) (e : ι) (done : σ → Prop) (f : Nat → σ) : Prop :=
  ∀ n, ∃ m, n ≤ m ∧ (done (f m) ∨ step e (f m) (f (m + 1)))

theorem IsRun.invariant (h : IsRun step f) {P : σ → Prop} (h0 : P (f 0))
    (hstep : ∀ e s s', P s → step e s s' → P s') (n : Nat) : P (f n) := by
  induction n with
  | zero => exact h0
  | succ n ih =>
      rcases h n with heq | ⟨e, he⟩
      · rw [heq]
        exact ih
      · exact hstep e _ _ ih he

theorem IsRun.related (h : IsRun step f) {R : σ → σ → Prop} (hrefl : ∀ s, R s s)
    (htrans : ∀ s s' s'', R s s' → R s' s'' → R s s'')
    (hstep : ∀ n e, step e (f n) (f (n + 1)) → R (f n) (f (n + 1))) {m n : Nat} (hmn : m ≤ n) :
    R (f m) (f n) := by
  induction n, hmn using Nat.le_induction with
  | base => exact hrefl _
  | succ n _ ih =>
      rcases h n with heq | ⟨e, he⟩
      · rw [heq]
        exact ih
      · exact htrans _ _ _ ih (hstep n e he)

/-- Finitely many steps, after which nothing happens. -/
theorem exists_isRun {s s' : σ} (h : Relation.ReflTransGen (fun s s' => ∃ e, step e s s') s s') :
    ∃ f, f 0 = s ∧ IsRun step f ∧ ∃ N, ∀ n, N ≤ n → f n = s' := by
  induction h with
  | refl => exact ⟨fun _ => s, rfl, fun _ => .inl rfl, 0, fun _ _ => rfl⟩
  | @tail s1 s2 _ hstep ih =>
      obtain ⟨f, h0, hrun, N, hN⟩ := ih
      refine ⟨fun n => if n ≤ N then f n else s2, by simpa using h0, fun n => ?_, N + 1, fun n hn => ?_⟩
      · rcases Nat.lt_trichotomy n N with hlt | rfl | hgt
        · simp only [hlt.le, Nat.succ_le_of_lt hlt, ↓reduceIte]
          exact hrun n
        · simp only [le_refl, ↓reduceIte, Nat.not_succ_le_self, hN n le_rfl]
          exact .inr hstep
        · have h1 : ¬ n ≤ N := by omega
          have h2 : ¬ n + 1 ≤ N := by omega
          exact .inl ((if_neg h2).trans (if_neg h1).symm)
      · exact if_neg (by omega)

/-! ## Schedules -/

section Moves

variable {α : Type} {ok : α → σ → Prop} {move : α → σ → σ}

/-- The state after these moves. -/
def moved (move : α → σ → σ) : List α → σ → σ
  | [], s => s
  | m :: moves, s => moved move moves (move m s)

/-- Each move is allowed when its turn comes. -/
def Allowed (ok : α → σ → Prop) (move : α → σ → σ) : List α → σ → Prop
  | [], _ => True
  | m :: moves, s => ok m s ∧ Allowed ok move moves (move m s)

def decidableAllowed [∀ m s, Decidable (ok m s)] : (moves : List α) → (s : σ) → Decidable (Allowed ok move moves s)
  | [], _ => isTrue trivial
  | m :: moves, s =>
    have := decidableAllowed moves (move m s)
    inferInstanceAs (Decidable (_ ∧ _))

instance [∀ m s, Decidable (ok m s)] (moves : List α) (s : σ) : Decidable (Allowed ok move moves s) :=
  decidableAllowed moves s

theorem Allowed.steps (hstep : ∀ m s, ok m s → ∃ e, step e s (move m s)) {moves : List α} {s : σ}
    (h : Allowed ok move moves s) : Relation.ReflTransGen (fun s s' => ∃ e, step e s s') s (moved move moves s) := by
  induction moves generalizing s with
  | nil => exact .refl
  | cons m moves ih => exact .head (hstep m s h.1) (ih h.2)

theorem moved_invariant {P : σ → Prop} (hmove : ∀ m s, P s → P (move m s)) {moves : List α} {s : σ} (h : P s) :
    P (moved move moves s) := by
  induction moves generalizing s with
  | nil => exact h
  | cons m moves ih => exact ih (hmove m s h)

end Moves

/-! ## Fairness -/

variable {e : ι} {done : σ → Prop}

/-- A number that the thread's steps make smaller, and no other step makes larger. -/
theorem Fair.eventually_done (h : Fair step e done f) (μ : σ → Nat) (hle : ∀ n, μ (f (n + 1)) ≤ μ (f n))
    (hlt : ∀ n, ¬ done (f n) → step e (f n) (f (n + 1)) → μ (f (n + 1)) < μ (f n)) : ∃ n, done (f n) := by
  have hmono : Antitone fun n => μ (f n) := antitone_nat_of_succ_le hle
  suffices hall : ∀ M n, μ (f n) = M → ∃ n, done (f n) from hall _ 0 rfl
  intro M
  induction M using Nat.strong_induction_on with
  | h M ih =>
      intro n hn
      obtain ⟨m, hm, hd | hs⟩ := h n
      · exact ⟨m, hd⟩
      · by_cases hd : done (f m)
        · exact ⟨m, hd⟩
        · have h1 := hlt m hd hs
          have h2 : μ (f m) ≤ μ (f n) := hmono hm
          exact ih _ (by omega) (m + 1) rfl

/-- A number that the thread's steps make larger takes every value, unless the thread is done. -/
theorem Fair.eventually_eq (h : Fair step e done f) (hdone : ∀ n, ¬ done (f n)) (ν : σ → Nat) (h0 : ν (f 0) = 0)
    (hge : ∀ n, ν (f n) ≤ ν (f (n + 1)) ∧ ν (f (n + 1)) ≤ ν (f n) + 1)
    (hlt : ∀ n, step e (f n) (f (n + 1)) → ν (f n) < ν (f (n + 1))) (c : Nat) : ∃ n, ν (f n) = c := by
  have hmono : Monotone fun n => ν (f n) := monotone_nat_of_le_succ fun n => (hge n).1
  induction c with
  | zero => exact ⟨0, h0⟩
  | succ c ih =>
      -- the first time it is larger than `c`
      obtain ⟨n, hn⟩ := ih
      obtain ⟨m, hm, hd | hs⟩ := h n
      · exact absurd hd (hdone m)
      · have hex : ∃ m, c < ν (f m) := by
          have hle : ν (f n) ≤ ν (f m) := hmono hm
          have hgt := hlt m hs
          exact ⟨m + 1, by omega⟩
        classical
        refine ⟨Nat.find hex, ?_⟩
        have hgt := Nat.find_spec hex
        have hpos : Nat.find hex ≠ 0 := by
          intro hz
          rw [hz, h0] at hgt
          omega
        have hpred := Nat.find_min hex (Nat.sub_one_lt hpos)
        have hstep := (hge (Nat.find hex - 1)).2
        rw [Nat.sub_add_cancel (Nat.one_le_iff_ne_zero.mpr hpos)] at hstep
        omega

theorem fair_of_done {s : σ} {N : Nat} (hrest : ∀ n, N ≤ n → f n = s) (hd : done s) : Fair step e done f := by
  intro n
  refine ⟨max n N, le_max_left n N, .inl ?_⟩
  rw [hrest _ (le_max_right n N)]
  exact hd

/-- Finitely many things that happen once and for all have all happened at some time. -/
theorem exists_all_of_eventually {P : Nat → Nat → Prop} (hmono : ∀ i m n, m ≤ n → P i m → P i n) (k : Nat)
    (h : ∀ i, i < k → ∃ n, P i n) : ∃ n, ∀ i, i < k → P i n := by
  induction k with
  | zero => exact ⟨0, fun i hi => absurd hi (Nat.not_lt_zero i)⟩
  | succ k ih =>
      obtain ⟨m, hm⟩ := ih fun i hi => h i (by omega)
      obtain ⟨n, hn⟩ := h k (Nat.lt_succ_self k)
      refine ⟨max m n, fun i hi => ?_⟩
      rcases Nat.lt_succ_iff_lt_or_eq.mp hi with hlt | rfl
      · exact hmono i m _ (le_max_left m n) (hm i hlt)
      · exact hmono i n _ (le_max_right m n) hn

end ModelChecker.Logic
