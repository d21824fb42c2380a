import ModelChecker.Pdr.Lemmas.Simplified

/-!
# The transition relation handed to Minisat

The clauses of `encode_translation` say neither more nor less than that the circuit makes a step from a
point that satisfies the constraints and is not bad.
-/

namespace ModelChecker

open Logic

variable {A : Circuit} {P : Primes}

namespace Aiger

variable (A : Aiger)

/-- Minisat filled by `encode_translation`, before `simplify()`. -/
def translation : MinisatSimp :=
  A.minisat true A.translate_to_prime.1 A.translate_to_prime.2.1 A.translate_to_prime.2.2

/-- The assignment has the inputs and latches of `w` and the primed inputs of `x'`. -/
structure Agrees (σ w x' : Assignment) : Prop where
  leaf : ∀ u, 2 ≤ u → u < A.first_and → σ u = w u
  input' : ∀ u, A.IsInput u → σ (A.prime_var A.translate_to_prime.2.2 u).1 = x' u

end Aiger

theorem translation_clauses : A.translation.clauses = (A.transition true (primes0 A)).1 := by
  obtain ⟨_, hb, hc⟩ := translate_to_prime_spec (A := A)
  unfold Aiger.translation
  rw [hb, hc]
  show (minisatOf A true (primes0 A)).clauses = _
  rw [minisatOf_eq]

/-- The successor of `w` that reads the inputs of `x'`. -/
def successor (A : Circuit) (w x' : Assignment) : Assignment := fun u =>
  if A.IsInput u then x' u else A.val w (A.nexts.getD (u - (A.num_inputs + 2)) 1)

theorem next_successor (w x' : Assignment) : A.system.Next w (successor A w x') := by
  intro i _
  have h : ¬ A.IsInput (A.latch i) := by
    unfold Aiger.IsInput Aiger.latch; omega
  unfold successor
  rw [if_neg h]
  simp [Aiger.latch]

theorem successor_input {w x' : Assignment} {u : Nat} (h : A.IsInput u) :
    successor A w x' u = x' u := by
  simp [successor, h]

theorem IsInput.leaf {u : Nat} (h : A.IsInput u) : 2 ≤ u ∧ u < A.first_and := by
  have := h.2
  exact ⟨h.1, by unfold Aiger.first_and; omega⟩

/-- Inputs and latches are primed by a shift, whatever was allocated. -/
theorem primeOf_shift {Q : Primes} {u : Nat} (h2 : 2 ≤ u) (h : u < A.first_and) :
    primeOf A P u = primeOf A Q u := by
  rw [primeOf_leaf h2 h, primeOf_leaf h2 h]

/-- A step of the circuit is a model. -/
theorem Aiger.Agrees.joint (w x' : Assignment) (P : Primes) (hP : P.Ok A) :
    A.Agrees (ModelChecker.joint A P w (successor A w x')) w x' where
  leaf u h2 h := by
    have hle : u ≤ A.max_var := by have := Circuit.first_and_le_max (A := A); omega
    rw [joint_of_le hle, Circuit.eval_leaf w h2 h]
  input' u hu := by
    obtain ⟨h2, h⟩ := IsInput.leaf hu
    show ModelChecker.joint A P w _ (primeOf A (primes0 A) u) = _
    rw [primeOf_shift (Q := P) h2 h, joint_primeOf hP (by omega) (Primes.has_of_small h),
      Circuit.eval_leaf _ h2 h, successor_input hu]

/-- The primed variables of a model are those of any successor with the primed inputs. -/
theorem Aiger.Agrees.unprimed {σ w x' w' : Assignment} (h : A.Agrees σ w x')
    (hn : A.system.Next σ (ModelChecker.unprimed A P σ)) (hn' : A.system.Next w w')
    (hin : ∀ u, A.IsInput u → w' u = x' u) :
    ∀ u, 2 ≤ u → u < A.first_and → ModelChecker.unprimed A P σ u = w' u := by
  intro u h2 hu
  by_cases hi : A.IsInput u
  · rw [hin u hi, ← h.input' u hi]
    show σ (primeOf A P u) = σ (primeOf A (primes0 A) u)
    rw [primeOf_shift h2 hu]
  · have hl : A.IsLatch u := ⟨by unfold Aiger.IsInput at hi; omega, hu⟩
    obtain ⟨hlt, he⟩ := Circuit.IsLatch.eq_latch hl
    rw [← he, hn _ hlt, hn' _ hlt]
    exact Circuit.val_congr h.leaf (Circuit.next_ok hlt)

/-- The clauses handed to the simplifier have a model with given inputs, latches and primed inputs just
when the constraints hold and the bad literal does not; the primed variables of each such model are
those of the successor. -/
theorem encode_translation_exact (A : Circuit) (w x' : Assignment) :
    ((∃ σ, CnfSat σ A.translation.clauses ∧ A.Agrees σ w x') ↔
      A.val w A.bad = false ∧ ∀ l ∈ A.constraints, A.val w l = true) ∧
    ∀ σ, CnfSat σ A.translation.clauses → A.Agrees σ w x' →
      (∀ i, i < A.num_latches → σ (A.prime_var A.translate_to_prime.2.2 (A.latch i)).1 =
        A.val w (A.nexts.getD i 1)) ∧
      ∀ w', A.system.Next w w' → (∀ u, A.IsInput u → w' u = x' u) →
        litVal σ A.translate_to_prime.1 = A.val w' A.bad ∧
        A.translate_to_prime.2.1.map (litVal σ) = A.constraints.map (A.val w') := by
  obtain ⟨hroots, hbad, hcons⟩ := translate_to_prime_spec (A := A)
  have hext := transition_ext true hroots.ok
  rw [translation_clauses]
  refine ⟨⟨?_, ?_⟩, fun σ hσ hag => ?_⟩
  · rintro ⟨σ, hσ, hag⟩
    obtain ⟨htr, _⟩ := transition_sound true hroots hσ
    refine ⟨?_, fun l hl => ?_⟩
    · rw [← Circuit.val_congr hag.leaf A.wf.bad_ok]
      exact Bool.eq_false_iff.mpr htr.notBad
    · rw [← Circuit.val_congr hag.leaf (A.wf.constraints_ok l hl)]
      exact htr.cons rfl l hl
  · rintro ⟨hb, hc⟩
    have htr : IsTransition A true w (successor A w x') :=
      ⟨Bool.eq_false_iff.mp hb, fun _ => hc, next_successor w x'⟩
    exact ⟨_, transition_complete true hroots htr, .joint w x' _ (transition_ok true hroots.ok)⟩
  · obtain ⟨htr, hfix⟩ := transition_sound true hroots hσ
    refine ⟨fun i hi => ?_, fun w' hn hin => ?_⟩
    · obtain ⟨h2, hlt⟩ : 2 ≤ A.latch i ∧ A.latch i < A.first_and := by
        unfold Aiger.latch Aiger.first_and; omega
      show σ (primeOf A (primes0 A) (A.latch i)) = _
      rw [primeOf_shift (Q := (A.transition true (primes0 A)).2) h2 hlt,
        ← Circuit.val_congr hag.leaf (Circuit.next_ok hi)]
      exact htr.next i hi
    · have hu := hag.unprimed htr.next hn hin
      constructor
      · rw [hbad, ← primeLit_ext hroots.bad hext, hfix.bad']
        exact Circuit.val_congr hu A.wf.bad_ok
      · rw [hcons, List.map_map]
        refine List.map_congr_left fun l hl => ?_
        show litVal σ (primeLit A (primes0 A) l) = _
        rw [← primeLit_ext (hroots.cons l hl) hext, hfix.cons' l hl]
        exact Circuit.val_congr hu (A.wf.constraints_ok l hl)

end ModelChecker
