import Mathlib.Data.Finset.Card

/-!
# Numbers drawn from a counter

Threads that number themselves with a shared counter. Reading the counter and writing it back are two steps,
so a thread may draw a number that another one has as well, and increments get lost. The numbers stay below
the number of threads; if no increment is lost, each of them is drawn.
-/

namespace ModelChecker.Logic

/-- Where a thread stands that draws a number. -/
inductive Slot where
  | waiting
  | loaded (t : Nat)
  | drawn (t : Nat)
deriving DecidableEq, Repr

/-- The number that was drawn. -/
def Slot.number : Slot → Option Nat
  | .drawn t => some t
  | _ => none

/-- The steps a thread takes until it has drawn its number. -/
def Slot.left : Slot → Nat
  | .waiting => 2
  | .loaded _ => 1
  | .drawn _ => 0

structure Tickets (ι : Type) where
  counter : Nat := 0
  slot : ι → Slot := fun _ => .waiting

namespace Tickets

variable {ι : Type}

/-- The thread reads the counter. -/
def load [DecidableEq ι] (d : Tickets ι) (i : ι) : Tickets ι := { d with slot := Function.update d.slot i (.loaded d.counter) }

/-- The thread that has read `t` writes `t + 1`; its number is `t`. -/
def store [DecidableEq ι] (d : Tickets ι) (i : ι) (t : Nat) : Tickets ι := ⟨t + 1, Function.update d.slot i (.drawn t)⟩

/-- The threads that have a number. -/
def done (I : Finset ι) (d : Tickets ι) : Finset ι := I.filter fun i => (d.slot i).number.isSome

/-- All numbers below `n` have been drawn. -/
def DrawnBelow (I : Finset ι) (d : Tickets ι) (n : Nat) : Prop := ∀ t, t < n → ∃ i ∈ I, d.slot i = .drawn t

/-- What the threads in `I` keep. -/
structure Ok (I : Finset ι) (d : Tickets ι) : Prop where
  counter_le : d.counter ≤ (done I d).card
  pos : (done I d).Nonempty → 0 < d.counter
  full : d.counter = (done I d).card → d.DrawnBelow I d.counter
  loaded : ∀ i ∈ I, ∀ t, d.slot i = .loaded t →
    t ≤ (done I d).card ∧ (t = (done I d).card → d.DrawnBelow I t)
  drawn : ∀ i ∈ I, ∀ t, d.slot i = .drawn t → t < I.card

variable {I : Finset ι} {d : Tickets ι} {i : ι} {t : Nat}

theorem mem_done {j : ι} : j ∈ done I d ↔ j ∈ I ∧ ∃ t, d.slot j = .drawn t := by
  unfold done
  rw [Finset.mem_filter]
  refine and_congr_right fun _ => ?_
  cases d.slot j <;> simp [Slot.number]

theorem card_done_le : (done I d).card ≤ I.card := Finset.card_le_card (Finset.filter_subset _ _)

theorem DrawnBelow.mono {d' : Tickets ι} {n : Nat} (h : d.DrawnBelow I n)
    (hkeep : ∀ j u, d.slot j = .drawn u → d'.slot j = .drawn u) : d'.DrawnBelow I n := by
  intro u hu
  obtain ⟨j, hj, hd⟩ := h u hu
  exact ⟨j, hj, hkeep j u hd⟩

theorem ok_start (I : Finset ι) : ({} : Tickets ι).Ok I where
  counter_le := Nat.zero_le _
  pos hne := by
    obtain ⟨j, hj⟩ := hne
    obtain ⟨_, t, ht⟩ := mem_done.mp hj
    cases ht
  full _ t ht := absurd ht (Nat.not_lt_zero t)
  loaded _ _ _ h := Slot.noConfusion h
  drawn _ _ _ h := Slot.noConfusion h

/-! ## Reading -/

section Steps

variable [DecidableEq ι]

theorem load_keeps (hw : d.slot i = .waiting) (j : ι) (u : Nat) :
    (d.load i).slot j = .drawn u ↔ d.slot j = .drawn u := by
  unfold load
  by_cases he : j = i
  · subst he
    simp [hw]
  · simp [Function.update_of_ne he]

theorem done_load (hw : d.slot i = .waiting) : done I (d.load i) = done I d := by
  ext j
  simp only [mem_done, load_keeps hw]

theorem Ok.load (h : d.Ok I) (hw : d.slot i = .waiting) : (d.load i).Ok I := by
  have hdone := done_load (I := I) hw
  have hkeep : ∀ j u, d.slot j = .drawn u → (d.load i).slot j = .drawn u := fun j u => (load_keeps hw j u).mpr
  refine ⟨?_, ?_, fun hf => ?_, fun j hj u hu => ?_,
    fun j hj u hu => h.drawn j hj u ((load_keeps hw j u).mp hu)⟩
  · rw [hdone]
    exact h.counter_le
  · rw [hdone]
    exact h.pos
  · rw [hdone] at hf
    exact (h.full hf).mono hkeep
  · rw [hdone]
    by_cases he : j = i
    · subst he
      obtain rfl : d.counter = u := by simpa [Tickets.load] using hu
      exact ⟨h.counter_le, fun hf => (h.full hf).mono hkeep⟩
    · have hold : d.slot j = .loaded u := by
        simpa [Tickets.load, Function.update_of_ne he] using hu
      obtain ⟨hle, hf⟩ := h.loaded j hj u hold
      exact ⟨hle, fun heq => (hf heq).mono hkeep⟩

/-! ## Writing -/

theorem store_keeps (hl : d.slot i = .loaded t) (j : ι) (u : Nat) (h : d.slot j = .drawn u) :
    (d.store i t).slot j = .drawn u := by
  have he : j ≠ i := by
    rintro rfl
    rw [hl] at h
    cases h
  unfold store
  simp only [Function.update_of_ne he]
  exact h

theorem done_store (hi : i ∈ I) : done I (d.store i t) = insert i (done I d) := by
  ext j
  rw [Finset.mem_insert, mem_done, mem_done]
  by_cases he : j = i
  · subst he
    simp [store, hi]
  · simp [store, he]

theorem card_done_store (hi : i ∈ I) (hl : d.slot i = .loaded t) :
    (done I (d.store i t)).card = (done I d).card + 1 := by
  rw [done_store hi, Finset.card_insert_of_notMem]
  intro hmem
  obtain ⟨_, u, hu⟩ := mem_done.mp hmem
  rw [hl] at hu
  cases hu

/-- The threads that have drawn a number do not include the one that is about to. -/
theorem card_done_lt (hi : i ∈ I) (hl : d.slot i = .loaded t) : (done I d).card < I.card := by
  have hle := card_done_le (I := I) (d := d.store i t)
  rw [card_done_store hi hl] at hle
  exact hle

theorem Ok.store (h : d.Ok I) (hi : i ∈ I) (hl : d.slot i = .loaded t) : (d.store i t).Ok I := by
  obtain ⟨hle, hfull⟩ := h.loaded i hi t hl
  have hcard := card_done_store hi hl
  have hself : (d.store i t).slot i = .drawn t := Function.update_self _ _ _
  have hother : ∀ j, j ≠ i → (d.store i t).slot j = d.slot j := fun j hj => Function.update_of_ne hj _ _
  refine ⟨?_, fun _ => Nat.succ_pos t, fun hf => ?_, fun j hj u hu => ?_, fun j hj u hu => ?_⟩
  · rw [hcard]
    exact Nat.succ_le_succ hle
  · -- the increment is the last one, so the number was read after all the others were drawn
    rw [hcard] at hf
    intro u hu
    rcases Nat.lt_succ_iff_lt_or_eq.mp hu with hlt | rfl
    · exact (hfull (Nat.succ.inj hf)).mono (store_keeps hl) u hlt
    · exact ⟨i, hi, hself⟩
  · have he : j ≠ i := by
      rintro rfl
      rw [hself] at hu
      cases hu
    rw [hother j he] at hu
    have hu' := (h.loaded j hj u hu).1
    rw [hcard]
    exact ⟨by omega, fun heq => by omega⟩
  · by_cases he : j = i
    · subst he
      rw [hself] at hu
      cases hu
      exact Nat.lt_of_le_of_lt hle (card_done_lt hi hl)
    · rw [hother j he] at hu
      exact h.drawn j hj u hu

end Steps

/-! ## All increments -/

/-- If no increment was lost, every number was drawn. -/
theorem Ok.all_drawn (h : d.Ok I) (hc : d.counter = I.card) : d.DrawnBelow I I.card := by
  have hle := card_done_le (I := I) (d := d)
  have hcard : d.counter = (done I d).card := by
    have := h.counter_le
    omega
  exact hc ▸ h.full hcard

/-- A single thread does not lose its increment. -/
theorem Ok.counter_single (h : d.Ok I) (hI : I.card = 1) (hall : ∀ i ∈ I, ∃ t, d.slot i = .drawn t) :
    d.counter = I.card := by
  have hne : I.Nonempty := Finset.card_pos.mp (by omega)
  obtain ⟨i, hi⟩ := hne
  have hpos := h.pos ⟨i, mem_done.mpr ⟨hi, hall i hi⟩⟩
  have hle := h.counter_le
  have hcard := card_done_le (I := I) (d := d)
  omega

end Tickets

end ModelChecker.Logic
