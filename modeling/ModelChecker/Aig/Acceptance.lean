import ModelChecker.Aig.Lemmas.Contents

/-!
# What the loader accepts

`translate_to_dimacs` asserts that the variables are numbered one after the other, and looks at the
chosen property with a bound that is one too large. No other literal is checked, so a file may refer to
variables that do not exist, and a gate to itself or to a later one.
-/

namespace ModelChecker

open Logic

/-- What the engines rely on: gates refer to smaller variables, and every literal to a variable of the
circuit. -/
structure Ranged (A : Aiger) : Prop where
  order : ∀ a ∈ A.ands, a.i1.natAbs < a.o ∧ a.i2.natAbs < a.o
  ands : ∀ a ∈ A.ands, A.LitOk a.o ∧ A.LitOk a.i1 ∧ A.LitOk a.i2
  nexts : ∀ l ∈ A.nexts, A.LitOk l
  constraints : ∀ l ∈ A.constraints, A.LitOk l
  allbad : ∀ l ∈ A.allbad, A.LitOk l

/-- An AIGER literal of one of the first `n` variables, the constant included. Literals from `2 ^ 31` on
are negative as `int`s and count from the other end. -/
def Within (n l : Nat) : Prop :=
  (l < 2 ^ 31 ∧ l / 2 < n) ∨ (2 ^ 31 ≤ l ∧ 3 ≤ 2 ^ 32 - l ∧ 2 ^ 32 - l ≤ 2 * n + 2)

/-- The literals of the file that nothing checks. -/
structure AigerInput.InRange (D : AigerInput) : Prop where
  nexts : ∀ a ∈ D.Aiger_latches, Within (D.numVariables - 1) a.next
  constraints : ∀ l ∈ D.Aiger_constraints, Within (D.numVariables - 1) l
  properties : ∀ l ∈ D.properties, Within (D.numVariables - 1) l
  fanins : ∀ i, (h : i < D.Aiger_ands.length) →
    Within (1 + D.header.num_inputs.toNat + D.header.num_latches.toNat + i) (D.Aiger_ands.get ⟨i, h⟩).i1 ∧
    Within (1 + D.header.num_inputs.toNat + D.header.num_latches.toNat + i) (D.Aiger_ands.get ⟨i, h⟩).i2

/-! ## Literals -/

/-- The variable of a literal after translation. -/
theorem literalOf_within {l : Nat} (hl : l < 2 ^ 32) (n : Nat) :
    (1 ≤ (literalOf l).natAbs ∧ (literalOf l).natAbs ≤ n) ↔ Within n l := by
  unfold Within literalOf
  by_cases h : l < 2 ^ 31
  · rw [wrap_of_lt (by omega) (by omega)]
    simp only
    split <;> omega
  · rw [wrap_of_ge (by omega) (by omega)]
    simp only
    split <;> omega

/-- The sizes and values of what a file holds. -/
structure AigerInput.Sized (D : AigerInput) : Prop where
  nexts : ∀ a ∈ D.Aiger_latches, a.next < 2 ^ 32
  constraints : ∀ l ∈ D.Aiger_constraints, l < 2 ^ 32
  properties : ∀ l ∈ D.properties, l < 2 ^ 32
  ands : D.Aiger_ands.length = D.header.num_ands.toNat
  fanins : ∀ a ∈ D.Aiger_ands, a.i1 < 2 ^ 32 ∧ a.i2 < 2 ^ 32

theorem mem_firsts_lt {rows : List (List Int)} {l : Nat} (h : l ∈ firsts rows) : l < 2 ^ 32 := by
  obtain ⟨row, _, rfl⟩ := List.mem_map.mp h
  exact toUnsigned_lt _

theorem Gates.sized {binary : Bool} {h : Header} {ands : List Aiger_and} {s t : List Nat}
    (hg : Gates binary h ands s t) :
    ands.length = h.num_ands.toNat ∧ ∀ a ∈ ands, a.i1 < 2 ^ 32 ∧ a.i2 < 2 ^ 32 := by
  unfold Gates at hg
  cases binary with
  | true =>
      simp only [if_true] at hg
      obtain ⟨_, _, _, ds, _, hlen, _, rfl⟩ := hg
      refine ⟨by rw [List.length_mapIdx, hlen], fun a ha => ?_⟩
      obtain ⟨i, hi, rfl⟩ := List.mem_mapIdx.mp ha
      exact ⟨toUnsigned_lt _, toUnsigned_lt _⟩
  | false =>
      simp only [Bool.false_eq_true, if_false] at hg
      obtain ⟨rows, ⟨⟨hlen, _⟩, _⟩, rfl⟩ := hg
      refine ⟨by rw [List.length_map, hlen], fun a ha => ?_⟩
      obtain ⟨row, _, rfl⟩ := List.mem_map.mp ha
      exact ⟨toUnsigned_lt _, toUnsigned_lt _⟩

theorem Sections.sized {binary : Bool} {h : Header} {D : AigerInput} {s t : List Nat}
    (hs : Sections binary h D s t) : D.Sized := by
  obtain ⟨_, latches, _, _, _, _, _, _, _, _, _, _, _, _, _, hg, _, hh, _, hl, ho, hb, hc⟩ := hs
  refine ⟨fun a ha => ?_, fun l hl => ?_, fun l hl => ?_, by rw [hg.sized.1, hh], hg.sized.2⟩
  · rw [hl] at ha
    obtain ⟨i, hi, rfl⟩ := List.mem_mapIdx.mp ha
    unfold latchOf
    split <;> exact toUnsigned_lt _
  · rw [hc] at hl
    exact mem_firsts_lt hl
  · unfold AigerInput.properties at hl
    split at hl
    · rw [hb] at hl; exact mem_firsts_lt hl
    · rw [ho] at hl; exact mem_firsts_lt hl

theorem Contents.sized {bytes : List Nat} {D : AigerInput} (h : Contents bytes D) : D.Sized := by
  obtain ⟨_, _, _, _, _, _, _, _, _, _, hs, _⟩ := h
  exact hs.sized

/-! ## The circuit -/

theorem dimacs_max_var (D : AigerInput) (propertyIndex : Nat) :
    (D.dimacs propertyIndex).max_var = D.numVariables - 1 := by
  unfold Aiger.max_var AigerInput.numVariables AigerInput.dimacs
  simp only
  omega

theorem mem_dimacs_ands {D : AigerInput} {propertyIndex : Nat} {g : AndGate} :
    g ∈ (D.dimacs propertyIndex).ands ↔ ∃ i, ∃ h : i < D.Aiger_ands.length,
      D.gateOf i (D.Aiger_ands.get ⟨i, h⟩) = g :=
  List.mem_mapIdx

theorem gateOf_fields (D : AigerInput) (i : Nat) (a : Aiger_and) :
    (D.gateOf i a).o = 2 + D.header.num_inputs.toNat + D.header.num_latches.toNat + i ∧
      (D.gateOf i a).i1 = literalOf a.i1 ∧ (D.gateOf i a).i2 = literalOf a.i2 := by
  simp only [AigerInput.gateOf, and_self]

/-- A gate of the circuit is in order if its fan-ins are in range. -/
theorem gate_ranged {D : AigerInput} (hD : D.Sized) (propertyIndex : Nat) {i : Nat}
    (hi : i < D.Aiger_ands.length) {l : Nat} (hl : l < 2 ^ 32)
    (h : Within (1 + D.header.num_inputs.toNat + D.header.num_latches.toNat + i) l) :
    (literalOf l).natAbs < 2 + D.header.num_inputs.toNat + D.header.num_latches.toNat + i ∧
      (D.dimacs propertyIndex).LitOk (literalOf l) := by
  obtain ⟨h1, h2⟩ := (literalOf_within hl _).mpr h
  have hlen := hD.ands
  refine ⟨by omega, h1, ?_⟩
  rw [dimacs_max_var]
  unfold AigerInput.numVariables
  omega

theorem ranged_iff {D : AigerInput} (hD : D.Sized) (propertyIndex : Nat) :
    Ranged (D.dimacs propertyIndex) ↔ D.InRange := by
  have hok : ∀ l, l < 2 ^ 32 →
      ((D.dimacs propertyIndex).LitOk (literalOf l) ↔ Within (D.numVariables - 1) l) := by
    intro l hl
    rw [← literalOf_within hl, ← dimacs_max_var D propertyIndex]
    rfl
  have hands : ∀ i (h : i < D.Aiger_ands.length), D.Aiger_ands.get ⟨i, h⟩ ∈ D.Aiger_ands :=
    fun i h => List.get_mem _ _
  constructor
  · intro h
    refine ⟨fun a ha => ?_, fun l hl => ?_, fun l hl => ?_, fun i hi => ?_⟩
    · exact (hok _ (hD.nexts a ha)).mp (h.nexts _ (List.mem_map_of_mem ha))
    · exact (hok l (hD.constraints l hl)).mp (h.constraints _ (List.mem_map_of_mem hl))
    · exact (hok l (hD.properties l hl)).mp (h.allbad _ (List.mem_map_of_mem hl))
    · have hmem : D.gateOf i (D.Aiger_ands.get ⟨i, hi⟩) ∈ (D.dimacs propertyIndex).ands :=
        mem_dimacs_ands.mpr ⟨i, hi, rfl⟩
      obtain ⟨h1, h2⟩ := h.order _ hmem
      obtain ⟨_, hok1, hok2⟩ := h.ands _ hmem
      obtain ⟨hlt1, hlt2⟩ := hD.fanins _ (hands i hi)
      obtain ⟨ho, hi1, hi2⟩ := gateOf_fields D i (D.Aiger_ands.get ⟨i, hi⟩)
      rw [ho, hi1] at h1
      rw [ho, hi2] at h2
      rw [hi1] at hok1
      rw [hi2] at hok2
      exact ⟨(literalOf_within hlt1 _).mp ⟨hok1.1, by omega⟩,
        (literalOf_within hlt2 _).mp ⟨hok2.1, by omega⟩⟩
  · intro h
    have hgate : ∀ i (hi : i < D.Aiger_ands.length), _ := fun i hi =>
      And.intro (gate_ranged hD propertyIndex hi (hD.fanins _ (hands i hi)).1 (h.fanins i hi).1)
        (gate_ranged hD propertyIndex hi (hD.fanins _ (hands i hi)).2 (h.fanins i hi).2)
    refine ⟨fun g hg => ?_, fun g hg => ?_, fun l hl => ?_, fun l hl => ?_, fun l hl => ?_⟩
    · obtain ⟨i, hi, rfl⟩ := mem_dimacs_ands.mp hg
      obtain ⟨ho, hi1, hi2⟩ := gateOf_fields D i (D.Aiger_ands.get ⟨i, hi⟩)
      rw [ho, hi1, hi2]
      exact ⟨(hgate i hi).1.1, (hgate i hi).2.1⟩
    · obtain ⟨i, hi, rfl⟩ := mem_dimacs_ands.mp hg
      obtain ⟨ho, hi1, hi2⟩ := gateOf_fields D i (D.Aiger_ands.get ⟨i, hi⟩)
      rw [ho, hi1, hi2]
      refine ⟨⟨by omega, ?_⟩, (hgate i hi).1.2, (hgate i hi).2.2⟩
      have hlen := hD.ands
      rw [dimacs_max_var, Int.natAbs_natCast]
      unfold AigerInput.numVariables
      omega
    · obtain ⟨a, ha, rfl⟩ := List.mem_map.mp hl
      exact (hok _ (hD.nexts a ha)).mpr (h.nexts a ha)
    · obtain ⟨m, hm, hl⟩ := List.mem_map.mp hl
      rw [← hl]
      exact (hok m (hD.constraints m hm)).mpr (h.constraints m hm)
    · obtain ⟨m, hm, hl⟩ := List.mem_map.mp hl
      rw [← hl]
      exact (hok m (hD.properties m hm)).mpr (h.properties m hm)

/-- Accepted files have well-formed circuits exactly if the literals that nothing checks are in range. -/
theorem load_ranged (bytes : List Nat) (propertyIndex : Nat) :
    (∀ A, (load_aiger_from_file bytes >>= fun D => D.translate_to_dimacs propertyIndex) = .ok A → Ranged A) ↔
      ∀ D, Contents bytes D → D.Asserts propertyIndex → D.InRange := by
  constructor
  · intro h D hD ha
    refine (ranged_iff hD.sized propertyIndex).mp (h _ ?_)
    rw [load_iff.mpr hD]
    exact if_pos ha
  · intro h A hA
    cases hload : load_aiger_from_file bytes with
    | error e =>
        rw [hload] at hA
        cases hA
    | ok D =>
        rw [hload] at hA
        have hD := load_iff.mp hload
        change D.translate_to_dimacs propertyIndex = .ok A at hA
        unfold AigerInput.translate_to_dimacs at hA
        split at hA
        · cases hA
          exact (ranged_iff hD.sized propertyIndex).mpr (h D hD ‹_›)
        · cases hA

namespace Sample

/-- `aag 1 0 1 1 0`, a latch `2 100` and an output `0`: the next state refers to variable 50. -/
def dangling : List Nat :=
  [97, 97, 103, 32, 49, 32, 48, 32, 49, 32, 49, 32, 48, 10, 50, 32, 49, 48, 48, 10, 48, 10]

def danglingAiger : Aiger where
  num_inputs := 0
  num_latches := 1
  num_ands := 0
  ands := []
  nexts := [51]
  init_state := [-2]
  constraints := []
  allbad := [1]
  bad := 1
  default_vals := [0]

end Sample

/-- The file is accepted, although its only latch has no next state. -/
theorem load_dangling : (load_aiger_from_file Sample.dangling >>= fun D => D.translate_to_dimacs 0) =
    .ok Sample.danglingAiger ∧ ¬ Ranged Sample.danglingAiger := by
  refine ⟨by decide +kernel, fun h => ?_⟩
  have := (h.nexts 51 (by decide)).2
  revert this
  decide

end ModelChecker
