import ModelChecker.Aig.Lemmas.Serialise

/-!
# Loading undoes serialisation

A circuit that is written in one of the two formats and loaded again comes back unchanged, and
`translate_to_dimacs` keeps the values of its literals. The loader holds the length of the file in an
`int`, so this is limited to files with fewer than `2 ^ 31 - 1` bytes.
-/

namespace ModelChecker

open Logic

namespace AigerFile

variable {F : AigerFile}

/-- The gates have their larger literal first, as the binary format requires. -/
def Descending (F : AigerFile) : Prop := ∀ a ∈ F.Aiger_ands, a.i2 ≤ a.i1

/-! ## Circuits that can be written -/

theorem WellFormed.counted (h : F.WellFormed) : F.Counted where
  inputs := by rw [h.inputs, List.length_map, List.length_range]
  latches := h.latches_length
  outputs := h.outputs_length
  bads := h.bads_length
  constraints := h.constraints_length
  ands := h.ands_length

theorem WellFormed.consecutive (h : F.WellFormed) (hd : F.Descending) : F.Consecutive where
  inputs := h.inputs
  latches := h.latches_l
  ands := h.ands_o
  deltas a ha := ⟨(h.fanins a ha).1.le, hd a ha⟩

/-- The variable of a latch. -/
theorem WellFormed.latch_lt (h : F.WellFormed) {a : Aiger_latch} (ha : a ∈ F.Aiger_latches) :
    a.l ≤ 2 * F.max_var := by
  obtain ⟨i, hi, rfl⟩ := List.getElem_of_mem ha
  have hl : (F.Aiger_latches[i]).l = 2 * (F.num_inputs + i + 1) := h.latches_l i hi
  have hm := h.max_var
  have hlen := h.latches_length
  omega

theorem WellFormed.gate_lt (h : F.WellFormed) {a : Aiger_and} (ha : a ∈ F.Aiger_ands) :
    a.o ≤ 2 * F.max_var := by
  obtain ⟨i, hi, rfl⟩ := List.getElem_of_mem ha
  have ho : (F.Aiger_ands[i]).o = 2 * (F.num_inputs + F.num_latches + i + 1) := h.ands_o i hi
  have hm := h.max_var
  have hlen := h.ands_length
  omega

theorem WellFormed.fits (h : F.WellFormed) (hlit : 2 * F.max_var + 1 < 2 ^ 31)
    (hcount : F.num_outputs < 2 ^ 31 ∧ F.num_bads < 2 ^ 31 ∧ F.num_constraints < 2 ^ 31) : F.Fits := by
  have hm := h.max_var
  have hok : ∀ l, F.LitOk l → l < 2 ^ 31 := fun l hl => Nat.lt_of_le_of_lt hl hlit
  constructor
  case header => omega
  case inputs =>
    intro l hl
    rw [h.inputs] at hl
    obtain ⟨i, hi, rfl⟩ := List.mem_map.mp hl
    have := List.mem_range.mp hi
    omega
  case latches =>
    intro a ha
    have hl := h.latch_lt ha
    refine ⟨by omega, hok _ (h.latches_next a ha), ?_⟩
    rcases h.latches_reset a ha with h0 | h1 | h2 <;> omega
  case outputs => exact fun l hl => hok l (h.outputs_ok l hl)
  case bads => exact fun l hl => hok l (h.bads_ok l hl)
  case constraints => exact fun l hl => hok l (h.constraints_ok l hl)
  case ands =>
    intro a ha
    have ho := h.gate_lt ha
    have hf := h.fanins a ha
    omega

/-- Every line has at least its newline. -/
theorem length_le_flatMap (lines : List (List Nat)) :
    lines.length ≤ (lines.flatMap fun l => l ++ [10]).length := by
  induction lines with
  | nil => exact le_rfl
  | cons l lines ih =>
      rw [List.flatMap_cons, List.length_append, List.length_append, List.length_cons]
      simp only [List.length_singleton]
      omega

/-- The sections that nothing bounds are no longer than the file. -/
theorem Counted.counts_le (h : F.Counted) (lay : Layout) (binary : Bool) :
    F.num_outputs + F.num_bads + F.num_constraints ≤ (F.serialise lay binary).length := by
  rw [← h.outputs, ← h.bads, ← h.constraints]
  cases binary with
  | true =>
      have hlines := length_le_flatMap (F.binaryLines lay)
      have hfile : (F.serialise lay true).length = ((F.binaryLines lay).flatMap fun l => l ++ [10]).length +
        (F.Aiger_ands.flatMap gateBytes).length := List.length_append
      rw [hfile]
      refine (Nat.le_trans ?_ hlines).trans (Nat.le_add_right _ _)
      simp only [binaryLines, List.length_append, List.length_map]
      omega
  | false =>
      have hlines := length_le_flatMap (F.asciiLines lay)
      refine Nat.le_trans ?_ hlines
      simp only [asciiLines, List.length_append, List.length_map]
      omega

/-! ## Files -/

theorem accepted (h : F.WellFormed) (hlit : 2 * F.max_var + 1 < 2 ^ 31) (binary : Bool) :
    F.header.Accepted binary := by
  have hm := h.max_var
  constructor
  · show (F.max_var : Int) = wrap ((F.num_inputs : Int) + F.num_latches + F.num_ands)
    rw [wrap_of_lt (by omega) (by omega)]
    omega
  · rintro ⟨-, hi⟩
    change (F.num_inputs : Int) = 2 ^ 31 - 1 at hi
    omega

/-- Nothing behind the last line. -/
theorem trailing_nil (binary : Bool) : Trailing binary (lastLine binary ++ ([] ++ [0])) := by
  cases binary with
  | true => exact ⟨[0], rfl, .inl (by decide)⟩
  | false => exact ⟨[10, 0], ⟨[], [0], rfl, by simp, rfl⟩, .inl (by decide)⟩

/-- The file is loaded exactly if its length is an `int` that leaves room for the closing zero. -/
theorem load_serialise (h : F.WellFormed) (hlit : 2 * F.max_var + 1 < 2 ^ 31) (lay : Layout) (binary : Bool)
    (hb : binary = true → F.Descending) (hlen : (F.serialise lay binary).length < 2 ^ 32) :
    load_aiger_from_file (F.serialise lay binary) = .ok (F.input binary) ↔
      (F.serialise lay binary).length < 2 ^ 31 - 1 := by
  constructor
  · intro hload
    by_contra hlong
    rw [load_of_none (bufferOf_long (by omega) hlen)] at hload
    cases hload
  · intro hshort
    have hcount := h.counted.counts_le lay binary
    have hw : F.Writable binary :=
      ⟨h.counted, h.fits hlit (by omega), fun hbin => h.consecutive (hb hbin)⟩
    have hload := load_body (isBody_serialise hw lay) [] (by rwa [List.append_nil]) (F.input binary)
    rw [List.append_nil] at hload
    exact hload.mpr ⟨⟨accepted h hlit binary, trailing_nil binary⟩, rfl⟩

/-! ## Values -/

/-- A valuation of the AIGER variables in DIMACS numbering. -/
def toDimacs (v : Nat → Bool) : Assignment := fun k => v (k - 1)

/-- The literals of the circuit have the values of those of the file, for every valuation of inputs and
latches. -/
structure SameValues (F : AigerFile) (A : Aiger) : Prop where
  nexts : ∀ v, A.nexts.map (A.val (toDimacs v)) = F.Aiger_latches.map fun a => F.val v a.next
  constraints : ∀ v, A.constraints.map (A.val (toDimacs v)) = F.Aiger_constraints.map (F.val v)
  allbad : ∀ v, A.allbad.map (A.val (toDimacs v)) =
    (if 0 < F.num_bads then F.Aiger_bads else F.Aiger_outputs).map (F.val v)

theorem literalOf_eq {l : Nat} (h : l < 2 ^ 31) : literalOf l = aiger_to_dimacs l := by
  unfold literalOf aiger_to_dimacs
  rw [wrap_of_lt (by omega) (by omega)]
  simp only
  split <;> split <;> omega

theorem dimacs_ands (h : F.WellFormed) (hlit : 2 * F.max_var + 1 < 2 ^ 31) (binary : Bool)
    (propertyIndex : Nat) :
    ((F.input binary).dimacs propertyIndex).ands = F.Aiger_ands.map Aiger_and.toDimacs := by
  refine List.ext_getElem (by simp [AigerInput.dimacs, input]) fun i h1 h2 => ?_
  rw [List.length_map] at h2
  have ha : F.Aiger_ands[i] ∈ F.Aiger_ands := List.getElem_mem h2
  have ho : (F.Aiger_ands[i]).o = 2 * (F.num_inputs + F.num_latches + i + 1) := h.ands_o i h2
  have hlt := h.gate_lt ha
  have hfan := h.fanins _ ha
  rw [List.getElem_map]
  simp only [AigerInput.dimacs, List.getElem_mapIdx]
  show (⟨2 + F.num_inputs + F.num_latches + i, literalOf (F.Aiger_ands[i]).i1,
    literalOf (F.Aiger_ands[i]).i2⟩ : AndGate) = (F.Aiger_ands[i]).toDimacs
  unfold Aiger_and.toDimacs
  rw [literalOf_eq (by omega), literalOf_eq (by omega)]
  congr 1
  omega

theorem val_dimacs (h : F.WellFormed) (hlit : 2 * F.max_var + 1 < 2 ^ 31) (binary : Bool)
    (propertyIndex : Nat) (v : Nat → Bool) {l : Nat} (hl : l < 2 ^ 31) :
    ((F.input binary).dimacs propertyIndex).val (toDimacs v) (literalOf l) = F.val v l := by
  have hstart : ∀ k, Function.update (toDimacs v) 1 false (k + 1) = Function.update v 0 false k := by
    intro k
    cases k with
    | zero => rfl
    | succ k => rfl
  unfold Aiger.val Aiger.eval AigerFile.val AigerFile.eval
  rw [dimacs_ands h hlit, literalOf_eq hl]
  exact litVal_aiger_to_dimacs (evalAnds_toDimacs hstart F.Aiger_ands) l

theorem sameValues (h : F.WellFormed) (hlit : 2 * F.max_var + 1 < 2 ^ 31) (binary : Bool)
    (propertyIndex : Nat) : SameValues F ((F.input binary).dimacs propertyIndex) := by
  have hok : ∀ l, F.LitOk l → l < 2 ^ 31 := fun l hl => Nat.lt_of_le_of_lt hl hlit
  have hnexts : ((F.input binary).dimacs propertyIndex).nexts =
      F.Aiger_latches.map fun a => literalOf a.next := by
    simp only [AigerInput.dimacs, input]
  have hcons : ((F.input binary).dimacs propertyIndex).constraints = F.Aiger_constraints.map literalOf := by
    simp only [AigerInput.dimacs, input]
  have hbads : ((F.input binary).dimacs propertyIndex).allbad =
      (if 0 < F.num_bads then F.Aiger_bads else F.Aiger_outputs).map literalOf := by
    simp only [AigerInput.dimacs, AigerInput.properties, input, header, Int.natCast_pos]
  refine ⟨fun v => ?_, fun v => ?_, fun v => ?_⟩
  · rw [hnexts, List.map_map]
    refine List.map_congr_left fun a ha => ?_
    rw [Function.comp_apply, val_dimacs h hlit binary propertyIndex v (hok _ (h.latches_next a ha))]
  · rw [hcons, List.map_map]
    refine List.map_congr_left fun l hl => ?_
    rw [Function.comp_apply, val_dimacs h hlit binary propertyIndex v (hok l (h.constraints_ok l hl))]
  · rw [hbads, List.map_map]
    refine List.map_congr_left fun l hl => ?_
    have hlok : F.LitOk l := by
      split at hl
      · exact h.bads_ok l hl
      · exact h.outputs_ok l hl
    rw [Function.comp_apply, val_dimacs h hlit binary propertyIndex v (hok l hlok)]

/-! ## Translation -/

theorem numbered (h : F.WellFormed) (hlit : 2 * F.max_var + 1 < 2 ^ 31) (binary : Bool) :
    (F.input binary).Numbered := by
  have hm := h.max_var
  refine ⟨fun i hi => ?_, fun i hi => ?_, fun i hi => ?_⟩
  · have hi : i < F.num_inputs := hi
    show F.Aiger_inputs.getD i 0 = _
    rw [h.inputs, show (2 * ((i : Int) + 1)) = ((2 * (i + 1) : Nat) : Int) by omega,
      toUnsigned_natCast (by omega)]
    simp [List.getD_eq_getElem?_getD, hi]
  · have hi : i < F.Aiger_latches.length := by rw [h.latches_length]; exact hi
    have hlen := h.latches_length
    have hl := h.latches_l i hi
    show (F.Aiger_latches.getD i default).l = toUnsigned (2 * ((F.num_inputs : Int) + i + 1))
    rw [show (2 * ((F.num_inputs : Int) + i + 1)) = ((2 * (F.num_inputs + i + 1) : Nat) : Int) by omega,
      toUnsigned_natCast (by omega), ← hl]
    simp [List.getD_eq_getElem?_getD, hi]
  · have hi : i < F.Aiger_ands.length := by rw [h.ands_length]; exact hi
    have hlen := h.ands_length
    have ho := h.ands_o i hi
    show (F.Aiger_ands.getD i default).o = toUnsigned (2 * ((F.num_inputs : Int) + F.num_latches + i + 1))
    rw [show (2 * ((F.num_inputs : Int) + F.num_latches + i + 1)) =
      ((2 * (F.num_inputs + F.num_latches + i + 1) : Nat) : Int) by omega, toUnsigned_natCast (by omega), ← ho]
    simp [List.getD_eq_getElem?_getD, hi]

/-- The chosen property is one of the properties. -/
theorem propertyOf_ok (h : F.WellFormed) (hprop : 0 < F.num_outputs ∨ 0 < F.num_bads) (binary : Bool)
    (propertyIndex : Nat) : F.LitOk ((F.input binary).propertyOf propertyIndex) := by
  have hok : ∀ l ∈ (F.input binary).properties, F.LitOk l := by
    intro l hl
    simp only [AigerInput.properties, input, header, Int.natCast_pos] at hl
    split at hl
    · exact h.bads_ok l hl
    · exact h.outputs_ok l hl
  have hpos : 0 < (F.input binary).properties.length := by
    simp only [AigerInput.properties, input, header, Int.natCast_pos]
    split
    · rw [h.bads_length]; assumption
    · rw [h.outputs_length]; tauto
  unfold AigerInput.propertyOf
  have hidx : (if (F.input binary).properties.length ≤ propertyIndex then 0 else propertyIndex) <
      (F.input binary).properties.length := by
    split <;> omega
  rw [List.getD_eq_getElem?_getD, List.getElem?_eq_getElem hidx, Option.getD_some]
  exact hok _ (List.getElem_mem hidx)

theorem translate_ok (h : F.WellFormed) (hlit : 2 * F.max_var + 1 < 2 ^ 31)
    (hprop : 0 < F.num_outputs ∨ 0 < F.num_bads) (binary : Bool) (propertyIndex : Nat) :
    (F.input binary).translate_to_dimacs propertyIndex = .ok ((F.input binary).dimacs propertyIndex) := by
  have hm := h.max_var
  refine if_pos ⟨numbered h hlit binary, ?_, ?_, ?_⟩
  · show 0 < (F.num_bads : Int) ∨ 0 < (F.num_outputs : Int)
    omega
  · have hp := propertyOf_ok h hprop binary propertyIndex
    have hbad : ((F.input binary).dimacs propertyIndex).bad =
        literalOf ((F.input binary).propertyOf propertyIndex) := by
      simp only [AigerInput.dimacs]
    rw [hbad, literalOf_eq (Nat.lt_of_le_of_lt hp hlit), natAbs_aiger_to_dimacs]
    unfold LitOk at hp
    show _ ≤ 2 + F.num_inputs + F.num_latches + F.num_ands
    omega
  · congr 1
    show ((2 + F.num_inputs + F.num_latches + F.num_ands : Nat) : Int) =
      1 + (F.num_inputs : Int) + F.num_latches + F.num_ands + 1
    omega

/-! ## Round trips -/

/-- Both serialisations are loaded as the circuit, and its translation has the values of the file. -/
structure RoundTrips (F : AigerFile) (lay : Layout) : Prop where
  ascii : load_aiger_from_file (F.ascii lay) = .ok (F.input false)
  binary : F.Descending → load_aiger_from_file (F.binary lay) = .ok (F.input true)
  values : ∀ binary propertyIndex, ∃ A, (F.input binary).translate_to_dimacs propertyIndex = .ok A ∧
    F.SameValues A

/-- The serialisations leave room for the closing zero in a buffer whose length is an `int`. -/
def Short (F : AigerFile) (lay : Layout) : Prop :=
  (F.ascii lay).length < 2 ^ 31 - 1 ∧ (F.Descending → (F.binary lay).length < 2 ^ 31 - 1)

end AigerFile

/-- Circuits with short serialisations come back, and below 4 GiB no others do. -/
theorem load_round_trip (F : AigerFile) (lay : Layout) (h : F.WellFormed)
    (hlit : 2 * F.max_var + 1 < 2 ^ 31) (hprop : 0 < F.num_outputs ∨ 0 < F.num_bads) :
    (F.Short lay → F.RoundTrips lay) ∧
      ((F.ascii lay).length < 2 ^ 32 → (F.binary lay).length < 2 ^ 32 → F.RoundTrips lay → F.Short lay) := by
  have hascii : (F.ascii lay).length < 2 ^ 32 → (load_aiger_from_file (F.ascii lay) = .ok (F.input false) ↔
      (F.ascii lay).length < 2 ^ 31 - 1) :=
    AigerFile.load_serialise h hlit lay false (by rintro ⟨⟩)
  have hbinary : F.Descending → (F.binary lay).length < 2 ^ 32 →
      (load_aiger_from_file (F.binary lay) = .ok (F.input true) ↔ (F.binary lay).length < 2 ^ 31 - 1) :=
    fun hd => AigerFile.load_serialise h hlit lay true (fun _ => hd)
  constructor
  · rintro ⟨ha, hb⟩
    refine ⟨(hascii (by omega)).mpr ha, fun hd => ?_, fun binary propertyIndex => ?_⟩
    · have hshort := hb hd
      exact (hbinary hd (by omega)).mpr hshort
    · exact ⟨_, AigerFile.translate_ok h hlit hprop binary propertyIndex,
        AigerFile.sameValues h hlit binary propertyIndex⟩
  · intro ha hb hr
    exact ⟨(hascii ha).mp hr.ascii, fun hd => (hbinary hd hb).mp (hr.binary hd)⟩

namespace Sample

/-- An input, a latch and the gate of both, which is the next state and the output. -/
def gated : AigerFile where
  max_var := 3
  num_inputs := 1
  num_latches := 1
  num_outputs := 1
  num_ands := 1
  num_bads := 0
  num_constraints := 0
  Aiger_inputs := [2]
  Aiger_latches := [⟨4, 6, 4⟩]
  Aiger_outputs := [6]
  Aiger_bads := []
  Aiger_constraints := []
  Aiger_ands := [⟨6, 4, 2⟩]

theorem gated_wellFormed : gated.WellFormed := by
  constructor <;> first | rfl | decide | (unfold AigerFile.LitOk; decide)

/-- `n` bad literals, all of them the constant false. -/
def bads (n : Nat) : AigerFile where
  max_var := 0
  num_inputs := 0
  num_latches := 0
  num_outputs := 0
  num_ands := 0
  num_bads := n
  num_constraints := 0
  Aiger_inputs := []
  Aiger_latches := []
  Aiger_outputs := []
  Aiger_bads := List.replicate n 0
  Aiger_constraints := []
  Aiger_ands := []

theorem bads_wellFormed (n : Nat) : (bads n).WellFormed := by
  constructor
  case bads_length => exact List.length_replicate
  case bads_ok =>
    intro l hl
    rw [List.eq_of_mem_replicate hl]
    exact Nat.zero_le _
  all_goals first | rfl | exact List.forall_mem_nil _ | exact fun i hi => absurd hi (Nat.not_lt_zero i)

/-- Each bad literal takes two bytes. -/
theorem bads_length (n : Nat) : ((bads n).ascii {}).length =
    5 + (numberLine ((bads n).headerNumbers {})).length + 2 * n := by
  have hlines : (bads n).asciiLines {} = ([97, 97, 103, 32] ++ numberLine ((bads n).headerNumbers {})) ::
      List.replicate n [48] := by
    simp [AigerFile.asciiLines, bads, numberLine, digitBytes]
  unfold AigerFile.ascii
  rw [hlines]
  simp [List.length_flatMap]
  omega

end Sample

/-- A file for one input, one latch and one gate. -/
theorem load_round_trip_gated : Sample.gated.RoundTrips {} := by
  refine (load_round_trip Sample.gated {} Sample.gated_wellFormed (by decide) (by decide)).1 ⟨?_, fun _ => ?_⟩
  · decide +kernel
  · decide +kernel

/-- With `2 ^ 30` bad literals the length of the file is negative as an `int`, and the buffer for it
cannot be allocated. -/
theorem load_long : (Sample.bads (2 ^ 30)).WellFormed ∧ 0 < (Sample.bads (2 ^ 30)).num_bads ∧
    ¬ (Sample.bads (2 ^ 30)).RoundTrips {} := by
  refine ⟨Sample.bads_wellFormed _, by decide, fun h => ?_⟩
  have hlen := Sample.bads_length (2 ^ 30)
  have hhead : (numberLine ((Sample.bads (2 ^ 30)).headerNumbers {})).length = 20 := by
    decide +kernel
  have hnone : bufferOf ((Sample.bads (2 ^ 30)).ascii {}) = none := bufferOf_long (by omega) (by omega)
  have hload := h.ascii
  rw [load_of_none hnone] at hload
  cases hload

end ModelChecker
