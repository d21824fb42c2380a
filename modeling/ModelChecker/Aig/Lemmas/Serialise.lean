import ModelChecker.Aig.Lemmas.Write

/-!
# Serialised circuits

The two serialisations of a circuit, followed by anything that starts where its last section ends, have
the letters, the header and the sections of the circuit.
-/

namespace ModelChecker

open Logic

variable {s t : List Nat}

namespace AigerFile

variable (F : AigerFile) (lay : Layout)

/-- The counts as the loader stores them. -/
def header : Header where
  max_var := F.max_var
  num_inputs := F.num_inputs
  num_latches := F.num_latches
  num_outputs := F.num_outputs
  num_ands := F.num_ands
  num_bads := F.num_bads
  num_constraints := F.num_constraints
  num_justice := 0
  num_fairness := 0

/-- The circuit as the loader stores it. -/
def input (binary : Bool) : AigerInput where
  binaryMode := binary
  header := F.header
  Aiger_inputs := F.Aiger_inputs
  Aiger_latches := F.Aiger_latches
  Aiger_outputs := F.Aiger_outputs
  Aiger_bads := F.Aiger_bads
  Aiger_constraints := F.Aiger_constraints
  Aiger_ands := F.Aiger_ands

/-- The sections are as long as the header says. -/
structure Counted : Prop where
  inputs : F.Aiger_inputs.length = F.num_inputs
  latches : F.Aiger_latches.length = F.num_latches
  outputs : F.Aiger_outputs.length = F.num_outputs
  bads : F.Aiger_bads.length = F.num_bads
  constraints : F.Aiger_constraints.length = F.num_constraints
  ands : F.Aiger_ands.length = F.num_ands

/-- All numbers of the file are `int`s. -/
structure Fits : Prop where
  header : F.max_var < 2 ^ 31 ∧ F.num_inputs < 2 ^ 31 ∧ F.num_latches < 2 ^ 31 ∧ F.num_outputs < 2 ^ 31 ∧
    F.num_ands < 2 ^ 31 ∧ F.num_bads < 2 ^ 31 ∧ F.num_constraints < 2 ^ 31
  inputs : ∀ l ∈ F.Aiger_inputs, l < 2 ^ 31
  latches : ∀ a ∈ F.Aiger_latches, a.l < 2 ^ 31 ∧ a.next < 2 ^ 31 ∧ a.default_val < 2 ^ 31
  outputs : ∀ l ∈ F.Aiger_outputs, l < 2 ^ 31
  bads : ∀ l ∈ F.Aiger_bads, l < 2 ^ 31
  constraints : ∀ l ∈ F.Aiger_constraints, l < 2 ^ 31
  ands : ∀ a ∈ F.Aiger_ands, a.o < 2 ^ 31 ∧ a.i1 < 2 ^ 31 ∧ a.i2 < 2 ^ 31

/-- A circuit that the binary format can hold: variables are numbered one after the other, and the
literals of a gate do not increase. -/
structure Consecutive : Prop where
  inputs : F.Aiger_inputs = (List.range F.num_inputs).map fun i => 2 * (i + 1)
  latches : ∀ i, (h : i < F.Aiger_latches.length) →
    (F.Aiger_latches.get ⟨i, h⟩).l = 2 * (F.num_inputs + i + 1)
  ands : ∀ i, (h : i < F.Aiger_ands.length) →
    (F.Aiger_ands.get ⟨i, h⟩).o = 2 * (F.num_inputs + F.num_latches + i + 1)
  deltas : ∀ a ∈ F.Aiger_ands, a.i1 ≤ a.o ∧ a.i2 ≤ a.i1

/-! ## Header -/

variable {F lay}

/-- How many fields the header has. -/
theorem headerNumbers_cases (F : AigerFile) (lay : Layout) :
    (F.headerNumbers lay = [F.max_var, F.num_inputs, F.num_latches, F.num_outputs, F.num_ands] ∧
      F.num_bads = 0 ∧ F.num_constraints = 0) ∨
    (F.headerNumbers lay = [F.max_var, F.num_inputs, F.num_latches, F.num_outputs, F.num_ands, F.num_bads] ∧
      F.num_constraints = 0) ∨
    F.headerNumbers lay = [F.max_var, F.num_inputs, F.num_latches, F.num_outputs, F.num_ands, F.num_bads,
      F.num_constraints] ∨
    F.headerNumbers lay = [F.max_var, F.num_inputs, F.num_latches, F.num_outputs, F.num_ands, F.num_bads,
      F.num_constraints, 0] ∨
    F.headerNumbers lay = [F.max_var, F.num_inputs, F.num_latches, F.num_outputs, F.num_ands, F.num_bads,
      F.num_constraints, 0, 0] := by
  unfold headerNumbers
  by_cases h4 : lay.fairness = true
  · simp [h4]
  · by_cases h3 : lay.justice = true
    · simp [h4, h3]
    · by_cases h2 : F.num_constraints ≠ 0 ∨ lay.constraints = true
      · rw [if_pos (by tauto), if_pos (by tauto), if_neg (by tauto), if_neg h4]
        exact .inr (.inr (.inl rfl))
      · by_cases h1 : F.num_bads ≠ 0 ∨ lay.bads = true
        · rw [if_pos (by tauto), if_neg (by tauto), if_neg (by tauto), if_neg h4]
          exact .inr (.inl ⟨rfl, by tauto⟩)
        · rw [if_neg (by tauto), if_neg (by tauto), if_neg (by tauto), if_neg h4]
          exact .inl ⟨rfl, by tauto, by tauto⟩

theorem header_text (lay : Layout) (hf : F.Fits) (ht : LineEnd t) :
    HeaderText F.header (103 :: 32 :: (numberLine (F.headerNumbers lay) ++ t)) t := by
  obtain ⟨r, rfl⟩ := ht
  have hjunk : ∀ b ∈ [103, 32], Blank b := by simp [Blank, isDigit]
  obtain ⟨hm, hi, hl, ho, ha, hb, hc⟩ := hf.header
  have hfields : ∀ k, (∀ n ∈ F.headerNumbers lay, n < 2 ^ 31) → Fields ((F.headerNumbers lay).map Int.ofNat ++
      List.replicate k (-1)) (103 :: 32 :: (numberLine (F.headerNumbers lay) ++ 10 :: r)) (10 :: r) :=
    fun k hns => fields_numberLine (by simp [headerNumbers]) hns hjunk k
  rcases headerNumbers_cases F lay with ⟨h, hb0, hc0⟩ | ⟨h, hc0⟩ | h | h | h
  · have hk := hfields 4 (by rw [h]; simp; omega)
    rw [h] at hk ⊢
    exact ⟨-1, -1, -1, -1, hk, by simp [header, hb0, hc0]⟩
  · have hk := hfields 3 (by rw [h]; simp; omega)
    rw [h] at hk ⊢
    exact ⟨F.num_bads, -1, -1, -1, hk, by simp [header, hc0]⟩
  · have hk := hfields 2 (by rw [h]; simp; omega)
    rw [h] at hk ⊢
    exact ⟨F.num_bads, F.num_constraints, -1, -1, hk, by simp [header]⟩
  · have hk := hfields 1 (by rw [h]; simp; omega)
    rw [h] at hk ⊢
    exact ⟨F.num_bads, F.num_constraints, 0, -1, hk, by simp [header]⟩
  · have hk := hfields 0 (by rw [h]; simp; omega)
    rw [h] at hk ⊢
    exact ⟨F.num_bads, F.num_constraints, 0, 0, hk, by simp [header]⟩

/-! ## Sections -/

/-- Literals on lines of their own. -/
def singles (ls : List Nat) : List (List Nat) := ls.map fun l => [l]

theorem singles_table {ls : List Nat} {n : Nat} (hn : ls.length = n) (hls : ∀ l ∈ ls, l < 2 ^ 31)
    (ht : LineEnd t) :
    RowTable 1 n ((singles ls).map (padded 1)) (linesText (singles ls) ++ t) t ∧
      firsts ((singles ls).map (padded 1)) = ls := by
  constructor
  · refine rowTable_linesText (by simp [singles, hn]) ?_ ?_ ?_ ht
    · simp [singles]
    · simp [singles]
    · simpa [singles] using hls
  · unfold firsts singles
    rw [List.map_map, List.map_map]
    conv_rhs => rw [← List.map_id ls]
    refine List.map_congr_left fun l hl => ?_
    have := hls l hl
    exact toUnsigned_natCast (by omega)

theorem lt_of_reset {i : Nat} {a : Aiger_latch} (ha : a.default_val < 2 ^ 31) :
    ∀ n ∈ resetNumbers lay i a, n < 2 ^ 31 := by
  unfold resetNumbers
  split
  · simpa using ha
  · simp

theorem padded_number {k i : Nat} {ns : List Nat} (h : i < ns.length) :
    (padded k ns).getD i 0 = (ns.getD i 0 : Nat) := by
  simp [padded, List.getD_eq_getElem?_getD, List.getElem?_append_left, h]

theorem padded_missing {k i : Nat} {ns : List Nat} (h : ns.length ≤ i) (hi : i < k) :
    (padded k ns).getD i 0 = -1 := by
  have hk : i - ns.length < k - ns.length := by omega
  simp [padded, List.getD_eq_getElem?_getD, List.getElem?_append_right, h, hk]

/-- The reset field of a latch line, which has `ns` before it. -/
theorem toUnsigned_reset (lay : Layout) (i : Nat) {k : Nat} {a : Aiger_latch} (ha : a.default_val < 2 ^ 31)
    (ns : List Nat) (hk : ns.length = k) : toUnsigned (max ((padded (k + 1) (ns ++ resetNumbers lay i a)).getD k 0) 0) =
      a.default_val := by
  unfold resetNumbers
  split
  · have hget : (ns ++ [a.default_val]).getD k 0 = a.default_val := by
      simp [List.getD_eq_getElem?_getD, ← hk]
    rw [padded_number (by simp [hk]), hget, max_eq_left (by omega), toUnsigned_natCast (by omega)]
  · rename_i h
    rw [padded_missing (by simp [hk]) (by omega)]
    have h0 : a.default_val = 0 := by tauto
    rw [h0]
    decide

theorem latchOf_ascii {i : Nat} {a : Aiger_latch} {h : Header}
    (ha : a.l < 2 ^ 31 ∧ a.next < 2 ^ 31 ∧ a.default_val < 2 ^ 31) :
    latchOf false h i (padded 3 ([a.l, a.next] ++ resetNumbers lay i a)) = a := by
  have hl : (padded 3 ([a.l, a.next] ++ resetNumbers lay i a)).getD 0 0 = (a.l : Nat) := padded_number (by simp)
  have hn : (padded 3 ([a.l, a.next] ++ resetNumbers lay i a)).getD 1 0 = (a.next : Nat) :=
    padded_number (by simp)
  have hd : toUnsigned (max ((padded 3 ([a.l, a.next] ++ resetNumbers lay i a)).getD 2 0) 0) = a.default_val :=
    toUnsigned_reset lay i ha.2.2 [a.l, a.next] rfl
  unfold latchOf
  simp only [Bool.false_eq_true, if_false]
  rw [hl, hn, hd, toUnsigned_natCast (by omega), toUnsigned_natCast (by omega)]

theorem latchOf_binary {i : Nat} {a : Aiger_latch}
    (ha : a.l < 2 ^ 31 ∧ a.next < 2 ^ 31 ∧ a.default_val < 2 ^ 31) (hl : a.l = 2 * (F.num_inputs + i + 1)) :
    latchOf true F.header i (padded 2 ([a.next] ++ resetNumbers lay i a)) = a := by
  have hn : (padded 2 ([a.next] ++ resetNumbers lay i a)).getD 0 0 = (a.next : Nat) := padded_number (by simp)
  have hd : toUnsigned (max ((padded 2 ([a.next] ++ resetNumbers lay i a)).getD 1 0) 0) = a.default_val :=
    toUnsigned_reset lay i ha.2.2 [a.next] rfl
  have hvar : (2 * (F.header.num_inputs + 1 + i) : Int) = (a.l : Nat) := by
    show (2 * ((F.num_inputs : Int) + 1 + i) : Int) = _
    omega
  unfold latchOf
  simp only [if_true]
  rw [hvar, hn, hd, toUnsigned_natCast (by omega), toUnsigned_natCast (by omega)]

/-- The numbers on the lines of the latches. -/
def latchLines (F : AigerFile) (lay : Layout) (binary : Bool) : List (List Nat) :=
  F.Aiger_latches.mapIdx fun i a => (if binary then [a.next] else [a.l, a.next]) ++ resetNumbers lay i a

theorem latches_table (lay : Layout) {binary : Bool} (hc : F.Counted) (hf : F.Fits) (hb : binary = true → F.Consecutive)
    (ht : LineEnd t) :
    RowTable (if binary then 2 else 3) F.header.num_latches
        ((F.latchLines lay binary).map (padded (if binary then 2 else 3)))
        (linesText (F.latchLines lay binary) ++ t) t ∧
      ((F.latchLines lay binary).map (padded (if binary then 2 else 3))).mapIdx (latchOf binary F.header) =
        F.Aiger_latches := by
  have hmem : ∀ ns ∈ F.latchLines lay binary, ∃ i a, a ∈ F.Aiger_latches ∧
      ns = (if binary then [a.next] else [a.l, a.next]) ++ resetNumbers lay i a := by
    intro ns hns
    obtain ⟨i, hi, rfl⟩ := List.mem_mapIdx.mp hns
    exact ⟨i, _, List.getElem_mem hi, rfl⟩
  constructor
  · refine rowTable_linesText ?_ ?_ ?_ ?_ ht
    · rw [latchLines, List.length_mapIdx, hc.latches]
      rfl
    · intro ns hns
      obtain ⟨i, a, _, rfl⟩ := hmem ns hns
      cases binary <;> simp
    · intro ns hns
      obtain ⟨i, a, _, rfl⟩ := hmem ns hns
      have hr : (resetNumbers lay i a).length ≤ 1 := by
        unfold resetNumbers
        split <;> simp
      cases binary with
      | true => simpa using hr
      | false =>
          rw [List.length_append]
          show 2 + _ ≤ 3
          omega
    · intro ns hns n hn
      obtain ⟨i, a, ha, rfl⟩ := hmem ns hns
      obtain ⟨h1, h2, h3⟩ := hf.latches a ha
      rcases List.mem_append.mp hn with hn | hn
      · cases binary with
        | true => simp only [if_true, List.mem_singleton] at hn; rwa [hn]
        | false =>
            simp only [Bool.false_eq_true, if_false, List.mem_cons, List.not_mem_nil, or_false] at hn
            rcases hn with rfl | rfl <;> assumption
      · exact lt_of_reset h3 n hn
  · refine List.ext_getElem (by simp [latchLines]) fun i h1 h2 => ?_
    have ha := hf.latches _ (List.getElem_mem h2)
    rw [List.getElem_mapIdx, List.getElem_map]
    simp only [latchLines, List.getElem_mapIdx]
    cases binary with
    | true => exact latchOf_binary ha ((hb rfl).latches i h2)
    | false => exact latchOf_ascii ha

/-! ## Gates -/

/-- The bytes of a gate in the binary format. -/
def gateBytes (a : Aiger_and) : List Nat := encode (a.o - a.i1) ++ encode (a.i1 - a.i2)

theorem gates_deltas {ands : List Aiger_and} (h : ∀ a ∈ ands, a.o < 2 ^ 31 ∧ a.i1 < 2 ^ 31 ∧ a.i2 < 2 ^ 31) :
    Deltas (ands.map fun a => (a.o - a.i1, a.i1 - a.i2)) (ands.flatMap gateBytes ++ t) t := by
  induction ands with
  | nil => rfl
  | cons a ands ih =>
      obtain ⟨⟨ho, h1, _⟩, hands⟩ := List.forall_mem_cons.mp h
      refine ⟨encode (a.i1 - a.i2) ++ (ands.flatMap gateBytes ++ t), ands.flatMap gateBytes ++ t, ?_, ?_,
        ih hands⟩
      · have heq : (a :: ands).flatMap gateBytes ++ t =
            encode (a.o - a.i1) ++ (encode (a.i1 - a.i2) ++ (ands.flatMap gateBytes ++ t)) := by
          simp [gateBytes]
        rw [heq]
        exact code_encode (by show a.o - a.i1 < _; omega)
      · exact code_encode (by show a.i1 - a.i2 < _; omega)

theorem gates_binary (hc : F.Counted) (hf : F.Fits) (hcon : F.Consecutive) :
    Gates true F.header F.Aiger_ands (10 :: (F.Aiger_ands.flatMap gateBytes ++ t)) t := by
  refine ⟨-1, 10, F.Aiger_ands.flatMap gateBytes ++ t,
    F.Aiger_ands.map fun a => (a.o - a.i1, a.i1 - a.i2), ?_, ?_, gates_deltas hf.ands, ?_⟩
  · exact Field.missing (List.forall_mem_nil _)
  · rw [List.length_map, hc.ands]
    rfl
  · refine List.ext_getElem (by simp) fun i h1 h2 => ?_
    obtain ⟨ho, hi1, hi2⟩ := hf.ands _ (List.getElem_mem h1)
    obtain ⟨hd1, hd2⟩ := hcon.deltas _ (List.getElem_mem h1)
    have hnum := hcon.ands i h1
    rw [List.get_eq_getElem] at hnum
    have hout : (2 * (F.header.num_inputs + F.header.num_latches + i + 1) : Int) =
        ((F.Aiger_ands[i]).o : Nat) := by
      rw [hnum]
      simp only [header]
      omega
    rw [List.getElem_mapIdx, List.getElem_map]
    unfold deltaAnd
    simp only
    rw [hout, show (((F.Aiger_ands[i]).o : Nat) : Int) - (((F.Aiger_ands[i]).o - (F.Aiger_ands[i]).i1 : Nat) : Int) =
        ((F.Aiger_ands[i]).i1 : Nat) by omega,
      show (((F.Aiger_ands[i]).i1 : Nat) : Int) - (((F.Aiger_ands[i]).i1 - (F.Aiger_ands[i]).i2 : Nat) : Int) =
        ((F.Aiger_ands[i]).i2 : Nat) by omega,
      toUnsigned_natCast (by omega), toUnsigned_natCast (by omega), toUnsigned_natCast (by omega)]

/-- The numbers on the lines of the gates. -/
def gateLines (F : AigerFile) : List (List Nat) := F.Aiger_ands.map fun a => [a.o, a.i1, a.i2]

theorem gates_ascii (hc : F.Counted) (hf : F.Fits) (ht : LineEnd t) :
    Gates false F.header F.Aiger_ands (linesText F.gateLines ++ t) t := by
  refine ⟨F.gateLines.map (padded 3), ?_, ?_⟩
  · refine rowTable_linesText ?_ ?_ ?_ ?_ ht
    · rw [gateLines, List.length_map, hc.ands]
      rfl
    · simp [gateLines]
    · simp [gateLines]
    · simpa [gateLines] using hf.ands
  · unfold gateLines
    rw [List.map_map, List.map_map]
    conv_lhs => rw [← List.map_id F.Aiger_ands]
    refine List.map_congr_left fun a ha => ?_
    obtain ⟨ho, h1, h2⟩ := hf.ands a ha
    show a = ⟨toUnsigned (a.o : Nat), toUnsigned (a.i1 : Nat), toUnsigned (a.i2 : Nat)⟩
    rw [toUnsigned_natCast (by omega), toUnsigned_natCast (by omega), toUnsigned_natCast (by omega)]

/-! ## Files -/

/-- The text between the header and the gates, or the end of the last line. -/
def tables (F : AigerFile) (lay : Layout) (binary : Bool) : List Nat :=
  (if binary then [] else linesText (singles F.Aiger_inputs)) ++ (linesText (F.latchLines lay binary) ++
    (linesText (singles F.Aiger_outputs) ++ (linesText (singles F.Aiger_bads) ++
      linesText (singles F.Aiger_constraints))))

/-- The gates, behind the end of the last line in a binary file. -/
def gatesText (F : AigerFile) (binary : Bool) : List Nat :=
  if binary then 10 :: F.Aiger_ands.flatMap gateBytes else linesText F.gateLines

/-- A circuit that can be written in the format. -/
structure Writable (F : AigerFile) (binary : Bool) : Prop where
  counted : F.Counted
  fits : F.Fits
  consecutive : binary = true → F.Consecutive

theorem inputsOf_binary (hc : F.Consecutive) (hf : F.Fits) :
    inputsOf true F.header [] = F.Aiger_inputs := by
  unfold inputsOf
  rw [if_pos rfl]
  show (List.range (F.num_inputs : Int).toNat).map _ = _
  rw [Int.toNat_natCast, hc.inputs]
  refine List.map_congr_left fun i hi => ?_
  have hlt := hf.inputs (2 * (i + 1)) (by rw [hc.inputs]; exact List.mem_map_of_mem hi)
  have hcast : (2 * ((i : Int) + 1)) = ((2 * (i + 1) : Nat) : Int) := by omega
  rw [hcast, toUnsigned_natCast (by omega)]

theorem lineEnd_gatesText (F : AigerFile) {binary : Bool} (ht : binary = true ∨ LineEnd t) :
    LineEnd (F.gatesText binary ++ t) := by
  unfold gatesText
  cases binary with
  | true => exact ⟨_, rfl⟩
  | false => exact lineEnd_linesText _ (ht.resolve_left (by decide))

theorem lineEnd_tables (F : AigerFile) (lay : Layout) (binary : Bool) (ht : LineEnd t) : LineEnd (F.tables lay binary ++ t) := by
  have h1 := lineEnd_linesText (singles F.Aiger_constraints) ht
  have h2 := lineEnd_linesText (singles F.Aiger_bads) h1
  have h3 := lineEnd_linesText (singles F.Aiger_outputs) h2
  have h4 := lineEnd_linesText (F.latchLines lay binary) h3
  unfold tables
  simp only [List.append_assoc]
  cases binary with
  | true => exact h4
  | false => exact lineEnd_linesText (singles F.Aiger_inputs) h4

theorem sections_text (lay : Layout) {binary : Bool} (hw : F.Writable binary) (ht : binary = true ∨ LineEnd t) :
    Sections binary F.header (F.input binary) (F.tables lay binary ++ (F.gatesText binary ++ t)) t := by
  have hf := hw.fits
  have hc := hw.counted
  have hend := lineEnd_gatesText F ht
  have hend1 := lineEnd_linesText (singles F.Aiger_constraints) hend
  have hend2 := lineEnd_linesText (singles F.Aiger_bads) hend1
  have hend3 := lineEnd_linesText (singles F.Aiger_outputs) hend2
  have hend4 := lineEnd_linesText (F.latchLines lay binary) hend3
  obtain ⟨hcons, hconsEq⟩ := singles_table hc.constraints hf.constraints hend
  obtain ⟨hbads, hbadsEq⟩ := singles_table hc.bads hf.bads hend1
  obtain ⟨houts, houtsEq⟩ := singles_table hc.outputs hf.outputs hend2
  obtain ⟨hlat, hlatEq⟩ := latches_table lay hc hf hw.consecutive hend3
  have hgates : Gates binary F.header F.Aiger_ands (F.gatesText binary ++ t) t := by
    unfold gatesText
    cases binary with
    | true => exact gates_binary hc hf (hw.consecutive rfl)
    | false => exact gates_ascii hc hf (ht.resolve_left (by decide))
  refine ⟨if binary then [] else (singles F.Aiger_inputs).map (padded 1), _, _, _, _, _, _, _, _, _, ?_, hlat,
    houts, hbads, hcons, hgates, rfl, rfl, ?_, hlatEq.symm, houtsEq.symm, hbadsEq.symm, hconsEq.symm⟩
  · cases binary with
    | true => exact ⟨rfl, by simp [tables]⟩
    | false =>
        have hin := (singles_table hc.inputs hf.inputs hend4).1
        simp only [tables, Bool.false_eq_true, if_false, List.append_assoc]
        exact hin
  · cases binary with
    | true => exact (inputsOf_binary (hw.consecutive rfl) hf).symm
    | false => exact (singles_table hc.inputs hf.inputs hend4).2.symm

/-- The file in either format. -/
def serialise (F : AigerFile) (lay : Layout) (binary : Bool) : List Nat :=
  if binary then F.binary lay else F.ascii lay

theorem flatMap_lines (first : List Nat) (lines : List (List Nat)) :
    (first :: lines.map numberLine).flatMap (fun l => l ++ [10]) = first ++ (linesText lines ++ [10]) := by
  induction lines generalizing first with
  | nil => simp [linesText]
  | cons ns lines ih =>
      rw [List.map_cons, List.flatMap_cons, ih]
      simp [linesText]

theorem linesText_append (as bs : List (List Nat)) : linesText (as ++ bs) = linesText as ++ linesText bs :=
  List.flatMap_append

/-- The end of the last line, which is behind the gates in an ASCII file. -/
def lastLine (binary : Bool) : List Nat := if binary then [] else [10]

theorem map_latchLines (F : AigerFile) (lay : Layout) (binary : Bool) :
    (F.latchLines lay binary).map numberLine = F.Aiger_latches.mapIdx fun i a =>
      numberLine ((if binary then [a.next] else [a.l, a.next]) ++ resetNumbers lay i a) := by
  refine List.ext_getElem (by simp [latchLines]) fun i h1 h2 => ?_
  simp [latchLines]

theorem asciiLines_eq (F : AigerFile) (lay : Layout) : F.asciiLines lay =
    ([97, 97, 103, 32] ++ numberLine (F.headerNumbers lay)) :: (singles F.Aiger_inputs ++
      (F.latchLines lay false ++ (singles F.Aiger_outputs ++ (singles F.Aiger_bads ++
        (singles F.Aiger_constraints ++ F.gateLines))))).map numberLine := by
  simp [asciiLines, singles, map_latchLines, gateLines, Function.comp_def]

theorem binaryLines_eq (F : AigerFile) (lay : Layout) : F.binaryLines lay =
    ([97, 105, 103, 32] ++ numberLine (F.headerNumbers lay)) :: (F.latchLines lay true ++
      (singles F.Aiger_outputs ++ (singles F.Aiger_bads ++ singles F.Aiger_constraints))).map numberLine := by
  simp [binaryLines, singles, map_latchLines, Function.comp_def]

theorem serialise_eq (F : AigerFile) (lay : Layout) (binary : Bool) : F.serialise lay binary =
    97 :: (if binary then 105 else 97) :: 103 :: 32 :: (numberLine (F.headerNumbers lay) ++
      (F.tables lay binary ++ (F.gatesText binary ++ lastLine binary))) := by
  cases binary with
  | true =>
      have h : F.serialise lay true = (F.binaryLines lay).flatMap (fun l => l ++ [10]) ++
        F.Aiger_ands.flatMap gateBytes := rfl
      rw [h, binaryLines_eq, flatMap_lines]
      simp [linesText_append, tables, gatesText, lastLine]
  | false =>
      have h : F.serialise lay false = (F.asciiLines lay).flatMap (fun l => l ++ [10]) := rfl
      rw [h, asciiLines_eq, flatMap_lines]
      simp [linesText_append, tables, gatesText, lastLine]

end AigerFile

/-! ## Loading -/

theorem bufferOf_short {bytes : List Nat} (h : bytes.length < 2 ^ 31 - 1) :
    bufferOf bytes = some (bytes ++ [0]) := by
  have hw : wrap bytes.length = bytes.length := wrap_of_lt (by omega) (by omega)
  unfold bufferOf
  simp only [hw]
  rw [if_neg (by omega), Int.toNat_natCast, List.take_length]

theorem bufferOf_long {bytes : List Nat} (h : 2 ^ 31 - 1 ≤ bytes.length) (h' : bytes.length < 2 ^ 32) :
    bufferOf bytes = none := by
  unfold bufferOf
  simp only
  refine if_pos ?_
  by_cases hlen : bytes.length = 2 ^ 31 - 1
  · right
    rw [hlen]
    exact wrap_of_lt (by omega) (by omega)
  · left
    rw [wrap_of_ge (by omega) (by omega)]
    omega

section

variable {b b' : Bool} {h h' : Header} {D D' : AigerInput} {t' : List Nat}

theorem Letters.unique (hl : Letters b s t) (hl' : Letters b' s t') : b = b' ∧ t = t' := by
  have heq := (readFormat_iff.mpr hl).symm.trans (readFormat_iff.mpr hl')
  cases heq
  exact ⟨rfl, rfl⟩

theorem HeaderText.unique (hh : HeaderText h s t) (hh' : HeaderText h' s t') : h = h' ∧ t = t' := by
  have heq := (readHeader_iff.mpr hh).symm.trans (readHeader_iff.mpr hh')
  cases heq
  exact ⟨rfl, rfl⟩

theorem Sections.unique (hs : Sections b h D s t) (hs' : Sections b h D' s t') : D = D' ∧ t = t' := by
  have heq := (readSections_iff.mpr hs).symm.trans (readSections_iff.mpr hs')
  cases heq
  exact ⟨rfl, rfl⟩

end

/-- `body` consists of the letters, the header `h` and the sections of `D`, whatever follows it. -/
def IsBody (binary : Bool) (h : Header) (D : AigerInput) (body : List Nat) : Prop :=
  ∀ t, ∃ m1 m2, Letters binary (body ++ t) m1 ∧ HeaderText h m1 m2 ∧
    Sections binary h D m2 (AigerFile.lastLine binary ++ t)

theorem AigerFile.isBody_serialise {F : AigerFile} {binary : Bool} (hw : F.Writable binary) (lay : Layout) :
    IsBody binary F.header (F.input binary) (F.serialise lay binary) := by
  intro t
  have hend : binary = true ∨ LineEnd (lastLine binary ++ t) := by
    cases binary with
    | true => exact .inl rfl
    | false => exact .inr ⟨_, rfl⟩
  have hsec := sections_text lay hw hend
  have hhead := header_text lay hw.fits (lineEnd_tables F lay binary (lineEnd_gatesText F hend))
  refine ⟨_, _, ⟨_, ?_, rfl⟩, hhead, hsec⟩
  rw [serialise_eq]
  simp

/-- A body with anything behind it is loaded exactly if its header is accepted and what is behind is a
trailing section. -/
theorem load_body {binary : Bool} {h : Header} {D : AigerInput} {body : List Nat}
    (hbody : IsBody binary h D body) (trailer : List Nat)
    (hlen : (body ++ trailer).length < 2 ^ 31 - 1) (D' : AigerInput) :
    load_aiger_from_file (body ++ trailer) = .ok D' ↔
      (h.Accepted binary ∧ Trailing binary (AigerFile.lastLine binary ++ (trailer ++ [0]))) ∧ D' = D := by
  have hbuf := bufferOf_short hlen
  rw [List.append_assoc] at hbuf
  obtain ⟨m1, m2, hletters, hhead, hsec⟩ := hbody (trailer ++ [0])
  rw [load_iff]
  constructor
  · rintro ⟨buf, b, h', m1', m2', m3, hb, hl, hh, hacc, hs, htr⟩
    obtain rfl := Option.some.inj (hbuf.symm.trans hb)
    obtain ⟨rfl, rfl⟩ := hletters.unique hl
    obtain ⟨rfl, rfl⟩ := hhead.unique hh
    obtain ⟨rfl, rfl⟩ := hsec.unique hs
    exact ⟨⟨hacc, htr⟩, rfl⟩
  · rintro ⟨⟨hacc, htr⟩, rfl⟩
    exact ⟨_, binary, h, _, _, _, hbuf, hletters, hhead, hacc, hsec, htr⟩

end ModelChecker
