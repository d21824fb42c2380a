import ModelChecker.Aig.Format
import ModelChecker.Logic.Exec

/-!
# Loading a circuit

`load_aiger_from_file` on the bytes of a file, and `translate_to_dimacs`. The loader walks a pointer
`fbuf` over a buffer that holds the file and a closing zero; the state of the model is what lies between
the pointer and the end of the buffer. Reading behind the end stops the model. `int` arithmetic wraps
around, and a shift by 32 or more is taken modulo 32, as on x86-64.
-/

namespace ModelChecker

open Logic

/-! ## Machine integers -/

/-- The value of an `int` expression. -/
def wrap (x : Int) : Int := x.bmod (2 ^ 32)

/-- An `int` stored as `unsigned`. -/
def toUnsigned (x : Int) : Nat := (x % 2 ^ 32).toNat

/-! ## Bytes -/

/-- How the loader ends without a circuit: an assertion fails, a byte outside of the buffer is accessed,
the buffer cannot be allocated, or a loop counter overflows before it reaches its bound. -/
inductive LoadStop where
  | assertion
  | outOfBounds
  | allocation
  | endless
deriving DecidableEq, Repr

abbrev Reader (α : Type) := Exec (List Nat) LoadStop α

def isDigit (c : Nat) : Bool := decide (48 ≤ c ∧ c ≤ 57)

/-- `*fbuf` -/
def peek : Reader Nat := fun s =>
  match s with
  | [] => (.error .outOfBounds, [])
  | c :: s => (.ok c, c :: s)

/-- `fbuf++` -/
def advance : Reader Unit := Exec.modify List.tail

/-- The bytes from the pointer on. -/
def remaining : Reader (List Nat) := Exec.lift fun s => (s, s)

def readDigits (result : Int) : List Nat → Except LoadStop Int × List Nat
  | [] => (.error .outOfBounds, [])
  | c :: s => if isDigit c then readDigits (wrap (result * 10 + (c - 48))) s else (.ok result, c :: s)

/-- The two loops of `read_literal`. -/
def scanLiteral : List Nat → Except LoadStop Int × List Nat
  | [] => (.error .outOfBounds, [])
  | c :: s =>
    if isDigit c then readDigits 0 (c :: s)
    else if c = 10 then (.ok (-1), c :: s)
    else scanLiteral s

/-- The next number of the line, or `-1` at the end of the line. The end itself is not consumed. -/
def read_literal : Reader Int := scanLiteral

def scanCode (x i : Nat) : List Nat → Except LoadStop Nat × List Nat
  | [] => (.error .outOfBounds, [])
  | ch :: s =>
    if ch / 128 % 2 = 1 then
      scanCode (x ||| (ch % 128 * 2 ^ (7 * i % 32)) % 2 ^ 32) (i + 1) s
    else (.ok (x ||| (ch * 2 ^ (7 * i % 32)) % 2 ^ 32), s)

def decode : Reader Nat := scanCode 0 0

def scanTo (c : Nat) : List Nat → Except LoadStop Unit × List Nat
  | [] => (.error .outOfBounds, [])
  | b :: s => if b = c then (.ok (), b :: s) else scanTo c s

/-- The loops that run up to the next `c`. -/
def skipTo (c : Nat) : Reader Unit := scanTo c

/-! ## Sections -/

/-- The counts of the header; the last four are `0` when they are missing. -/
structure Header where
  max_var : Int
  num_inputs : Int
  num_latches : Int
  num_outputs : Int
  num_ands : Int
  num_bads : Int
  num_constraints : Int
  num_justice : Int
  num_fairness : Int
deriving DecidableEq, Repr

def readHeader : Reader Header := do
  let max_var ← read_literal
  let num_inputs ← read_literal
  let num_latches ← read_literal
  let num_outputs ← read_literal
  let num_ands ← read_literal
  let num_bads ← read_literal
  let num_constraints ← read_literal
  let num_justice ← read_literal
  let num_fairness ← read_literal
  pure ⟨max_var, num_inputs, num_latches, num_outputs, num_ands, max num_bads 0,
    max num_constraints 0, max num_justice 0, max num_fairness 0⟩

/-- The letters before the header; whether the file is a binary one. -/
def readFormat : Reader Bool := do
  let a ← peek
  if a ≠ 97 then Exec.throw .assertion
  else do
    advance
    let b ← peek
    if b ≠ 105 ∧ b ≠ 97 then Exec.throw .assertion
    else do
      advance
      let g ← peek
      if g ≠ 103 then Exec.throw .assertion else pure (decide (b = 105))

def readFields : Nat → Reader (List Int)
  | 0 => pure []
  | k + 1 => do
      let v ← read_literal
      let vs ← readFields k
      pure (v :: vs)

/-- `read_literal(&fbuf); fbuf++;`, which goes to the next line, and the `k` fields read there. -/
def readRow (k : Nat) : Reader (List Int) := do
  let _ ← read_literal
  advance
  readFields k

/-- The loops over the sections: `n` rows of `k` fields each. -/
def readRows (k : Nat) : Nat → Reader (List (List Int))
  | 0 => pure []
  | n + 1 => do
      let row ← readRow k
      let rows ← readRows k n
      pure (row :: rows)

/-- The two deltas of each gate in a binary file. -/
def readDeltas : Nat → Reader (List (Nat × Nat))
  | 0 => pure []
  | n + 1 => do
      let d1 ← decode
      let d2 ← decode
      let ds ← readDeltas n
      pure ((d1, d2) :: ds)

/-- The fields of class `Aiger` that the loader fills, as `int`s and vectors of `unsigned`s. -/
structure AigerInput where
  binaryMode : Bool
  header : Header
  Aiger_inputs : List Nat
  Aiger_latches : List Aiger_latch
  Aiger_outputs : List Nat
  Aiger_bads : List Nat
  Aiger_constraints : List Nat
  Aiger_ands : List Aiger_and
deriving DecidableEq, Repr

/-- The first field of each row. -/
def firsts (rows : List (List Int)) : List Nat := rows.map fun row => toUnsigned (row.getD 0 0)

/-- The inputs of a binary file are not written. -/
def inputsOf (binary : Bool) (h : Header) (rows : List (List Int)) : List Nat :=
  if binary then (List.range h.num_inputs.toNat).map fun i : Nat => toUnsigned (2 * (i + 1)) else firsts rows

/-- In a binary file the variable of a latch is not written; a missing reset value is `0`. -/
def latchOf (binary : Bool) (h : Header) (i : Nat) (row : List Int) : Aiger_latch :=
  if binary then
    ⟨toUnsigned (2 * (h.num_inputs + 1 + i)), toUnsigned (row.getD 0 0), toUnsigned (max (row.getD 1 0) 0)⟩
  else ⟨toUnsigned (row.getD 0 0), toUnsigned (row.getD 1 0), toUnsigned (max (row.getD 2 0) 0)⟩

def andOf (row : List Int) : Aiger_and :=
  ⟨toUnsigned (row.getD 0 0), toUnsigned (row.getD 1 0), toUnsigned (row.getD 2 0)⟩

/-- The `i`-th gate of a binary file, from its deltas. -/
def deltaAnd (h : Header) (i : Nat) (d : Nat × Nat) : Aiger_and :=
  let o := 2 * (h.num_inputs + h.num_latches + i + 1)
  ⟨toUnsigned o, toUnsigned (o - d.1), toUnsigned (o - d.1 - d.2)⟩

def readAnds (binary : Bool) (h : Header) : Reader (List Aiger_and) :=
  if binary then do
    let _ ← read_literal
    advance
    let ds ← readDeltas h.num_ands.toNat
    pure (ds.mapIdx (deltaAnd h))
  else do
    let rows ← readRows 3 h.num_ands.toNat
    pure (rows.map andOf)

def readInputs (binary : Bool) (h : Header) : Reader (List (List Int)) :=
  if binary then pure [] else readRows 1 h.num_inputs.toNat

def readSections (binary : Bool) (h : Header) : Reader AigerInput := do
  let inputs ← readInputs binary h
  let latches ← readRows (if binary then 2 else 3) h.num_latches.toNat
  let outputs ← readRows 1 h.num_outputs.toNat
  let bads ← readRows 1 h.num_bads.toNat
  let constraints ← readRows 1 h.num_constraints.toNat
  let ands ← readAnds binary h
  pure {
    binaryMode := binary
    header := h
    Aiger_inputs := inputsOf binary h inputs
    Aiger_latches := latches.mapIdx (latchOf binary h)
    Aiger_outputs := firsts outputs
    Aiger_bads := firsts bads
    Aiger_constraints := firsts constraints
    Aiger_ands := ands }

/-! ## Symbols and comments -/

/-- A symbol entry of an input, a latch or an output. -/
def isEntry (c : Nat) : Bool := decide (c = 105 ∨ c = 108 ∨ c = 111)

/-- The loop over the symbol table, from the first byte of an entry on; whether it ends at a comment. The
first argument bounds the number of bytes left. The names are stored, but nothing reads them. -/
def readSymbols : Nat → Reader Bool
  | 0 => Exec.throw .outOfBounds
  | n + 1 => do
      let c ← peek
      if isEntry c then do
        let _ ← read_literal
        advance
        skipTo 10
        advance
        readSymbols n
      else if c = 99 then do
        advance
        pure true
      else pure false

/-- In an ASCII file the loader goes to the end of the last line; in a binary one it is behind the last
gate. -/
def finishLine (binary : Bool) : Reader Unit := if binary then pure () else skipTo 10

/-- The symbol table is looked at if more than one byte is left behind the pointer. -/
def readTable (binary : Bool) (s : List Nat) : Reader Bool :=
  if 2 < s.length then
    if binary then readSymbols s.length
    else do
      advance
      readSymbols s.length
  else pure false

/-- The rest of the line of the `c` is empty, and the text behind it is stored. -/
def readComments (comments : Bool) : Reader Unit :=
  if comments then do
    let c ← peek
    if c ≠ 10 then Exec.throw .assertion
    else do
      advance
      skipTo 0
  else pure ()

def readTrailer (binary : Bool) : Reader Unit := do
  finishLine binary
  let s ← remaining
  let comments ← readTable binary s
  readComments comments

/-! ## The loader -/

/-- The loader on the buffer. With `2 ^ 31 - 1` inputs in a binary file the counter of the first loop
overflows. -/
def readBuffer : Reader AigerInput := do
  let binary ← readFormat
  let h ← readHeader
  if h.max_var ≠ wrap (h.num_inputs + h.num_latches + h.num_ands) then Exec.throw .assertion
  else if binary ∧ h.num_inputs = 2 ^ 31 - 1 then Exec.throw .endless
  else do
    let D ← readSections binary h
    readTrailer binary
    pure D

/-- The buffer for a file: `int len` is the length of the file, and `len + 1` bytes are allocated. For
negative `len` and for the largest `int` that fails, or writes in front of the buffer. -/
def bufferOf (bytes : List Nat) : Option (List Nat) :=
  let len := wrap bytes.length
  if len < 0 ∨ len = 2 ^ 31 - 1 then none else some (bytes.take len.toNat ++ [0])

def load_aiger_from_file (bytes : List Nat) : Except LoadStop AigerInput :=
  (bufferOf bytes).elim (.error .allocation) fun buf => (readBuffer buf).1

/-! ## Translation -/

/-- `aiger_to_dimacs` on the `unsigned` fields, which are converted to `int`. -/
def literalOf (lit : Nat) : Int :=
  let x := wrap lit
  if x % 2 = 1 then -(x / 2) - 1 else x / 2 + 1

namespace AigerInput

variable (D : AigerInput)

/-- `variables.size()` after the loops of `translate_to_dimacs`. -/
def numVariables : Nat := 2 + D.header.num_inputs.toNat + D.header.num_latches.toNat + D.header.num_ands.toNat

/-- The assertions about the order of the variables. -/
def Numbered : Prop :=
  (∀ i, i < D.header.num_inputs.toNat → D.Aiger_inputs.getD i 0 = toUnsigned (2 * (i + 1))) ∧
  (∀ i, i < D.header.num_latches.toNat →
    (D.Aiger_latches.getD i default).l = toUnsigned (2 * (D.header.num_inputs + i + 1))) ∧
  ∀ i, i < D.header.num_ands.toNat →
    (D.Aiger_ands.getD i default).o = toUnsigned (2 * (D.header.num_inputs + D.header.num_latches + i + 1))

instance : Decidable D.Numbered := inferInstanceAs (Decidable (_ ∧ _ ∧ _))

/-- The bad literals, or the outputs when there are none. -/
def properties : List Nat := if 0 < D.header.num_bads then D.Aiger_bads else D.Aiger_outputs

/-- The chosen property; an index out of range counts as `0`. -/
def propertyOf (propertyIndex : Nat) : Nat :=
  D.properties.getD (if D.properties.length ≤ propertyIndex then 0 else propertyIndex) 0

/-- The `i`-th gate in DIMACS numbering. -/
def gateOf (i : Nat) (a : Aiger_and) : AndGate :=
  ⟨2 + D.header.num_inputs.toNat + D.header.num_latches.toNat + i, literalOf a.i1, literalOf a.i2⟩

/-- The members that `translate_to_dimacs` fills. -/
def dimacs (propertyIndex : Nat) : Aiger where
  num_inputs := D.header.num_inputs.toNat
  num_latches := D.header.num_latches.toNat
  num_ands := D.header.num_ands.toNat
  ands := D.Aiger_ands.mapIdx D.gateOf
  nexts := D.Aiger_latches.map fun a => literalOf a.next
  init_state := D.Aiger_latches.mapIdx (fun i a =>
    Aiger.resetLits (2 + D.header.num_inputs.toNat + i) a.default_val) |>.flatten
  constraints := D.Aiger_constraints.map literalOf
  allbad := D.properties.map literalOf
  bad := literalOf (D.propertyOf propertyIndex)
  default_vals := D.Aiger_latches.map (·.default_val)

/-- The assertions of `translate_to_dimacs`. -/
def Asserts (propertyIndex : Nat) : Prop :=
  D.Numbered ∧ (0 < D.header.num_bads ∨ 0 < D.header.num_outputs) ∧
  (D.dimacs propertyIndex).bad.natAbs ≤ D.numVariables ∧
  wrap D.numVariables = wrap (1 + D.header.num_inputs + D.header.num_latches + D.header.num_ands + 1)

instance (propertyIndex : Nat) : Decidable (D.Asserts propertyIndex) :=
  inferInstanceAs (Decidable (_ ∧ _ ∧ _ ∧ _))

def translate_to_dimacs (propertyIndex : Nat) : Except LoadStop Aiger :=
  if D.Asserts propertyIndex then .ok (D.dimacs propertyIndex) else .error .assertion

end AigerInput

end ModelChecker
