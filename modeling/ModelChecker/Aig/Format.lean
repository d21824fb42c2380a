import ModelChecker.Aig.Circuit

/-!
# AIGER files

The contents of an AIGER file as `load_aiger_from_file` stores it, its value under a valuation of the
inputs and latches, the two formats it is written in, and `translate_to_dimacs`. AIGER variable `k` is
DIMACS variable `k + 1`, and AIGER variable `0` is the constant false.
-/

namespace ModelChecker

open Logic

structure Aiger_latch where
  l : Nat
  next : Nat
  default_val : Nat
deriving DecidableEq, Repr, Inhabited

structure Aiger_and where
  o : Nat
  i1 : Nat
  i2 : Nat
deriving DecidableEq, Repr, Inhabited

/-- The fields of class `Aiger` that the loader fills. -/
structure AigerFile where
  max_var : Nat
  num_inputs : Nat
  num_latches : Nat
  num_outputs : Nat
  num_ands : Nat
  num_bads : Nat
  num_constraints : Nat
  Aiger_inputs : List Nat
  Aiger_latches : List Aiger_latch
  Aiger_outputs : List Nat
  Aiger_bads : List Nat
  Aiger_constraints : List Nat
  Aiger_ands : List Aiger_and
deriving DecidableEq, Repr

namespace AigerFile

variable (F : AigerFile)

def LitOk (l : Nat) : Prop := l ≤ 2 * F.max_var + 1

/-- The counts fit the sections, variables are numbered one after the other, and gates refer to smaller
variables. -/
structure WellFormed : Prop where
  max_var : F.max_var = F.num_inputs + F.num_latches + F.num_ands
  inputs : F.Aiger_inputs = (List.range F.num_inputs).map fun i => 2 * (i + 1)
  latches_length : F.Aiger_latches.length = F.num_latches
  latches_l : ∀ i, (h : i < F.Aiger_latches.length) →
    (F.Aiger_latches.get ⟨i, h⟩).l = 2 * (F.num_inputs + i + 1)
  latches_next : ∀ a ∈ F.Aiger_latches, F.LitOk a.next
  latches_reset : ∀ a ∈ F.Aiger_latches, a.default_val = 0 ∨ a.default_val = 1 ∨ a.default_val = a.l
  outputs_length : F.Aiger_outputs.length = F.num_outputs
  outputs_ok : ∀ l ∈ F.Aiger_outputs, F.LitOk l
  bads_length : F.Aiger_bads.length = F.num_bads
  bads_ok : ∀ l ∈ F.Aiger_bads, F.LitOk l
  constraints_length : F.Aiger_constraints.length = F.num_constraints
  constraints_ok : ∀ l ∈ F.Aiger_constraints, F.LitOk l
  ands_length : F.Aiger_ands.length = F.num_ands
  ands_o : ∀ i, (h : i < F.Aiger_ands.length) →
    (F.Aiger_ands.get ⟨i, h⟩).o = 2 * (F.num_inputs + F.num_latches + i + 1)
  fanins : ∀ a ∈ F.Aiger_ands, a.i1 < a.o ∧ a.i2 < a.o

/-! ## Values -/

/-- The value of a literal; odd literals are negated. -/
def litVal (e : Nat → Bool) (l : Nat) : Bool := e (l / 2) ^^ decide (l % 2 = 1)

def evalAnd (e : Nat → Bool) (a : Aiger_and) : Nat → Bool :=
  Function.update e (a.o / 2) (litVal e a.i1 && litVal e a.i2)

/-- The value of every variable, from a valuation of the inputs and latches. -/
def eval (v : Nat → Bool) : Nat → Bool := F.Aiger_ands.foldl evalAnd (Function.update v 0 false)

def val (v : Nat → Bool) (l : Nat) : Bool := litVal (F.eval v) l

end AigerFile

/-! ## Literals -/

def aiger_to_dimacs (lit : Nat) : Int :=
  if lit % 2 = 1 then -((lit / 2 : Nat) : Int) - 1 else ((lit / 2 : Nat) : Int) + 1

def dimacs_to_aiger (lit : Int) : Nat :=
  if lit < 0 then 2 * (lit.natAbs - 1) + 1 else 2 * (lit.natAbs - 1)

theorem natAbs_aiger_to_dimacs (l : Nat) : (aiger_to_dimacs l).natAbs = l / 2 + 1 := by
  unfold aiger_to_dimacs; split <;> omega

theorem aiger_to_dimacs_of_dimacs {l : Int} (h : l ≠ 0) :
    aiger_to_dimacs (dimacs_to_aiger l) = l := by
  unfold aiger_to_dimacs dimacs_to_aiger; split <;> split <;> omega

theorem dimacs_to_aiger_div {l : Int} (h : l ≠ 0) : dimacs_to_aiger l / 2 + 1 = l.natAbs := by
  unfold dimacs_to_aiger; split <;> omega

/-- The two numberings give a literal the same value. -/
theorem litVal_aiger_to_dimacs {e : Nat → Bool} {σ : Assignment} (h : ∀ k, σ (k + 1) = e k) (l : Nat) :
    litVal σ (aiger_to_dimacs l) = AigerFile.litVal e l := by
  unfold litVal AigerFile.litVal
  rw [natAbs_aiger_to_dimacs, h]
  unfold aiger_to_dimacs
  by_cases ho : l % 2 = 1
  · rw [if_pos ho, if_pos (by omega)]
    simp [ho]
  · rw [if_neg ho, if_neg (by omega)]
    simp [ho]

/-- A gate in DIMACS numbering. -/
def Aiger_and.toDimacs (a : Aiger_and) : AndGate :=
  ⟨a.o / 2 + 1, aiger_to_dimacs a.i1, aiger_to_dimacs a.i2⟩

/-- Evaluation does not depend on the numbering. -/
theorem evalAnds_toDimacs {e : Nat → Bool} {σ : Assignment} (h : ∀ k, σ (k + 1) = e k)
    (gs : List Aiger_and) (k : Nat) :
    evalAnds σ (gs.map Aiger_and.toDimacs) (k + 1) = gs.foldl AigerFile.evalAnd e k := by
  induction gs generalizing e σ with
  | nil => exact h k
  | cons g gs ih =>
      refine ih (e := AigerFile.evalAnd e g) (σ := evalGate σ g.toDimacs) fun j => ?_
      unfold evalGate AigerFile.evalAnd Aiger_and.toDimacs
      simp only [litVal_aiger_to_dimacs h]
      by_cases hj : j = g.o / 2
      · subst hj; simp
      · rw [Function.update_of_ne (by omega), Function.update_of_ne hj, h]

/-! ## The ASCII format -/

/-- The decimal digits of a number, as bytes. -/
def digitBytes (n : Nat) : List Nat := (Nat.toDigits 10 n).map Char.toNat

/-- Numbers separated by blanks. -/
def numberLine : List Nat → List Nat
  | [] => []
  | [n] => digitBytes n
  | n :: ns => digitBytes n ++ 32 :: numberLine ns

/-- Which fields are written although they are zero: the last four of the header, and the reset value of
the `i`-th latch. -/
structure Layout where
  bads : Bool := false
  constraints : Bool := false
  justice : Bool := false
  fairness : Bool := false
  resets : Nat → Bool := fun _ => false

namespace AigerFile

variable (F : AigerFile) (lay : Layout)

/-- The counts, without justice and fairness properties; a field can be left out only with all fields
behind it. -/
def headerNumbers : List Nat :=
  [F.max_var, F.num_inputs, F.num_latches, F.num_outputs, F.num_ands] ++
    (if F.num_bads ≠ 0 ∨ F.num_constraints ≠ 0 ∨ lay.bads ∨ lay.constraints ∨ lay.justice ∨ lay.fairness
      then [F.num_bads] else []) ++
    (if F.num_constraints ≠ 0 ∨ lay.constraints ∨ lay.justice ∨ lay.fairness
      then [F.num_constraints] else []) ++
    (if lay.justice ∨ lay.fairness then [0] else []) ++ if lay.fairness then [0] else []

def resetNumbers (i : Nat) (a : Aiger_latch) : List Nat :=
  if a.default_val ≠ 0 ∨ lay.resets i then [a.default_val] else []

/-- The lines of the ASCII format; `97`, `103` and `105` are `a`, `g` and `i`. -/
def asciiLines : List (List Nat) :=
  [[97, 97, 103, 32] ++ numberLine (F.headerNumbers lay)] ++
    F.Aiger_inputs.map (fun l => numberLine [l]) ++
    F.Aiger_latches.mapIdx (fun i a => numberLine ([a.l, a.next] ++ resetNumbers lay i a)) ++
    F.Aiger_outputs.map (fun l => numberLine [l]) ++
    F.Aiger_bads.map (fun l => numberLine [l]) ++
    F.Aiger_constraints.map (fun l => numberLine [l]) ++
    F.Aiger_ands.map fun a => numberLine [a.o, a.i1, a.i2]

/-- The ASCII serialisation; every line ends with a newline. -/
def ascii : List Nat := (F.asciiLines lay).flatMap fun l => l ++ [10]

end AigerFile

/-! ## The binary format -/

/-- The bytes of a number in groups of seven bits, the lowest first; all but the last have the highest
bit set. -/
def encode (x : Nat) : List Nat := if x < 128 then [x] else (x % 128 + 128) :: encode (x / 128)

namespace AigerFile

variable (F : AigerFile) (lay : Layout)

/-- The lines before the gates; inputs and the variables of the latches are not written. -/
def binaryLines : List (List Nat) :=
  [[97, 105, 103, 32] ++ numberLine (F.headerNumbers lay)] ++
    F.Aiger_latches.mapIdx (fun i a => numberLine ([a.next] ++ resetNumbers lay i a)) ++
    F.Aiger_outputs.map (fun l => numberLine [l]) ++
    F.Aiger_bads.map (fun l => numberLine [l]) ++
    F.Aiger_constraints.map fun l => numberLine [l]

/-- The binary serialisation; a gate is written as the differences of its literals. -/
def binary : List Nat :=
  (F.binaryLines lay).flatMap (fun l => l ++ [10]) ++
    F.Aiger_ands.flatMap fun a => encode (a.o - a.i1) ++ encode (a.i1 - a.i2)

end AigerFile

end ModelChecker
