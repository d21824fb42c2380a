import ModelChecker.Aig.Format
import ModelChecker.Pdr.State

/-!
# Witnesses and certificates

The lines printed for a counterexample, and the circuit written as a certificate: the input circuit
with new gates for the invariant, whose negation becomes the bad literal.
-/

namespace ModelChecker

open Logic

/-! ## Counterexamples -/

/-- The array `a` of `return_latch` and `return_input` at position `v`: the last literal of `v` in
`inputs` and then `latches` decides. -/
def State.char (s : State) (v : Nat) : Char :=
  (s.inputs ++ s.latches).foldl (fun c l => if l.natAbs = v then if l < 0 then '0' else '1' else c) 'x'

def Aiger.return_input (A : Aiger) (s : State) : String :=
  String.ofList ((List.range A.num_inputs).map fun i => s.char (2 + i))

def Aiger.return_latch (A : Aiger) (s : State) : String :=
  String.ofList ((List.range A.num_latches).map fun i => s.char (A.latch i))

/-- The lines of `show_witness`. -/
def Aiger.show_witness (A : Aiger) (cex_states : List State) : List String :=
  ["1", "b0"] ++ (cex_states.take 1).map A.return_latch ++ cex_states.map A.return_input ++ ["."]

/-! ## Certificates -/

namespace Aiger

/-- A new gate over `a` and `b`, the larger variable first; on a tie `b` comes first. -/
def newGate (A : Aiger) (a b : Int) : Aiger × Int :=
  let o := 1 + A.num_inputs + A.num_latches + A.num_ands + 1
  let gate : AndGate := if a.natAbs > b.natAbs then ⟨o, a, b⟩ else ⟨o, b, a⟩
  ({ A with ands := A.ands ++ [gate], num_ands := A.num_ands + 1 }, o)

/-- The chain of gates over the literals of a cube. -/
def chainGates (A : Aiger) (g : Int) : List Int → Aiger × Int
  | [] => (A, g)
  | l :: ls =>
    let (A, g) := A.newGate g l
    chainGates A g ls

/-- The literals of a cube in the order they are read; an empty cube is the constant true. -/
def certCube (c : Cube) : Cube := (sortLits (if c.length = 0 then [-1] else c)).reverse

/-- `new_and_gate` for one cube. -/
def cubeGates (A : Aiger) (c : Cube) : Aiger × Int :=
  match certCube c with
  | [] => (A, 0)
  | l :: ls => A.chainGates l ls

/-- `invariant` after one more cube. -/
def invariantGates (A : Aiger) (invariant : Int) : List Cube → Aiger × Int
  | [] => (A, invariant)
  | c :: cs =>
    let (A, g) := A.cubeGates c
    let (A, invariant) := A.newGate (-g) invariant
    invariantGates A invariant cs

/-- The circuit whose bad literal is the complement of the invariant given by the cubes. -/
def certify (A : Aiger) : List Cube → Aiger
  | [] => A
  | c :: cs =>
    let (A, g) := A.cubeGates c
    let (A, invariant) := A.invariantGates (-g) cs
    { A with bad := -invariant }

/-- The lines of `show_aag`. -/
def show_aag (A : Aiger) : List String :=
  [s!"aag {A.num_inputs + A.num_latches + A.num_ands} {A.num_inputs} {A.num_latches} 0 {A.num_ands} 1"
    ++ (if A.constraints.length > 0 then s!" {A.constraints.length}" else "")] ++
  (List.range A.num_inputs).map (fun i => s!"{2 * (i + 1)}") ++
  (List.range A.num_latches).map (fun i =>
    s!"{2 * (A.num_inputs + i + 1)} {dimacs_to_aiger (A.nexts.getD i 1)}" ++
      (if A.default_vals.getD i 0 ≠ 0 then s!" {A.default_vals.getD i 0}" else "")) ++
  [s!"{dimacs_to_aiger A.bad}"] ++
  A.constraints.map (fun l => s!"{dimacs_to_aiger l}") ++
  A.ands.map (fun a => s!"{dimacs_to_aiger a.o} {dimacs_to_aiger a.i1} {dimacs_to_aiger a.i2}")

end Aiger

end ModelChecker
