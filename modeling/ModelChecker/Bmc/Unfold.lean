import ModelChecker.Aig.Circuit

/-!
# Unrolling a circuit

`BMC::unfold` appends one time step of the circuit to `uaiger`. `values` maps the variables of the
circuit to literals of the unrolled one, which are node numbers with a sign; node `1` is the constant
false. Arrays of fixed size are indexed with a check here: `none` stands for an index out of range.
-/

namespace ModelChecker

open Logic

/-! ## Data -/

inductive NodeType where
  | null | const | input | and
deriving DecidableEq, Repr

structure Node where
  type : NodeType
  child1 : Int := 0
  child2 : Int := 0
deriving DecidableEq, Repr

/-- `hash_table` has `hash_size` entries; entry `v` holds the gates with `v` as a child. -/
structure UnfoldAiger where
  inputs : List Nat := []
  outputs : List Int := []
  constraints : List Int := []
  ands : List AndGate := []
  nodes : List Node := []
  hash_table : Nat → List AndGate := fun _ => []
  hash_size : Nat := 0

def UnfoldAiger.nsize (U : UnfoldAiger) : Nat := U.nodes.length

/-- The members of `BMC` that `unfold` works on. -/
structure Unfolding where
  uaiger : UnfoldAiger := {}
  values : Nat → Int := fun _ => 0

/-- What the constructor of `BMC` and the options fix; the checked property exists. -/
structure BmcConfig where
  circuit : Circuit
  nframes : Nat
  thread_index : Nat
  max_thread_index : Nat
  find_bug_only : Bool
  propertyIndex : Nat
  property_lt : (if find_bug_only then thread_index else propertyIndex) < circuit.allbad.length

/-- The literal of the checked property. -/
def BmcConfig.checked (B : BmcConfig) : Int := B.circuit.allbad.get ⟨_, B.property_lt⟩

/-! ## `Aig_And` -/

/-- The macro `value`. -/
def value (values : Nat → Int) (rc : Int) : Int :=
  if 0 < rc then values rc.natAbs else -values rc.natAbs

/-- The fan-ins of a gate; other variables count as the conjunction of themselves and true. -/
def Aiger.fanins (A : Aiger) (p : Int) : Option (Int × Int) :=
  if A.first_and ≤ p.natAbs then A.ands[p.natAbs - A.first_and]?.map fun a => (a.i1, a.i2)
  else some (p.natAbs, -1)

inductive Strash where
  | ret (v : Int)
  | call (p0 p1 : Int)
  | skip

/-- The two-level rules for `p`, whose fan-ins are `fa` and `fb`, and a literal of value `w`. -/
def strash (values : Nat → Int) (p fa fb w : Int) : Strash :=
  let va := value values fa
  let vb := value values fb
  if p < 0 then
    if va = -w ∨ vb = -w then .ret w
    else if vb = w then .call (-fa) fb
    else if va = w then .call (-fb) fa
    else .skip
  else if 0 < p then
    if va = -w ∨ vb = -w then .ret 1
    else if va = w ∨ vb = w then .ret (value values p)
    else .skip
  else .skip

/-- `0` if no rule applies; the first argument bounds the recursion. -/
def Aig_And (A : Aiger) (values : Nat → Int) : Nat → Int → Int → Option Int
  | 0, _, _ => none
  | fuel + 1, p0, p1 =>
    let v0 := value values p0
    let v1 := value values p1
    if v0 = v1 then some v0
    else if v0 = -v1 then some 1
    else if v0.natAbs = 1 then some (if v0 = -1 then v1 else 1)
    else if v1.natAbs = 1 then some (if v1 = -1 then v0 else 1)
    else
      (A.fanins p0).bind fun f0 => (A.fanins p1).bind fun f1 =>
        if A.first_and ≤ p0.natAbs ∨ A.first_and ≤ p1.natAbs then
          match strash values p0 f0.1 f0.2 v1 with
          | .ret v => some v
          | .call q0 q1 => Aig_And A values fuel q0 q1
          | .skip =>
            match strash values p1 f1.1 f1.2 v0 with
            | .ret v => some v
            | .call q0 q1 => Aig_And A values fuel q0 q1
            | .skip => some 0
        else some 0

/-! ## `unfold` -/

namespace Unfolding

variable (A : Aiger) (s : Unfolding)

def setValue (v : Nat) (l : Int) : Unfolding := { s with values := Function.update s.values v l }

/-- A new leaf for the `i`-th input. -/
def addInput (i : Nat) : Unfolding where
  uaiger := { s.uaiger with
    nodes := s.uaiger.nodes ++ [⟨.input, 0, 0⟩]
    inputs := s.uaiger.inputs ++ [s.uaiger.nsize] }
  values := Function.update s.values (i + 2) s.uaiger.nsize

/-- The last gate of the bucket with the children `i1` and `i2` in either order, `0` if none. -/
def lookup (bucket : List AndGate) (i1 i2 : Int) : Nat :=
  bucket.foldl (fun output g =>
    if (g.i1 = i1 ∧ g.i2 = i2) ∨ (g.i2 = i1 ∧ g.i1 = i2) then g.o else output) 0

/-- A new gate, as the value of `o`. -/
def newAnd (o : Nat) (i1 i2 : Int) : Unfolding :=
  let a : AndGate := ⟨s.uaiger.nsize, i1, i2⟩
  let table := Function.update s.uaiger.hash_table i1.natAbs (s.uaiger.hash_table i1.natAbs ++ [a])
  { uaiger := { s.uaiger with
      nodes := s.uaiger.nodes ++ [⟨.and, i1, i2⟩]
      ands := s.uaiger.ands ++ [a]
      hash_table := Function.update table i2.natAbs (table i2.natAbs ++ [a]) }
    values := Function.update s.values o s.uaiger.nsize }

/-- The gate of the circuit is simplified, found in the hash table or added. -/
def unfoldAnd (a : AndGate) : Option Unfolding :=
  let s := s.setValue a.o 0
  (Aig_And A s.values a.o a.i1 a.i2).bind fun v =>
    if v ≠ 0 then some (s.setValue a.o v)
    else
      let i1 := value s.values a.i1
      let i2 := value s.values a.i2
      if s.uaiger.hash_size ≤ i1.natAbs then none
      else
        let output := lookup (s.uaiger.hash_table i1.natAbs) i1 i2
        if output ≠ 0 then some (s.setValue a.o output)
        else if s.uaiger.hash_size ≤ i2.natAbs then none
        else some (s.newAnd a.o i1 i2)

/-- The constraints and the checked property of this step. -/
def addProperties (bad : Int) : Unfolding :=
  { s with uaiger := { s.uaiger with
      constraints := s.uaiger.constraints ++ A.constraints.map (value s.values)
      outputs := s.uaiger.outputs ++ [value s.values bad] } }

/-- The literals of the next state, collected in `tempvalue` first. -/
def stepLatches : Unfolding :=
  let tempvalue := A.nexts.map (value s.values)
  { s with values := fun v =>
      if A.IsLatch v then tempvalue.getD (v - (A.num_inputs + 2)) 0 else s.values v }

end Unfolding

/-- The number of entries of `tempvalue`. -/
def tempvalueSize : Nat := 999999

def BmcConfig.unfold (B : BmcConfig) (s : Unfolding) : Option Unfolding :=
  let A := B.circuit.toAiger
  let s := (List.range A.num_inputs).foldl Unfolding.addInput s
  (A.ands.foldlM (Unfolding.unfoldAnd A) s).bind fun s =>
    if tempvalueSize < A.num_latches then none
    else some ((s.addProperties A B.checked).stepLatches A)

/-! ## `initialize` -/

/-- The values before the first step: initialised latches are constants. -/
def Aiger.initValues (A : Aiger) : Nat → Int :=
  A.init_state.foldl (fun values latch =>
    if 0 < latch then Function.update values latch.natAbs (-1)
    else if latch < 0 then Function.update values latch.natAbs 1
    else values) (Function.update (fun _ => 0) 1 1)

/-- A leaf for the latch `v`, which is its value if it is uninitialised. -/
def Unfolding.addLatch (s : Unfolding) (v : Nat) : Unfolding where
  uaiger := { s.uaiger with nodes := s.uaiger.nodes ++ [⟨.input, 0, 0⟩] }
  values := if s.values v = 0 then Function.update s.values v s.uaiger.nsize else s.values

/-- The size `hash_table` is given by `initialize`. -/
def hashTableSize : Nat := 99999999

/-- The part of `initialize` that concerns `uaiger` and `values`. -/
def BmcConfig.initUnfold (B : BmcConfig) : Unfolding :=
  let A := B.circuit.toAiger
  (List.range A.num_latches).foldl (fun s i => s.addLatch (A.latch i))
    { uaiger := { nodes := [⟨.null, 0, 0⟩, ⟨.const, 0, 0⟩], hash_size := hashTableSize }
      values := A.initValues }

/-- `k` calls of `unfold` after `initialize`. -/
def BmcConfig.unfolds (B : BmcConfig) : Nat → Option Unfolding
  | 0 => some B.initUnfold
  | k + 1 => (B.unfolds k).bind B.unfold

/-! ## What the nodes mean -/

namespace UnfoldAiger

variable (U : UnfoldAiger)

/-- The AND nodes, in the order of their numbers. -/
def nodeAnds : List AndGate :=
  U.nodes.zipIdx.filterMap fun x => if x.1.type = .and then some ⟨x.2, x.1.child1, x.1.child2⟩ else none

/-- The value of every node, from a valuation of the leaves: node `1` is false and an AND node the
conjunction of its children. -/
def eval (leaf : Assignment) : Assignment := evalAnds (Function.update leaf 1 false) U.nodeAnds

end UnfoldAiger

namespace Circuit

variable (A : Circuit)

/-- A latch in the initial state; an uninitialised one has the value of its leaf. -/
def initValue (leaf : Assignment) (v : Nat) : Bool :=
  if (v : Int) ∈ A.init_state then true
  else if -(v : Int) ∈ A.init_state then false
  else leaf (v - A.num_inputs)

/-- The simulation that reads its inputs from the leaves `inputs`, `num_inputs` in each step. -/
def simulate (leaf : Assignment) (inputs : List Nat) : Nat → Assignment
  | 0 => fun v =>
      if v < A.num_inputs + 2 then leaf (inputs.getD (v - 2) 0) else A.initValue leaf v
  | k + 1 => fun v =>
      if v < A.num_inputs + 2 then leaf (inputs.getD ((k + 1) * A.num_inputs + (v - 2)) 0)
      else A.val (simulate leaf inputs k) (A.nexts.getD (v - (A.num_inputs + 2)) 1)

end Circuit

end ModelChecker
