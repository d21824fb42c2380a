import ModelChecker.Bmc.Unfold
import ModelChecker.Sat.Solver

/-!
# Solving the frames

`solve_one_frame` hands the cone of the current frame to the incremental solver and asks whether the
checked property is violated in it. `check` does this frame by frame; a thread is the state of one call
of `check`, cut where it reads or writes `RESULT`.
-/

namespace ModelChecker

open Logic

structure BMC extends Unfolding where
  bmcSolver : CaDiCaL := {}
  lit_has_insert : Nat → Bool := fun _ => false
  bmc_frame_k : Nat := 0

namespace BMC

/-- The pass over the gates, last one first, with their positions in `uaiger->ands`. -/
def insertGates : List (AndGate × Nat) → List Nat → BMC → BMC
  | [], _, s => s
  | (a, i) :: rest, lit_set, s =>
    if s.lit_has_insert i = true ∨ a.o ∉ lit_set then insertGates rest lit_set s
    else insertGates rest (a.i2.natAbs :: a.i1.natAbs :: lit_set.filter (· ≠ a.o))
      { s with
        lit_has_insert := Function.update s.lit_has_insert i true
        bmcSolver := s.bmcSolver.addAll a.clauses }

end BMC

namespace BmcConfig

variable (B : BmcConfig)

/-- `initialize`; the solver for the initial condition is discarded there. -/
def start : BMC where
  toUnfolding := B.initUnfold
  bmcSolver := ({} : CaDiCaL).addClause [-1]

/-- The constraints of the current frame. -/
def frameConstraints (U : UnfoldAiger) : List Int :=
  U.constraints.drop (U.constraints.length - B.circuit.constraints.length)

/-- The clauses of the current frame; the hash table grows for the next one. -/
def addFrame (s : BMC) : BMC :=
  let bad := s.uaiger.outputs.getLastD 0
  let cons := B.frameConstraints s.uaiger
  BMC.insertGates s.uaiger.ands.zipIdx.reverse (bad.natAbs :: cons.map Int.natAbs)
    { s with
      bmcSolver := s.bmcSolver.addAll (cons.map fun l => [l])
      uaiger := { s.uaiger with
        hash_size := max s.uaiger.hash_size (s.uaiger.nodes.length + B.circuit.num_ands * 3) } }

/-- This thread solves frame `k`. -/
def Owns (k : Nat) : Prop := ¬ (B.max_thread_index ≠ 1 ∧ k % B.max_thread_index ≠ B.thread_index)

instance (k : Nat) : Decidable (B.Owns k) := inferInstanceAs (Decidable (¬ _))

/-- The answer of the solver at time `t`, unless `terminate_callback` stops it. -/
def solve_one_frame (S : Ipasir) (t : Nat) (terminated : Bool) (s : BMC) : Int × BMC :=
  let bad := s.uaiger.outputs.getLastD 0
  let s := B.addFrame s
  if ¬ B.Owns s.bmc_frame_k then (20, { s with bmcSolver := s.bmcSolver.addClause [-bad] })
  else
    let solver := s.bmcSolver.assume bad
    if terminated then (0, { s with bmcSolver := { solver with assumptions := [] } })
    else
      match S.solve t solver.query with
      | .sat m => (10, { s with bmcSolver := solver.solved (.sat m) })
      | .unsat core => (20, { s with bmcSolver := (solver.solved (.unsat core)).addClause [-bad] })

end BmcConfig

/-! ## `check` -/

/-- Where a call of `check` stands; `undefined` follows an index out of range and an overflow. -/
inductive Phase where
  | head
  | solving
  | found
  | returned (res : Int)
  | undefined
deriving DecidableEq, Repr

structure Thread where
  phase : Phase
  bmc : BMC

namespace BmcConfig

variable (B : BmcConfig)

/-- `initialize` and the start of the loop. -/
def startThread : Thread := ⟨.head, { B.start with bmc_frame_k := 1 }⟩

/-- `max_nodes`, which is `INT_MAX`. -/
def maxNodes : Nat := 2 ^ 31 - 1

/-- The largest value of the frame counter, an `int`. -/
def maxFrame : Nat := 2 ^ 31 - 1

/-- The next step of a thread, and `RESULT` after it. -/
def threadStep (S : Ipasir) (t : Nat) (terminated : Bool) (RESULT : Int) (x : Thread) : Thread × Int :=
  match x.phase with
  | .head =>
    if B.nframes < x.bmc.bmc_frame_k then (⟨.returned 0, x.bmc⟩, RESULT)
    else if RESULT ≠ 0 then (⟨.returned 0, x.bmc⟩, RESULT)
    else
      match B.unfold x.bmc.toUnfolding with
      | none => (⟨.undefined, x.bmc⟩, RESULT)
      | some u => (⟨.solving, { x.bmc with toUnfolding := u }⟩, RESULT)
  | .solving =>
    let r := B.solve_one_frame S t terminated x.bmc
    if r.1 = 10 then (⟨.found, r.2⟩, RESULT)
    else if r.1 = 0 ∨ maxNodes < (r.2.uaiger.outputs.getLastD 0).natAbs then (⟨.returned 0, r.2⟩, RESULT)
    else if maxFrame ≤ r.2.bmc_frame_k then (⟨.undefined, r.2⟩, RESULT)
    else (⟨.head, { r.2 with bmc_frame_k := r.2.bmc_frame_k + 1 }⟩, RESULT)
  | .found => (⟨.returned 10, x.bmc⟩, if RESULT = 0 then 10 else RESULT)
  | .returned _ => (x, RESULT)
  | .undefined => (x, RESULT)

end BmcConfig

/-! ## Several threads -/

/-- What the threads of one run of `main` share; the number of frames is an `int`. -/
structure Portfolio where
  circuit : Circuit
  nframes : Nat
  nframes_le : nframes ≤ BmcConfig.maxFrame
  propertyIndex : Nat
  property_lt : propertyIndex < circuit.allbad.length

/-- The `BMC` object of thread `i` of `bmc_thread`. -/
def Portfolio.config (P : Portfolio) (bmc_thread i : Nat) : BmcConfig where
  circuit := P.circuit
  nframes := P.nframes
  thread_index := i
  max_thread_index := bmc_thread
  find_bug_only := false
  propertyIndex := P.propertyIndex
  property_lt := P.property_lt

structure Pool where
  threads : Nat → Thread
  RESULT : Int

namespace Portfolio

variable (P : Portfolio) (S : Nat → Ipasir) (m : Nat)

def startPool : Pool := ⟨fun i => (P.config m i).startThread, 0⟩

/-- Thread `i` takes its next step. -/
def poolStep (i t : Nat) (terminated : Bool) (s : Pool) : Pool :=
  let r := (P.config m i).threadStep (S i) t terminated s.RESULT (s.threads i)
  ⟨Function.update s.threads i r.1, r.2⟩

end Portfolio

end ModelChecker
