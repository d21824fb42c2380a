import Mathlib.Data.List.Sort
import ModelChecker.Logic.Exec
import ModelChecker.Pdr.Encode

/-!
# The state of `PDR`

Cubes, frames, proof obligations and the members of class `PDR` that decide its behaviour. State
objects live in the list `states` and are named by their position in it, which also is their creation
order (`State::index`). Statistics and log output are left out, and so are the floating-point scores of
the literal heuristic: wherever the source sorts by them the order is chosen by the environment.
-/

namespace ModelChecker

open Logic

/-! ## Orders of `PDR.hpp` -/

abbrev Cube := List Int

def Lit_CMP (a b : Int) : Bool :=
  if a.natAbs = b.natAbs then decide (a < b) else decide (a.natAbs < b.natAbs)

/-- `sort(cube.begin(), cube.end(), Lit_CMP())`. -/
def sortLits (c : Cube) : Cube := c.insertionSort fun a b => Lit_CMP b a = false

/-- The first differing entries of two cubes of the same size. -/
def lexLt : Cube → Cube → Bool
  | a :: as, b :: bs => if a ≠ b then decide (a < b) else lexLt as bs
  | _, _ => false

def Cube_CMP (a b : Cube) : Bool :=
  if a.length ≠ b.length then decide (a.length < b.length) else lexLt a b

/-- Insertion into a `std::set` ordered by `lt`. -/
def setInsert {α : Type} (lt : α → α → Bool) (x : α) : List α → List α
  | [] => [x]
  | y :: ys => if lt x y then x :: y :: ys else if lt y x then y :: setInsert lt x ys else y :: ys

/-- `abs_compare`: signs are not compared. -/
def abs_compare (a b : Int) : Bool := decide (a.natAbs < b.natAbs)

/-- `std::includes` of two ranges sorted by `lt`. -/
def includes (lt : Int → Int → Bool) : List Int → List Int → Bool
  | _, [] => true
  | [], _ :: _ => false
  | a :: as, b :: bs =>
    if lt b a then false else if lt a b then includes lt as (b :: bs) else includes lt as bs

/-- The search of `rec_block_cube` and `extract_state_from_sat` for a cube of the set that blocks `la`;
it stops at the first larger cube. -/
def blockedBy (la : Cube) : List Cube → Bool
  | [] => false
  | c :: cs =>
    if la.length < c.length then false
    else if includes abs_compare la c then true else blockedBy la cs

/-! ## State objects, obligations, frames -/

structure State where
  latches : Cube := []
  inputs : List Int := []
  next : Option Nat := none
  failed : Nat := 0
  failed_depth : Nat := 0
deriving DecidableEq, Repr, Inhabited

def State.clear (s : State) : State := { s with latches := [], inputs := [], next := none }

structure Obligation where
  state : Nat
  frame_k : Nat
  depth : Nat
deriving DecidableEq, Repr

def Obligation.lt (a b : Obligation) : Bool :=
  if a.frame_k < b.frame_k then true
  else if a.frame_k > b.frame_k then false
  else if a.depth < b.depth then true
  else if a.depth > b.depth then false
  else decide (a.state < b.state)

structure Frame where
  cubes : List Cube := []
  solver : CaDiCaL := {}

instance : Inhabited Frame := ⟨{}⟩

/-- The members of `PDR`; `circuit` is the part inherited from `Aiger`. -/
structure PDR where
  circuit : Aiger
  primes : Primes := ⟨0, []⟩
  bad_prime : Int := 0
  constraints_prime : List Int := []
  /-- `satelite->simplified_cnf`, once computed. -/
  satelite : Option Cnf := none
  satelite_unsat : Bool := false
  satelite2 : Option Cnf := none
  lift : Option CaDiCaL := none
  init : Option CaDiCaL := none
  frames : List Frame := []
  obligation_queue : List Obligation := []
  states : List State := []
  core : Cube := []
  /-- The local variable of `rec_block_cube`. -/
  tmp_core : Cube := []
  top_frame_cannot_reach_bad : Bool := false
  earliest_strengthened_frame : Nat := 0
  nkCore : Nat := 0
  nkobl : Nat := 0
  find_cex : Bool := false
  cex_state_idx : Option Nat := none
  cex_states : List State := []

namespace PDR

/-- `frames.size() - 2`. -/
def depth (p : PDR) : Nat := p.frames.length - 2

def frame (p : PDR) (k : Nat) : Frame := p.frames.getD k default

def state (p : PDR) (s : Nat) : State := p.states.getD s default

def setSolver (p : PDR) (k : Nat) (s : CaDiCaL) : PDR :=
  { p with frames := p.frames.modify k fun f => { f with solver := s } }

def setCubes (p : PDR) (k : Nat) (cs : List Cube) : PDR :=
  { p with frames := p.frames.modify k fun f => { f with cubes := cs } }

def setState (p : PDR) (s : Nat) (f : State → State) : PDR := { p with states := p.states.modify s f }

def pushState (p : PDR) (st : State) : PDR := { p with states := p.states ++ [st] }

def setFrames (p : PDR) (fs : List Frame) : PDR := { p with frames := fs }

def setQueue (p : PDR) (q : List Obligation) : PDR := { p with obligation_queue := q }

end PDR

/-! ## Runs -/

/-- Everything a run does not decide itself: the answers of the SAT solvers, Minisat's simplification,
the orders of literals, the value other threads left in `RESULT`, and the options. -/
structure PdrEnv where
  solver : Ipasir
  minisat : Eliminator
  /-- The outcome of `stable_sort` by the heuristic, or of `random_shuffle`. -/
  order : Nat → Cube → Cube
  order_perm : ∀ n c, (order n c).Perm c
  RESULT : Nat → Int
  use_pr : Bool := false
  output_witness : Bool := true
  output_certificate : Bool := true

/-- A run stops early when its fuel is spent, when the assertion of `extract_state_from_sat` fails, or
when `check` finds obligations in the queue where it asserts that there are none. -/
inductive Stop where
  | fuel
  | assertion
  | obligations
deriving DecidableEq, Repr

/-- A success of `propagate`: the empty level, the engine at that moment, and the lines `show_aag` wrote
(none when another thread was first or no certificate is wanted). -/
structure Fixpoint where
  level : Nat
  engine : PDR
  certificate : Option (List String)

/-- The running engine, with history variables: `hist` holds the earlier states between two operations,
`blocked` the cubes of the obligations found blocked. -/
structure Run where
  pdr : PDR
  clock : Nat := 0
  hist : List PDR := []
  blocked : List Cube := []
  fixpoint : Option Fixpoint := none
  /-- The lines printed by `show_witness`. -/
  witness : Option (List String) := none

namespace Run

def tick (r : Run) : Run := { r with clock := r.clock + 1 }

def setP (r : Run) (p : PDR) : Run := { r with pdr := p }

/-- One more obligation was found blocked. -/
def block (r : Run) (c : Cube) : Run := { r with blocked := c :: r.blocked }

/-- A point of the run between two operations. -/
def record (r : Run) : Run := { r with hist := r.pdr :: r.hist }

end Run

abbrev PdrM := Exec Run Stop

def getP : PdrM PDR := Exec.lift fun r => (r.pdr, r)

def modifyP (f : PDR → PDR) : PdrM Unit := Exec.modify fun r => r.setP (f r.pdr)

def record : PdrM Unit := Exec.modify Run.record

def ask (env : PdrEnv) (q : Query) : PdrM Answer :=
  Exec.lift fun r => (env.solver.solve r.clock q, r.tick)

def reorder (env : PdrEnv) (c : Cube) : PdrM Cube := Exec.lift fun r => (env.order r.clock c, r.tick)

def readRESULT (env : PdrEnv) : PdrM Int := Exec.lift fun r => (env.RESULT r.clock, r.tick)

/-- `new State`, with the given members. -/
def newState (s : State) : PdrM Nat :=
  Exec.lift fun r => (r.pdr.states.length, r.setP (r.pdr.pushState s))

/-- The two cubes that are passed by reference. -/
inductive CubeVar where
  | tmp_core
  | core
deriving DecidableEq, Repr

def PDR.cube (p : PDR) : CubeVar → Cube
  | .tmp_core => p.tmp_core
  | .core => p.core

def PDR.setCube (p : PDR) : CubeVar → Cube → PDR
  | .tmp_core, c => { p with tmp_core := c }
  | .core, c => { p with core := c }

end ModelChecker
