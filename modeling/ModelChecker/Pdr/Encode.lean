import ModelChecker.Aig.Circuit
import ModelChecker.Sat.Solver

/-!
# The encodings of `PDR.cpp`

Primed copies of inputs and latches have fixed variables; those of gates are allocated the first time
they are asked for. `encode_translation` and `encode_lift` hand the same clauses to Minisat, apart
from the constraints.
-/

namespace ModelChecker

open Logic

/-- `variables.size()` and `map_to_prime`. -/
structure Primes where
  size : Nat
  map_to_prime : List (Nat × Nat)
deriving DecidableEq, Repr

namespace Aiger

variable (A : Aiger)

/-- `variables.size()` at the end of `Aiger::translate_to_dimacs`. -/
def primed_first_dimacs : Nat := A.max_var + 1

def prime_var (P : Primes) (var : Nat) : Nat × Primes :=
  if 1 < var then
    if var ≤ 1 + A.num_inputs + A.num_latches then (A.primed_first_dimacs + var - 2, P)
    else
      match P.map_to_prime.lookup var with
      | none => (P.size, ⟨P.size + 1, (var, P.size) :: P.map_to_prime⟩)
      | some v => (v, P)
  else (var, P)  -- constants have no copy

def prime_lit (P : Primes) (lit : Int) : Int × Primes :=
  if 0 ≤ lit then (((A.prime_var P lit.natAbs).1 : Int), (A.prime_var P lit.natAbs).2)
  else (-((A.prime_var P lit.natAbs).1 : Int), (A.prime_var P lit.natAbs).2)

def prime_lits (P : Primes) : List Int → List Int × Primes
  | [] => ([], P)
  | l :: ls =>
    let (l', P) := A.prime_lit P l
    let (ls', P) := prime_lits P ls
    (l' :: ls', P)

/-- `PDR::translate_to_dimacs`: room for the primed inputs and latches, then `bad_prime` and
`constraints_prime`. -/
def translate_to_prime : Int × List Int × Primes :=
  let P : Primes := ⟨A.primed_first_dimacs + A.num_inputs + A.num_latches, []⟩
  let (bad_prime, P) := A.prime_lit P A.bad
  let (constraints_prime, P) := A.prime_lits P A.constraints
  (bad_prime, constraints_prime, P)

/-! ## Initial condition and bad cone -/

/-- The clauses of `encode_init_condition`. -/
def encode_init_condition : Cnf :=
  [[-1]] ++ A.init_state.map (fun l => [l]) ++ A.constraints.map (fun l => [l]) ++
    (coneGates (A.constraints.map Int.natAbs) A.ands.reverse).flatMap AndGate.clauses

/-- The clauses of `encode_bad_state`. -/
def encode_bad_state : Cnf :=
  (coneGates [A.bad.natAbs] A.ands.reverse).flatMap AndGate.clauses

/-! ## Transition relation -/

/-- `lit_set`, `prime_lit_set`, the primed variables and the clauses emitted so far. -/
structure GatePass where
  lit_set : List Nat
  prime_lit_set : List Nat
  primes : Primes
  out : Cnf

/-- One iteration of the backward loop over `ands`. -/
def gatePass (s : GatePass) (a : AndGate) : GatePass :=
  if a.o ∈ s.lit_set then
    let s : GatePass :=
      { s with lit_set := a.i2.natAbs :: a.i1.natAbs :: s.lit_set, out := s.out ++ a.clauses }
    if a.o ∈ s.prime_lit_set then
      let (po, P) := A.prime_lit s.primes a.o
      let (pi1, P) := A.prime_lit P a.i1
      let (pi2, P) := A.prime_lit P a.i2
      { s with
        prime_lit_set := a.i2.natAbs :: a.i1.natAbs :: s.prime_lit_set
        primes := P
        out := s.out ++ andClauses po pi1 pi2 }
    else s
  else s

/-- `l' ↔ next` for every latch. -/
def latchClauses (P : Primes) : Cnf :=
  (List.range A.num_latches).flatMap fun i =>
    let pl := (A.prime_lit P (A.latch i)).1
    let next := A.nexts.getD i 1
    [[-pl, next], [-next, pl]]

/-- The roots that are primed: the bad literal and the constraints. -/
def primeRoots : List Nat := A.bad.natAbs :: A.constraints.map Int.natAbs

/-- The loop starts with the cone roots and the clauses for the constant, the bad literal, the
constraints (with `cons`) and the latches. -/
def passStart (cons : Bool) (P : Primes) : GatePass where
  lit_set := A.nexts.map Int.natAbs ++ A.primeRoots
  prime_lit_set := A.primeRoots
  primes := P
  out := [[-1], [-A.bad]] ++ (if cons then A.constraints.map (fun l => [l]) else []) ++
    A.latchClauses P

/-- The clauses added to Minisat, and the primed variables afterwards. -/
def transition (cons : Bool) (P : Primes) : Cnf × Primes :=
  let s := A.ands.reverse.foldl A.gatePass (A.passStart cons P)
  (s.out, s.primes)

/-- The variables frozen for `eliminate()`. -/
def frozenVars (bad_prime : Int) (constraints_prime : List Int) (P : Primes) : List Int :=
  (List.range (A.num_inputs + A.num_latches)).flatMap
      (fun i => [((2 + i : Nat) : Int), ((A.prime_var P (2 + i)).1 : Int)]) ++
    [A.bad, bad_prime] ++ A.constraints ++ constraints_prime

/-- Minisat filled by `encode_translation` (`cons`) or `encode_lift` (not `cons`), before
`simplify()`. -/
def minisat (cons : Bool) (bad_prime : Int) (constraints_prime : List Int) (P : Primes) :
    MinisatSimp :=
  ((A.frozenVars bad_prime constraints_prime P).foldl MinisatSimp.set_frozen
    (({} : MinisatSimp).var_enlarge_to (P.size - 1))).addAll (A.transition cons P).1

/-- A constraint is the bad literal itself: Minisat would drop the second unit clause. -/
def satelite_unsat : Bool := A.constraints.contains A.bad

end Aiger

end ModelChecker
