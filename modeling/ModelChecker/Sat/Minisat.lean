import ModelChecker.Logic.Resolution
import Mathlib.Data.List.Sort

/-!
# Minisat's preprocessor

`SimpSolver::addClause_` and the steps of `SimpSolver::eliminate`: unit propagation, backward subsumption
and variable elimination. The subsumption queue, the heap of variables and the watch lists only decide
which step comes next, which is left open here. Literals are those of the DIMACS format.
-/

namespace ModelChecker.Minisat

open Logic

/-! ## Clauses -/

/-- The order of literals: by variable, the positive one first. -/
def litKey (l : Int) : Nat := 2 * l.natAbs + if l < 0 then 1 else 0

def sort (ps : Clause) : Clause := ps.insertionSort fun a b => litKey a ≤ litKey b

/-- The loop of `addClause_` over the sorted literals; `p` is the last one that was kept. There is no result
if a literal is true or the complement of another one. -/
def reduce (trail : List Int) (p : Option Int) : Clause → Option Clause
  | [] => some []
  | l :: ls =>
    if l ∈ trail ∨ p = some (-l) then none
    else if -l ∉ trail ∧ p ≠ some l then (reduce trail (some l) ls).map (l :: ·)
    else reduce trail p ls

/-- `calcAbstraction` -/
def abstraction (c : Clause) : BitVec 32 := c.foldl (fun a l => a ||| 1#32 <<< ((l.natAbs - 1) % 32)) 0#32

/-- What `subsumes` returns: no subsumption, subsumption, or a literal whose complement can be deleted. -/
inductive Subsumption where
  | error
  | undef
  | lit (p : Int)
deriving DecidableEq, Repr

/-- The search for `l` or its complement; `ret` is the complement that was found before. -/
def search (l : Int) (ret : Option Int) : Clause → Option (Option Int)
  | [] => none
  | m :: d =>
    if l = m then some ret
    else if ret = none ∧ l = -m then some (some l)
    else search l ret d

def subsumesLoop (d : Clause) : Clause → Option Int → Subsumption
  | [], none => .undef
  | [], some p => .lit p
  | l :: c, ret =>
    match search l ret d with
    | none => .error
    | some ret => subsumesLoop d c ret

def subsumes (c d : Clause) : Subsumption :=
  if d.length < c.length ∨ abstraction c &&& ~~~abstraction d ≠ 0#32 then .error else subsumesLoop d c none

/-- The inner loop of `merge`: whether the variable of `q` occurs, and then whether its complement does. -/
def clash (q : Int) : Clause → Option Bool
  | [] => none
  | p :: ps => if p.natAbs = q.natAbs then some (decide (p = -q)) else clash q ps

/-- The literals of `qs` that `ps` does not have. -/
def mergeLoop (v : Nat) (ps : Clause) : Clause → Option Clause
  | [] => some []
  | q :: qs =>
    if q.natAbs ≠ v then
      match clash q ps with
      | some true => none
      | some false => mergeLoop v ps qs
      | none => (mergeLoop v ps qs).map (q :: ·)
    else mergeLoop v ps qs

/-- The resolvent on `v`, unless it is always satisfied. -/
def merge (ps qs : Clause) (v : Nat) : Option Clause :=
  if ps.length < qs.length then (mergeLoop v qs ps).map (· ++ dropVar v qs)
  else (mergeLoop v ps qs).map (· ++ dropVar v ps)

/-- The loop of the other `merge`, which only counts. -/
def mergeSizeLoop (v : Nat) (ps : Clause) : Clause → Nat → Option Nat
  | [], size => some size
  | q :: qs, size =>
    if q.natAbs ≠ v then
      match clash q ps with
      | some true => none
      | some false => mergeSizeLoop v ps qs size
      | none => mergeSizeLoop v ps qs (size + 1)
    else mergeSizeLoop v ps qs size

/-- The size of the resolvent. -/
def mergeSize (ps qs : Clause) (v : Nat) : Option Nat :=
  if ps.length < qs.length then mergeSizeLoop v qs ps (qs.length - 1) else mergeSizeLoop v ps qs (ps.length - 1)

/-- The loop of `mkElimClause`: the position of the last literal of `v`. -/
def vPos (v : Nat) : Clause → Nat → Nat → Nat
  | [], _, v_pos => v_pos
  | l :: c, i, v_pos => vPos v c (i + 1) (if l.natAbs = v then i else v_pos)

/-- `mkElimClause`: the literal of `v` changes places with the first one. -/
def mkElimClause (v : Nat) (c : Clause) : Clause :=
  let v_pos := vPos v c 0 0
  (c.set v_pos (c.getD 0 0)).set 0 (c.getD v_pos 0)

/-! ## The solver -/

/-- A clause; a removed one stays in `clauses` until garbage is collected. -/
structure Stored where
  lits : Clause
  removed : Bool := false
deriving DecidableEq, Repr

/-- The members of `SimpSolver` that the clauses depend on; all literals of the trail are at the top level. -/
structure SimpSolver where
  ok : Bool := true
  clauses : List Stored := []
  trail : List Int := []
  eliminated : Nat → Bool := fun _ => false
  elimclauses : List Clause := []

namespace SimpSolver

variable (s : SimpSolver)

/-- Some unit propagation, which may end with a conflict. New watches change the order of the literals in a
clause. -/
inductive Propagate : SimpSolver → SimpSolver → Prop
  | done {s : SimpSolver} : Propagate s s
  | watch {s s' : SimpSolver} {i : Nat} {c c' : Clause} (hc : s.clauses[i]? = some ⟨c, false⟩)
      (hperm : c'.Perm c) (h : Propagate { s with clauses := s.clauses.set i ⟨c', false⟩ } s') : Propagate s s'
  | unit {s s' : SimpSolver} {c : Clause} {l : Int} (hc : ⟨c, false⟩ ∈ s.clauses) (hl : l ∈ c)
      (hvalue : l ∉ s.trail ∧ -l ∉ s.trail) (hothers : ∀ m ∈ c, m ≠ l → -m ∈ s.trail)
      (h : Propagate { s with trail := s.trail ++ [l] } s') : Propagate s s'
  | conflict {s : SimpSolver} {c : Clause} (hc : ⟨c, false⟩ ∈ s.clauses) (hfalse : ∀ m ∈ c, -m ∈ s.trail) :
      Propagate s { s with ok := false }

/-- `addClause_` -/
inductive AddClause (ps : Clause) : SimpSolver → SimpSolver → Prop
  | notOk {s : SimpSolver} (hok : s.ok = false) : AddClause ps s s
  | satisfied {s : SimpSolver} (hok : s.ok = true) (h : reduce s.trail none (sort ps) = none) : AddClause ps s s
  | empty {s : SimpSolver} (hok : s.ok = true) (h : reduce s.trail none (sort ps) = some []) :
      AddClause ps s { s with ok := false }
  | unit {s s' : SimpSolver} {l : Int} (hok : s.ok = true) (h : reduce s.trail none (sort ps) = some [l])
      (hp : Propagate { s with trail := s.trail ++ [l] } s') : AddClause ps s s'
  | stored {s : SimpSolver} {a b : Int} {rest : Clause} (hok : s.ok = true)
      (h : reduce s.trail none (sort ps) = some (a :: b :: rest)) :
      AddClause ps s { s with clauses := s.clauses ++ [⟨a :: b :: rest, false⟩] }

/-- The calls of `addClause_` for several clauses; `minisatSimp::add` does not look at what it returns. -/
inductive Load : Cnf → SimpSolver → SimpSolver → Prop
  | nil {s : SimpSolver} : Load [] s s
  | cons {s s1 s' : SimpSolver} {c : Clause} {cs : Cnf} (h : AddClause c s s1) (hrest : Load cs s1 s') :
      Load (c :: cs) s s'

/-- `strengthenClause`: the clause at `i` loses `l`. A binary clause is removed, and its other literal
becomes a top-level one. -/
inductive StrengthenClause (i : Nat) (l : Int) : SimpSolver → SimpSolver → Prop
  | long {s : SimpSolver} {c : Clause} (hc : s.clauses[i]? = some ⟨c, false⟩) (hlen : c.length ≠ 2) :
      StrengthenClause i l s { s with clauses := s.clauses.set i ⟨c.erase l, false⟩ }
  | enqueue {s s' : SimpSolver} {c : Clause} {m : Int} (hc : s.clauses[i]? = some ⟨c, false⟩)
      (herase : c.erase l = [m]) (hvalue : m ∉ s.trail ∧ -m ∉ s.trail)
      (hp : Propagate { s with clauses := s.clauses.set i ⟨[m], true⟩, trail := s.trail ++ [m] } s') :
      StrengthenClause i l s s'
  | holds {s s' : SimpSolver} {c : Clause} {m : Int} (hc : s.clauses[i]? = some ⟨c, false⟩)
      (herase : c.erase l = [m]) (hvalue : m ∈ s.trail)
      (hp : Propagate { s with clauses := s.clauses.set i ⟨[m], true⟩ } s') : StrengthenClause i l s s'
  | fails {s : SimpSolver} {c : Clause} {m : Int} (hc : s.clauses[i]? = some ⟨c, false⟩)
      (herase : c.erase l = [m]) (hvalue : -m ∈ s.trail) :
      StrengthenClause i l s { s with ok := false, clauses := s.clauses.set i ⟨[m], true⟩ }

/-- What `backwardSubsumptionCheck` takes from its queue: the clause at `i`, or a literal of the trail. -/
inductive Queued (s : SimpSolver) : Option Nat → Clause → Prop
  | clause {i : Nat} {c : Clause} (h : s.clauses[i]? = some ⟨c, false⟩) : Queued s (some i) c
  | unit {l : Int} (h : l ∈ s.trail) : Queued s none [l]

/-- One candidate in `backwardSubsumptionCheck`; `subsumption_lim` is 1000. -/
inductive Subsume : SimpSolver → SimpSolver → Prop
  | remove {s : SimpSolver} {i : Option Nat} {j : Nat} {c d : Clause} (hc : Queued s i c)
      (hd : s.clauses[j]? = some ⟨d, false⟩) (hij : i ≠ some j) (hlim : d.length < 1000)
      (h : subsumes c d = .undef) : Subsume s { s with clauses := s.clauses.set j ⟨d, true⟩ }
  | strengthen {s s' : SimpSolver} {i : Option Nat} {j : Nat} {c d : Clause} {l : Int} (hc : Queued s i c)
      (hd : s.clauses[j]? = some ⟨d, false⟩) (hij : i ≠ some j) (hlim : d.length < 1000)
      (h : subsumes c d = .lit l) (hs : StrengthenClause j (-l) s s') : Subsume s s'

/-- The clause has the variable. -/
def HasVar (v : Nat) (c : Clause) : Prop := ∃ l ∈ c, l.natAbs = v

instance (v : Nat) (c : Clause) : Decidable (HasVar v c) :=
  inferInstanceAs (Decidable (∃ l ∈ c, l.natAbs = v))

/-- The clauses that are not removed. -/
def kept : Cnf := (s.clauses.filter fun c => !c.removed).map Stored.lits

/-- `occurs[v]` -/
def occurs (v : Nat) : Cnf := s.kept.filter fun c => decide (HasVar v c)

def pos (v : Nat) : Cnf := (s.occurs v).filter fun c => decide ((v : Int) ∈ c)

def neg (v : Nat) : Cnf := (s.occurs v).filter fun c => decide ((v : Int) ∉ c)

/-- The number of resolvents does not exceed that of the clauses, and none has more than `clause_lim`
literals. -/
def Worthwhile (v : Nat) : Prop :=
  let sizes := (s.pos v).flatMap fun c => (s.neg v).filterMap fun d => mergeSize c d v
  sizes.length ≤ (s.occurs v).length ∧ ∀ size ∈ sizes, size ≤ 20

/-- The first half of `eliminateVar`: the clauses of `v` are removed, and those of the rarer literal are kept
for `extendModel`. -/
def dropOccurs (v : Nat) : SimpSolver :=
  { s with
    eliminated := Function.update s.eliminated v true
    elimclauses := s.elimclauses ++
      if (s.neg v).length < (s.pos v).length then (s.neg v).map (mkElimClause v) ++ [[(v : Int)]]
      else (s.pos v).map (mkElimClause v) ++ [[-(v : Int)]]
    clauses := s.clauses.map fun c => if c.removed = false ∧ HasVar v c.lits then ⟨c.lits, true⟩ else c }

/-- The resolvents, in the order in which they are added. -/
def resolvents (v : Nat) : Cnf := (s.pos v).flatMap fun c => (s.neg v).filterMap fun d => merge c d v

/-- The second half of `eliminateVar`, which ends at a contradiction. -/
inductive AddAll : Cnf → SimpSolver → SimpSolver → Prop
  | nil {s : SimpSolver} : AddAll [] s s
  | cons {s s1 s' : SimpSolver} {c : Clause} {cs : Cnf} (h : AddClause c s s1) (hok : s1.ok = true)
      (hrest : AddAll cs s1 s') : AddAll (c :: cs) s s'
  | fail {s s1 : SimpSolver} {c : Clause} {cs : Cnf} (h : AddClause c s s1) (hok : s1.ok = false) :
      AddAll (c :: cs) s s1

/-- The steps of `eliminate`. -/
inductive Step (n : Nat) (frozen : List Nat) : SimpSolver → SimpSolver → Prop
  | propagate {s s' : SimpSolver} (hok : s.ok = true) (h : Propagate s s') : Step n frozen s s'
  | subsume {s s' : SimpSolver} (hok : s.ok = true) (h : Subsume s s') : Step n frozen s s'
  | eliminateVar {s s' : SimpSolver} {v : Nat} (hok : s.ok = true) (hv : 1 ≤ v ∧ v ≤ n) (hfrozen : v ∉ frozen)
      (helim : s.eliminated v = false) (hvalue : (v : Int) ∉ s.trail ∧ -(v : Int) ∉ s.trail)
      (hw : s.Worthwhile v) (h : AddAll (s.resolvents v) (s.dropOccurs v) s') : Step n frozen s s'
  | garbageCollect {s : SimpSolver} :
      Step n frozen s { s with clauses := s.clauses.filter fun c => !c.removed }

/-- A run of `eliminate` on the clauses `F`. -/
def Run (n : Nat) (frozen : List Nat) (F : Cnf) (s : SimpSolver) : Prop :=
  ∃ s0, Load F {} s0 ∧ Relation.ReflTransGen (Step n frozen) s0 s

/-- What `minisatSimp::simplify` exports: `clauses`, with the removed ones that are still there, and the
trail. -/
def cnf : Cnf := s.clauses.map Stored.lits ++ s.trail.map fun l => [l]

/-- `extendModel` -/
def extendModel (σ : Assignment) : Assignment := reconstruct s.elimclauses σ

end SimpSolver

end ModelChecker.Minisat
