import ModelChecker.Pdr.State

/-!
# The operations of `PDR`

One definition for each member function, in the order of `PDR.cpp`. Loops without an obvious bound take
a fuel argument and stop with `Stop.fuel` when it is spent.
-/

namespace ModelChecker

open Logic

variable (env : PdrEnv)

/-! ## Solvers -/

/-- Minisat is filled and simplified by the first call of `encode_translation`. -/
def PDR.fillSatelite (E : Eliminator) (p : PDR) : PDR :=
  match p.satelite with
  | some _ => p
  | none => { p with
      satelite := some ((p.circuit.minisat true p.bad_prime p.constraints_prime p.primes).simplify E)
      satelite_unsat := p.circuit.satelite_unsat
      primes := (p.circuit.transition true p.primes).2 }

def PDR.addSatelite (p : PDR) (s : CaDiCaL) : CaDiCaL :=
  let s := s.addAll (p.satelite.getD [])
  if p.satelite_unsat then s.addClause [1] else s

def encode_translation (s : CaDiCaL) : PdrM CaDiCaL := do
  modifyP (·.fillSatelite env.minisat)
  let p ← getP
  pure (p.addSatelite s)

def PDR.fillSatelite2 (E : Eliminator) (p : PDR) : PDR :=
  match p.satelite2 with
  | some _ => p
  | none => { p with
      satelite2 := some ((p.circuit.minisat false p.bad_prime p.constraints_prime p.primes).simplify E)
      primes := (p.circuit.transition false p.primes).2 }

def encode_lift (s : CaDiCaL) : PdrM CaDiCaL := do
  modifyP (·.fillSatelite2 env.minisat)
  let p ← getP
  pure (s.addAll (p.satelite2.getD []))

def new_frame : PdrM Unit := do
  let s ← encode_translation env {}
  modifyP fun p => p.setFrames
    (p.frames ++ [⟨[], s.addAll (p.constraints_prime.map fun l => [l])⟩])

/-- The frames after `cube` was stored at level `k`: its negation goes to the solver of level `k`, with
`to_all` also to those of the levels `1, …, k - 1`. -/
def insertCube (frames : List Frame) (cube : Cube) (k : Nat) (to_all : Bool) : List Frame :=
  frames.mapIdx fun i f =>
    if i = k then
      ⟨setInsert Cube_CMP cube f.cubes, f.solver.addClause (negCube cube)⟩
    else if to_all = true ∧ 1 ≤ i ∧ i < k then { f with solver := f.solver.addClause (negCube cube) }
    else f

/-- `add_cube` sorts the caller's cube and stores it unless it is there already. -/
def PDR.add_cube (p : PDR) (v : CubeVar) (k : Nat) (to_all ispropagate : Bool) : PDR :=
  let p := if ispropagate then p else
    { p with earliest_strengthened_frame := min p.earliest_strengthened_frame k }
  let cube := sortLits (p.cube v)
  let p := p.setCube v cube
  if cube ∈ (p.frame k).cubes then p
  else p.setFrames (insertCube p.frames cube k to_all)

def add_cube (v : CubeVar) (k : Nat) (to_all ispropagate : Bool) : PdrM Unit := do
  modifyP (·.add_cube v k to_all ispropagate)
  record

/-- The solver of `is_init`, created on first use, with the cube assumed. -/
def PDR.initQuery (p : PDR) (latches : Cube) : CaDiCaL :=
  (p.init.getD (({} : CaDiCaL).addAll p.circuit.encode_init_condition)).assumeAll latches

def Logic.Answer.isSat : Answer → Bool
  | .sat _ => true
  | .unsat _ => false

/-- The last call of `solve` returned `SAT`. -/
def CaDiCaL.isSat (s : CaDiCaL) : Bool :=
  match s.answer with
  | some (.sat _) => true
  | _ => false

def is_init (latches : Cube) : PdrM Bool := do
  let p ← getP
  let a ← ask env (p.initQuery latches).query
  modifyP fun p => { p with init := some ((p.initQuery latches).solved a) }
  pure (a.isSat)

/-- The query of `is_inductive`: `-act ∨ -latches`, with `act` and the primed latches assumed in the
order `sorted`. Copies of latches are fixed variables, so `prime_lit` allocates nothing here. -/
def PDR.inductiveQuery (p : PDR) (k : Nat) (latches sorted : Cube) : CaDiCaL :=
  let solver := SATSolver.clear_act (p.frame k).solver
  let act : Int := (solver.max_var : Int) + 1
  let solver := solver.addClause (-act :: negCube latches)
  (solver.assume act).assumeAll (sorted.map fun i => (p.circuit.prime_lit p.primes i).1)

/-- The literals of the cube whose primed copies are in the core. -/
def PDR.failedCore (p : PDR) (solver : CaDiCaL) (latches : Cube) : Cube :=
  latches.filter fun i => solver.failed (p.circuit.prime_lit p.primes i).1

/-- The solver of level `k` after the query. -/
def askInductive (k : Nat) (latches : Cube) : PdrM CaDiCaL := do
  let sorted ← reorder env latches
  let p ← getP
  let query := p.inductiveQuery k latches sorted
  let a ← ask env query.query
  let solver := SATSolver.set_clear_act (query.solved a)
  modifyP fun p => p.setSolver k solver
  record
  pure solver

/-- The failed part of the cube becomes `core`, unless it holds an initial state. -/
def takeCore (solver : CaDiCaL) (latches : Cube) : PdrM Unit := do
  modifyP fun p => { p with core := p.failedCore solver latches }
  let p ← getP
  let b ← is_init env p.core
  if b then modifyP fun p => { p with core := latches }

def is_inductive (k : Nat) (latches : Cube) (gen_core : Bool) : PdrM Bool := do
  let solver ← askInductive env k latches
  if solver.isSat then pure false
  else do
    if gen_core then takeCore env solver latches
    pure true

/-! ## Predecessors -/

/-- The values `val` gives for the variables `first, …, first + n - 1`, without the open ones. -/
def modelLits (sat : CaDiCaL) (first n : Nat) : List Int :=
  ((List.range n).map fun i => sat.val (first + i : Nat)).filter (· ≠ 0)

/-- A primed literal of an input or latch, moved back to the unprimed variable. -/
def unprimeLit (A : Aiger) (l : Int) : Int :=
  if 0 < l then l - (A.primed_first_dimacs - 2 : Int) else l + (A.primed_first_dimacs - 2 : Int)

/-- The inputs and latches of a model, and those of its second time step. -/
def modelState (A : Aiger) (sat : CaDiCaL) : State where
  inputs := modelLits sat 2 A.num_inputs
  latches := modelLits sat (2 + A.num_inputs) A.num_latches

def modelState' (A : Aiger) (sat : CaDiCaL) : State where
  inputs := (modelLits sat A.primed_first_dimacs A.num_inputs).map (unprimeLit A)
  latches := (modelLits sat (A.primed_first_dimacs + A.num_inputs) A.num_latches).map (unprimeLit A)

/-- The clause of the lift query without its activation literal. -/
def PDR.liftClause (p : PDR) (succ : Option Nat) : Clause :=
  negCube p.circuit.constraints ++ negCube p.constraints_prime ++
    match succ with
    | none => [-p.bad_prime]
    | some t => (p.state t).latches.map fun l => (p.circuit.prime_lit p.primes (-l)).1

/-- The lift query: the activation clause, with the inputs, the primed inputs and the latches of the
model assumed (the latches in the order `sorted`). -/
def PDR.liftQuery (p : PDR) (lift : CaDiCaL) (succ : Option Nat) (ins sorted : List Int) : CaDiCaL :=
  let act_var : Int := (lift.max_var : Int) + 1
  ((lift.addClause (-act_var :: p.liftClause succ)).assume act_var).assumeAll (ins ++ sorted)

/-- `lift`, created on first use and with the last activation variable cleared. -/
def loadLift : PdrM CaDiCaL := do
  let p ← getP
  match p.lift with
  | some l => pure l.clear_act
  | none => do
      let l ← encode_lift env {}
      pure l.clear_act

/-- The lift query for the model of the last query of frame `k`: the solver after it, and the inputs
of the model with the latches that failed. -/
def askLift (k : Nat) (succ : Option Nat) : PdrM (CaDiCaL × State) := do
  let lift ← loadLift env
  let p ← getP
  let sat := (p.frame k).solver
  let m := modelState p.circuit sat
  let pipts := modelLits sat p.circuit.primed_first_dimacs p.circuit.num_inputs
  let sorted ← reorder env m.latches
  let query := p.liftQuery lift succ (m.inputs ++ pipts) sorted
  let a ← ask env query.query
  if a.isSat then Exec.throw .assertion  -- assert(res == UNSAT)
  else pure (query.solved a, { m with latches := m.latches.filter (query.solved a).failed })

/-- `s` is cleared and filled with the lifted state. -/
def PDR.fillState (p : PDR) (s : Nat) (st : State) (succ : Option Nat) (lift : CaDiCaL) (findex : Nat) :
    PDR :=
  let cpo := decide (findex ≠ 0) && blockedBy st.latches (p.frame (findex - 1)).cubes
  { p.setState s fun t => { t with latches := st.latches, inputs := st.inputs, next := succ } with
    lift := some lift.set_clear_act
    nkCore := if cpo then p.nkCore + 1 else p.nkCore }

def extract_state_from_sat (k s : Nat) (succ : Option Nat) (findex : Nat) : PdrM Unit := do
  let (lift, st) ← askLift env k succ
  modifyP fun p => p.fillState s st succ lift findex
  record

/-- SAT?[Fk ∧ T ∧ Bad'] at the level below the top: the solver after the query. -/
def askBad : PdrM CaDiCaL := do
  let p ← getP
  let query := (p.frame p.depth).solver.assume p.bad_prime
  let a ← ask env query.query
  modifyP fun p => p.setSolver p.depth (query.solved a)
  record
  pure (query.solved a)

/-- `get_pre_of_bad` on the state object `s`. -/
def get_pre_of_bad (s : Nat) : PdrM Bool := do
  modifyP fun p => p.setState s State.clear
  let solver ← askBad env
  if solver.isSat then do
    let p ← getP
    let bad_state ← newState (modelState' p.circuit solver)
    extract_state_from_sat env p.depth s none p.depth
    modifyP fun p => p.setState s fun st => { st with next := some bad_state }
    pure true
  else pure false

/-! ## Generalisation -/

def option_ctg_tries : Nat := 3

def option_ctg_max_depth : Nat := 1

def option_max_joins : Nat := 2 ^ 20

/-- The first of the levels `k, …, k + n - 1` at which the cube is not inductive, else `k + n`. -/
def pushLevel (c : Cube) : (n k : Nat) → PdrM Nat
  | 0, k => pure k
  | n + 1, k => do
      let b ← is_inductive env k c false
      if b then pushLevel c n (k + 1) else pure k

/-- The guard under which `CTG_down` blocks the counterexample to generalisation; the calls are made
in this order and stop at the first that fails. -/
def ctgBlocked (ctg_ct k : Nat) (cti : Cube) : PdrM Bool :=
  if ctg_ct < option_ctg_tries ∧ k > 1 then do
    let b ← is_init env cti
    if b then pure false else is_inductive env (k - 1) cti true
  else pure false

/-- The join of `cube` with a counterexample, and whether a required literal would be lost; the part
collected so far stays in `cube`. -/
def joinCube (s_cti required : Cube) : Cube → Cube × Bool
  | [] => ([], false)
  | i :: rest =>
    if i ∈ s_cti then
      let (join, breaked) := joinCube s_cti required rest
      (i :: join, breaked)
    else if i ∈ required then ([], true)
    else joinCube s_cti required rest

mutual

/-- `mic` minimises the cube held in `v` relative to level `k`. -/
def mic (fuel : Nat) (v : CubeVar) (k depth : Nat) : PdrM Unit :=
  match fuel with
  | 0 => Exec.throw .fuel
  | fuel + 1 => do
      let p ← getP
      let tmp_cube ← reorder env (sortLits (p.cube v))
      modifyP fun p => p.setCube v tmp_cube
      micLoop fuel v k depth tmp_cube [] 0

/-- The loop of `mic` over the literals of `tmp_cube` that are left. -/
def micLoop (fuel : Nat) (v : CubeVar) (k depth : Nat) (tmp_cube required : Cube) (mic_failed : Nat) :
    PdrM Unit :=
  match fuel with
  | 0 => Exec.throw .fuel
  | fuel + 1 =>
    match tmp_cube with
    | [] => pure ()
    | l :: rest => do
        let p ← getP
        if l ∉ p.cube v then micLoop fuel v k depth rest required 0
        else do
          let (b, cand) ← CTG_down fuel ((p.cube v).filter (· ≠ l)) k depth required 0 0
          if b then do
            modifyP fun p => p.setCube v cand
            micLoop fuel v k depth rest required 0
          else if mic_failed + 1 > option_ctg_tries then pure ()
          else micLoop fuel v k depth rest (l :: required) (mic_failed + 1)

/-- One round of `CTG_down` after another; the result is the returned flag and the cube. -/
def CTG_down (fuel : Nat) (cube : Cube) (k rec_depth : Nat) (required : Cube)
    (ctg_ct join_ct : Nat) : PdrM (Bool × Cube) :=
  match fuel with
  | 0 => Exec.throw .fuel
  | fuel + 1 => do
      let b ← is_init env cube
      if b then pure (false, cube)
      else do
        let b ← is_inductive env k cube true
        if b then do
          let p ← getP
          pure (true, if p.core.length < cube.length then p.core else cube)
        else if rec_depth > option_ctg_max_depth then pure (false, cube)
        else do
          let s ← newState {}
          let succ ← newState { latches := cube }
          extract_state_from_sat env k s (some succ) k
          let p ← getP
          let cti := (p.state s).latches
          let ctg ← ctgBlocked env ctg_ct k cti
          if ctg then do
            let p ← getP
            let i ← pushLevel env p.core (p.depth + 1 - k) k
            mic fuel .core (i - 1) (rec_depth + 1)
            add_cube .core i true false
            CTG_down fuel cube k rec_depth required (ctg_ct + 1) join_ct
          else if join_ct < option_max_joins then
            let (join, breaked) := joinCube cti required cube
            if breaked then pure (false, join)
            else CTG_down fuel join k rec_depth required 0 (join_ct + 1)
          else pure (false, cube)

end

def generalize (fuel : Nat) (k : Nat) : PdrM Unit := mic env fuel .tmp_core k 1

end ModelChecker
