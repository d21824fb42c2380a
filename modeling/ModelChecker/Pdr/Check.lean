import ModelChecker.Pdr.Engine
import ModelChecker.Pdr.Output

/-!
# The main loop of `PDR`

Blocking of obligations, propagation with the fixpoint test, the two bounded checks at the start and
`check` itself.
-/

namespace ModelChecker

open Logic

variable (env : PdrEnv)

/-! ## Blocking -/

/-- The states from `cex_state_idx` on, along `next`. -/
def log_witness : (fuel : Nat) → Option Nat → PdrM Unit
  | 0, _ => Exec.throw .fuel
  | _ + 1, none => pure ()
  | fuel + 1, some s => do
      let p ← getP
      modifyP fun p => { p with cex_states := p.cex_states ++ [p.state s] }
      log_witness fuel (p.state s).next

/-- `use_punishment`: the successor of a state that was hard to block. -/
def punish (tmp_core : Cube) (st : State) : State :=
  { st with failed := st.failed +
      if tmp_core.length > 30 then 5 else if tmp_core.length > 20 then 3
      else if tmp_core.length > 10 then 1 else 0 }

def PDR.onNext (p : PDR) (s : Nat) (f : State → State) : PDR :=
  match (p.state s).next with
  | some t => p.setState t f
  | none => p

def eraseObligation : PdrM Unit := do
  modifyP fun p => p.setQueue p.obligation_queue.tail
  record

def insertObligation (o : Obligation) : PdrM Unit := do
  modifyP fun p => p.setQueue (setInsert Obligation.lt o p.obligation_queue)
  record

/-- `pushpo`: whether the obligation is to be blocked at level `k` as well. -/
def pushObligation (obl : Obligation) (k : Nat) : PdrM Bool := do
  let p ← getP
  let found := blockedBy (p.state obl.state).latches (p.frame k).cubes
  modifyP fun p => { p with nkobl := if found then p.nkobl + 1 else p.nkobl }
  pure (found || !env.use_pr)

/-- The obligation's cube is inductive relative to its level. -/
def blockObligation (fuel : Nat) (obl : Obligation) : PdrM Unit := do
  Exec.modify fun r => r.block (r.pdr.state obl.state).latches
  eraseObligation
  modifyP fun p => { p with tmp_core := p.core }
  generalize env fuel obl.frame_k
  modifyP fun p => p.onNext obl.state (punish p.tmp_core)
  let p ← getP
  let k ← pushLevel env p.tmp_core (p.depth - obl.frame_k) (obl.frame_k + 1)
  let pushpo ← pushObligation env obl k
  add_cube .tmp_core k true false
  if k ≤ p.depth ∧ pushpo then insertObligation ⟨obl.state, k, obl.depth⟩

/-- The obligation's cube has a predecessor in the model of the last query; `false` when the
predecessor is initial. -/
def expandObligation (fuel : Nat) (obl : Obligation) : PdrM Bool := do
  let p ← getP
  let st := p.state obl.state
  if st.failed_depth ≠ 0 ∧ st.failed_depth ≤ obl.depth + obl.frame_k then do
    eraseObligation
    modifyP fun p => p.onNext obl.state fun t => { t with failed_depth := st.failed_depth }
    pure true
  else if st.failed ≥ 5 ∧ obl.depth + obl.frame_k > p.depth then do
    eraseObligation
    modifyP fun p => p.setState obl.state fun t => { t with failed_depth := obl.depth + obl.frame_k }
    modifyP fun p => p.onNext obl.state fun t => { t with failed_depth := obl.depth + obl.frame_k }
    pure true
  else if obl.frame_k = 0 then do
    let s ← newState { modelState p.circuit (p.frame 0).solver with next := some obl.state }
    modifyP fun p => { p with cex_state_idx := some s, find_cex := true }
    log_witness fuel (some s)
    pure false
  else do
    let s ← newState {}
    extract_state_from_sat env obl.frame_k s (some obl.state) obl.frame_k
    insertObligation ⟨s, obl.frame_k - 1, obl.depth + 1⟩
    pure true

/-- `false` when a counterexample was found. -/
def rec_block_cube : (fuel : Nat) → PdrM Bool
  | 0 => Exec.throw .fuel
  | fuel + 1 => do
      let p ← getP
      match p.obligation_queue with
      | [] => pure true
      | obl :: _ => do
          let R ← readRESULT env
          if R ≠ 0 then pure true
          else do
            let b ← is_inductive env obl.frame_k (p.state obl.state).latches true
            if b then do
              blockObligation env fuel obl
              rec_block_cube fuel
            else do
              let go ← expandObligation env fuel obl
              if go then rec_block_cube fuel else pure false

/-! ## Propagation -/

def propagateCube (i : Nat) (ci : Cube) : PdrM Unit := do
  let b ← is_inductive env i ci true
  if b then do
    let p ← getP
    add_cube .core (i + 1) (decide (p.core.length < ci.length)) true
    modifyP fun p => p.setCubes i ((p.frame i).cubes.erase ci)
    record

/-- The cubes of `frames[i + 1]` from which the certificate is built. -/
def PDR.certCubes (p : PDR) (i : Nat) : List Cube :=
  let ins := fun cs c => setInsert Cube_CMP c cs
  let cubes := ([p.circuit.bad] :: p.circuit.constraints.map fun l => [-l]).foldl ins
    (p.frame (i + 1)).cubes
  ((List.range (p.depth - i)).flatMap fun d => (p.frame (i + 2 + d)).cubes).foldl ins cubes

/-- Level `i` is empty. -/
def fixpointFound (i : Nat) : PdrM Unit := do
  let R ← readRESULT env
  Exec.modify fun r => { r with fixpoint := some ⟨i, r.pdr,
    if R = 0 ∧ env.output_certificate then some (r.pdr.circuit.certify (r.pdr.certCubes i)).show_aag
    else none⟩ }

/-- The levels `i, …, i + n - 1`. -/
def propagateLevels : (n i : Nat) → PdrM Bool
  | 0, _ => pure false
  | n + 1, i => do
      let p ← getP
      Exec.forEach (p.frame i).cubes (propagateCube env i)
      let p ← getP
      if (p.frame i).cubes.length = 0 then do
        fixpointFound env i
        pure true
      else propagateLevels n (i + 1)

/-- The first level `propagate` looks at. -/
def PDR.start_k (p : PDR) : Nat :=
  if p.top_frame_cannot_reach_bad then p.depth
  else if p.depth % 5 ≠ 0 ∧ p.depth > 20 then p.earliest_strengthened_frame
  else 1

def propagate : PdrM Bool := do
  let p ← getP
  propagateLevels env (p.depth + 1 - p.start_k) p.start_k

/-! ## Check -/

/-- The frame of the initial states. -/
def firstFrame : PdrM Unit := do
  new_frame env
  modifyP fun p => p.setSolver 0 ((p.frame 0).solver.addAll p.circuit.encode_init_condition)
  record

/-- SAT?[I ∧ Bad]; the first frame is pushed when there is no counterexample. -/
def check_BMC0 : PdrM Bool := do
  let p ← getP
  let A := p.circuit
  let sat0 := ((({} : CaDiCaL).addAll A.encode_init_condition).addAll A.encode_bad_state).assume A.bad
  let a ← ask env sat0.query
  if a.isSat then do
    modifyP fun p => { p with
      find_cex := true
      cex_states := p.cex_states ++ [modelState A (sat0.solved a)] }
    pure false
  else do
    firstFrame env
    pure true

/-- SAT?[I ∧ T ∧ Bad']. -/
def check_BMC1 : PdrM Bool := do
  let p ← getP
  let A := p.circuit
  let sat1 ← encode_translation env (({} : CaDiCaL).addAll A.encode_init_condition)
  let p ← getP
  let sat1 := (sat1.addAll (p.constraints_prime.map fun l => [l])).assume p.bad_prime
  let a ← ask env sat1.query
  if a.isSat then do
    modifyP fun p => { p with
      find_cex := true
      cex_states := p.cex_states ++ [modelState A (sat1.solved a), modelState' A (sat1.solved a)] }
    pure false
  else do
    new_frame env
    record
    pure true

/-- `RESULT` is set and the witness printed, unless another thread was first. -/
def reportCex : PdrM Unit := do
  let R ← readRESULT env
  Exec.modify fun r => { r with
    witness := if R = 0 ∧ env.output_witness then some (r.pdr.circuit.show_witness r.pdr.cex_states)
      else none }

/-- A new top frame, which starts without lemmas. -/
def pushFrame : PdrM Unit := do
  new_frame env
  modifyP fun p => { p with
    top_frame_cannot_reach_bad := true
    earliest_strengthened_frame := p.depth }
  record

def mainLoop : (fuel : Nat) → PdrM Int
  | 0 => Exec.throw .fuel
  | fuel + 1 => do
      let R ← readRESULT env
      if R ≠ 0 then pure 0
      else do
        let s ← newState {}
        let flag ← get_pre_of_bad env s
        if flag then do
          modifyP fun p => { p.setQueue [⟨s, p.depth - 1, 1⟩] with top_frame_cannot_reach_bad := false }
          record
          let b ← rec_block_cube env fuel
          if b then mainLoop fuel
          else do
            reportCex env
            pure 10
        else do
          let p ← getP
          if p.obligation_queue.length ≠ 0 then Exec.throw .obligations
          else do
            let b ← propagate env
            if b then pure 20
            else do
              pushFrame env
              mainLoop fuel

/-- `initialize`: the primed circuit. -/
def initializePdr : PdrM Unit :=
  modifyP fun p => { p with
    bad_prime := p.circuit.translate_to_prime.1
    constraints_prime := p.circuit.translate_to_prime.2.1
    primes := p.circuit.translate_to_prime.2.2 }

def check (fuel : Nat) : PdrM Int := do
  initializePdr
  let b ← check_BMC0 env
  if !b then do
    reportCex env
    pure 10
  else do
    let b ← check_BMC1 env
    if !b then do
      reportCex env
      pure 10
    else do
      pushFrame env
      mainLoop env fuel

/-- A run of `check` on a circuit. -/
def runCheck (A : Circuit) (fuel : Nat) : Except Stop Int × Run :=
  check env fuel { pdr := { circuit := A.toAiger } }

end ModelChecker
