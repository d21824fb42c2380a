import ModelChecker.Logic.Cnf
import ModelChecker.Logic.Ipasir
import ModelChecker.Logic.Interface
import ModelChecker.Logic.Gates
import ModelChecker.Logic.System
import ModelChecker.Logic.Ic3
import ModelChecker.Aig.Circuit
import ModelChecker.Aig.Format
import ModelChecker.Aig.Load
import ModelChecker.Aig.Lemmas.Scan
import ModelChecker.Aig.Lemmas.Contents
import ModelChecker.Aig.Lemmas.Write
import ModelChecker.Aig.Lemmas.Serialise
import ModelChecker.Aig.Codec
import ModelChecker.Aig.RoundTrip
import ModelChecker.Aig.Trailer
import ModelChecker.Aig.Bounds
import ModelChecker.Aig.Acceptance
import ModelChecker.Logic.Exec
import ModelChecker.Sat.Solver
import ModelChecker.Sat.Retirement
import ModelChecker.Sat.Wrappers
import ModelChecker.Pdr.Encode
import ModelChecker.Pdr.Lemmas.Primes
import ModelChecker.Pdr.Lemmas.Encode
import ModelChecker.Pdr.State
import ModelChecker.Pdr.Engine
import ModelChecker.Pdr.Output
import ModelChecker.Pdr.Check
import ModelChecker.Pdr.Lemmas.Cubes
import ModelChecker.Pdr.Lemmas.Simplified
import ModelChecker.Pdr.Invariant
import ModelChecker.Pdr.Lemmas.Solvers
import ModelChecker.Pdr.Lemmas.Runs
import ModelChecker.Pdr.Lemmas.Queries
import ModelChecker.Pdr.Lemmas.Models
import ModelChecker.Pdr.Lemmas.Lift
import ModelChecker.Pdr.Lemmas.Generalize
import ModelChecker.Pdr.Lemmas.Block
import ModelChecker.Pdr.Lemmas.Cex
import ModelChecker.Pdr.Lemmas.Propagate
import ModelChecker.Pdr.Lemmas.Check
import ModelChecker.Pdr.Lemmas.History
import ModelChecker.Pdr.Incremental
import ModelChecker.Pdr.Lemmas.Certificate
import ModelChecker.Pdr.Lemmas.Witness
import ModelChecker.Pdr.Theorems
import ModelChecker.Pdr.Lemmas.Tidy
import ModelChecker.Pdr.Subsumption
import ModelChecker.Bmc.Unfold
import ModelChecker.Bmc.Lemmas.Unfold
import ModelChecker.Bmc.Lemmas.Simulate
import ModelChecker.Bmc.Solve
import ModelChecker.Bmc.Lemmas.Frames
import ModelChecker.Bmc.Lemmas.Threads
import ModelChecker.Bmc.Theorems
import ModelChecker.Bmc.Hashing
import ModelChecker.Bmc.Indices
import ModelChecker.Bmc.Witness
import ModelChecker.Bmc.Cone
import ModelChecker.Pdr.Transition
import ModelChecker.Main.Verdict
import ModelChecker.Logic.Fuel
import ModelChecker.Pdr.Lemmas.Assert
import ModelChecker.Pdr.Lemmas.Adds
import ModelChecker.Pdr.Lemmas.Rounds
import ModelChecker.Pdr.Progress
import ModelChecker.Pdr.Lemmas.Stops
import ModelChecker.Pdr.Termination
import ModelChecker.Pdr.Assertion
import ModelChecker.Pdr.Generalisation
import ModelChecker.Pdr.Lifting
import ModelChecker.Pdr.Convergence
import ModelChecker.Pdr.Retirement
import ModelChecker.Logic.Oracle
import ModelChecker.Logic.Fair
import ModelChecker.Logic.Tickets
import ModelChecker.Pdr.Lemmas.Clock
import ModelChecker.Pdr.Completeness
import ModelChecker.Main.Session
import ModelChecker.Main.Liveness
import ModelChecker.Aig.Traces
import ModelChecker.Main.Options
import ModelChecker.Main.Certificate
import ModelChecker.Main.FindBug
import ModelChecker.Main.Program
import ModelChecker.Pdr.Reload
import ModelChecker.Logic.Resolution
import ModelChecker.Sat.Minisat
import ModelChecker.Sat.Lemmas.Clauses
import ModelChecker.Sat.Preprocess
import ModelChecker.Sat.Effort
import ModelChecker.Main.Replay
