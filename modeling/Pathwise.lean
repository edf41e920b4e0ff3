import Pathwise.Completion
import Pathwise.Exploration.Config
import Pathwise.Exploration.Step
import Pathwise.Exploration.Walk
import Pathwise.Exploration.Way
import Pathwise.Fault
import Pathwise.Json.Basic
import Pathwise.Json.Format
import Pathwise.Json.Parser
import Pathwise.Json.Token
import Pathwise.Program.Draft
import Pathwise.Program.Graph
import Pathwise.Program.Instruction
import Pathwise.Program.Liveness
import Pathwise.Program.Symbol
import Pathwise.Proofs.Alike.Ledger
import Pathwise.Proofs.Alike.Rule
import Pathwise.Proofs.Alike.Solver
import Pathwise.Proofs.Alike.State
import Pathwise.Proofs.Alike.Step
import Pathwise.Proofs.Alike.Transfer
import Pathwise.Proofs.Alike.Walk
import Pathwise.Proofs.Exploration.Branches
import Pathwise.Proofs.Exploration.Cancellation
import Pathwise.Proofs.Exploration.Changes
import Pathwise.Proofs.Exploration.Conditions
import Pathwise.Proofs.Exploration.ConstantConditions
import Pathwise.Proofs.Exploration.Coverage
import Pathwise.Proofs.Exploration.DeadBindings
import Pathwise.Proofs.Exploration.Defects
import Pathwise.Proofs.Exploration.Edits
import Pathwise.Proofs.Exploration.Faults
import Pathwise.Proofs.Exploration.Locks
import Pathwise.Proofs.Exploration.Observed
import Pathwise.Proofs.Exploration.Run
import Pathwise.Proofs.Exploration.StackSafety
import Pathwise.Proofs.Exploration.Step
import Pathwise.Proofs.Exploration.Termination
import Pathwise.Proofs.Exploration.Truncation
import Pathwise.Proofs.Exploration.Visits
import Pathwise.Proofs.Exploration.WellFormed
import Pathwise.Proofs.Exploration.Worklist
import Pathwise.Proofs.Program.Closed
import Pathwise.Proofs.Program.Construction
import Pathwise.Proofs.Program.LivePaths
import Pathwise.Proofs.Program.Liveness
import Pathwise.Proofs.Program.Sweeps
import Pathwise.Proofs.Rule.Frame
import Pathwise.Proofs.Rule.Ledger
import Pathwise.Proofs.Rule.Locks
import Pathwise.Proofs.Rule.Log
import Pathwise.Proofs.Rule.Observed
import Pathwise.Proofs.Rule.Producers
import Pathwise.Proofs.Rule.Receivers
import Pathwise.Proofs.Solver.Alternatives
import Pathwise.Proofs.Solver.Denial
import Pathwise.Proofs.Solver.Exactness
import Pathwise.Proofs.Solver.Explicit
import Pathwise.Proofs.Solver.Narrowing
import Pathwise.Proofs.Solver.Valuation
import Pathwise.Proofs.State.Garbage
import Pathwise.Proofs.State.Recording
import Pathwise.Proofs.Transfer.Agreement
import Pathwise.Proofs.Transfer.Changes
import Pathwise.Proofs.Transfer.Edits
import Pathwise.Proofs.Transfer.Effect
import Pathwise.Proofs.Transfer.Facts
import Pathwise.Proofs.Transfer.Folding
import Pathwise.Proofs.Transfer.Frame
import Pathwise.Proofs.Transfer.Locks
import Pathwise.Proofs.Transfer.Members
import Pathwise.Proofs.Transfer.Operands
import Pathwise.Proofs.Transfer.Receivers
import Pathwise.Report
import Pathwise.Rule.Basic
import Pathwise.Rule.DisposedTwice
import Pathwise.Rule.EmptyCollection
import Pathwise.Rule.Finding
import Pathwise.Rule.Ledger
import Pathwise.Rule.LockRelease
import Pathwise.Rule.NullAccess
import Pathwise.Rule.Observation
import Pathwise.Rule.Site
import Pathwise.Session
import Pathwise.Symbolic.Constraint
import Pathwise.Symbolic.Constraint.Lemmas
import Pathwise.Symbolic.Solver
import Pathwise.Symbolic.State
import Pathwise.Symbolic.State.Lemmas
import Pathwise.Symbolic.Supply
import Pathwise.Symbolic.Value
import Pathwise.Symbolic.Value.Order
import Pathwise.Text.Blank
import Pathwise.Transfer.Call
import Pathwise.Transfer.Folding
import Pathwise.Transfer.Visit
