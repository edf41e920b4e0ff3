import Pathwise.Program.Graph
import Pathwise.Symbolic.Solver

/-!
The ways out of a branch. A branch takes the tested value from the stack and goes on to one of two
blocks. Each way asks something of the value, may bind it to variables, and may leave something on
the stack in its place. What the ways of a branch are is decided by its kind alone.
-/

namespace Pathwise

/-- What a way asks of the tested value. -/
inductive Guard where
  | nothing
  /-- The fact holds. It is known from there on. -/
  | holds (c : Constraint)
  /-- The fact is not known so far. Nothing is learned from that. -/
  | notKnown (c : Constraint)

/-- The states in which the tested value is as asked for. -/
def Guard.admitted (solver : Solver) (v : Value) (s : State) : Guard → List State
  | .nothing => [s]
  | .holds c => solver.assume s v c
  | .notKnown c => if s.has v c then [] else [s]

/-- What takes the place of the tested value on the stack. -/
inductive Residue where
  | nothing
  | tested
  | constant (c : Constant)

namespace Residue

/-- Leaves the residue on the stack. -/
def leave (v : Value) (s : State) : Residue → State
  | .nothing => s
  | .tested => s.push v
  | .constant c => s.push (.constant c)

/-- The residue, if the branch is to push its result. -/
def given (pushResult : Bool) (residue : Residue) : Residue :=
  if pushResult then residue else .nothing

end Residue

/-- One way out of a branch. -/
structure Way where
  target : BlockId
  /-- Does the test succeed on this way? -/
  outcome : Bool
  guard : Guard
  /-- The variables that are bound to the tested value. -/
  bound : Designation
  residue : Residue

/-- The ways out of a branch that asks for one fact on each of them. -/
def Way.fork (onTrue onFalse : BlockId) (success failure : Constraint × Residue) : List Way :=
  [⟨onTrue, true, .holds success.1, .none, success.2⟩,
   ⟨onFalse, false, .holds failure.1, .none, failure.2⟩]

/-- The ways out of a case label. Past the label the tested value stays on the stack, for the labels
that follow. -/
def Pattern.ways (onTrue onFalse : BlockId) : Pattern → List Way
  | .null => Way.fork onTrue onFalse (.null, .nothing) (.notNull, .tested)
  | .type _ designation =>
    [⟨onTrue, true, .holds .notNull, designation, .nothing⟩,
     ⟨onFalse, false, .nothing, .none, .tested⟩]
  | .var designation => [⟨onTrue, true, .nothing, designation, .nothing⟩]
  | .discard => [⟨onTrue, true, .nothing, .none, .nothing⟩]
  | .constant =>
    [⟨onTrue, true, .holds .notNull, .none, .nothing⟩, ⟨onFalse, false, .nothing, .none, .tested⟩]

/-- The ways out of a branch, in order. Short-circuit operators push their result on the way on
which it is decided. -/
def BranchKind.ways (onTrue onFalse : BlockId) : BranchKind → List Way
  | .condition | .catchFilter =>
    Way.fork onTrue onFalse (.bool true, .nothing) (.bool false, .nothing)
  | .logicalAnd pushResult =>
    Way.fork onTrue onFalse (.bool true, .nothing) (.bool false, .given pushResult (.constant .no))
  | .logicalOr pushResult =>
    Way.fork onTrue onFalse (.bool true, .given pushResult (.constant .yes)) (.bool false, .nothing)
  | .coalesce pushResult =>
    Way.fork onTrue onFalse (.null, .nothing) (.notNull, .given pushResult .tested)
  | .conditionalAccess pushResult =>
    Way.fork onTrue onFalse (.null, .given pushResult (.constant .null)) (.notNull, .tested)
  | .caseLabel pattern => pattern.ways onTrue onFalse
  | .forEach =>
    [⟨onTrue, true, .notKnown .emptyCollection, .none, .nothing⟩,
     ⟨onFalse, false, .nothing, .none, .nothing⟩]

end Pathwise
