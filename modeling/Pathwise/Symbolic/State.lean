import Pathwise.Fault
import Pathwise.Symbolic.Constraint
import Pathwise.Symbolic.Value.Order

/-!
The state of a path: the operand stack, the values that symbols hold, and the facts known about
values. The state also counts how often its path has come by each program point. The counts only
limit how far loops are followed: two states are the same state if they agree on everything else.

The stack lists its top first, and depths are counted from the top.
-/

namespace Pathwise

/-- The state of a path. -/
structure State where
  stack : List Value
  bindings : Std.ExtTreeMap SymbolId Value
  /-- The facts about each value; a value without an entry is unconstrained. -/
  facts : Std.ExtTreeMap Value Facts
  /-- How often the path has come by each program point. -/
  visits : Std.ExtTreeMap ProgramPoint Nat

namespace State

/-- What holds of the constants from the start. -/
def constantFacts : List (Value × Facts) :=
  let known (object : Nullness) (bool : Option Bool) : Facts :=
    { Facts.nothing with object := object, bool := bool }
  [(.yes, known .notNull true), (.no, known .notNull false), (.null, known .null none),
   (.self, known .notNull none)]

/-- The state in which nothing has happened: only the constants are known. -/
def initial : State := ⟨[], ∅, .ofList constantFacts, ∅⟩

/-- Are the two the same state, apart from where their paths have been? -/
def same (a b : State) : Bool :=
  a.stack == b.stack && a.bindings == b.bindings && a.facts == b.facts

/-! ### The operand stack -/

def push (s : State) (v : Value) : State := { s with stack := v :: s.stack }

/-- The value at a depth. -/
def peek (s : State) (depth : Nat) : Except Fault Value :=
  match s.stack[depth]? with
  | some v => .ok v
  | none => .error (.noSuchStackFrame depth)

/-- Takes the top value. -/
def pop (s : State) : Except Fault (State × Value) :=
  match s.stack with
  | v :: rest => .ok ({ s with stack := rest }, v)
  | [] => .error (.noSuchStackFrame 0)

/-- Takes the top values, listed in the order in which they were pushed. -/
def popMany (s : State) (count : Nat) : Except Fault (State × List Value) :=
  if s.stack.length < count then .error (.noSuchStackFrame (count - 1))
  else .ok ({ s with stack := s.stack.drop count }, (s.stack.take count).reverse)

/-! ### Bindings -/

/-- The value that a symbol holds, if it is known. -/
def lookup (s : State) (id : SymbolId) : Option Value := s.bindings[id]?

/-- Lets a symbol hold a value. -/
def assign (s : State) (id : SymbolId) (v : Value) : State :=
  { s with bindings := s.bindings.insert id v }

/-- Forgets what a symbol holds. -/
def unbind (s : State) (id : SymbolId) : State := { s with bindings := s.bindings.erase id }

/-- Forgets what symbols hold wherever the test succeeds. -/
def unbindWhere (s : State) (test : SymbolId → Value → Bool) : State :=
  { s with bindings := s.bindings.filter fun id v => !test id v }

/-- The symbols that hold a value, ascending. -/
def symbolsBoundTo (s : State) (v : Value) : List SymbolId :=
  (s.bindings.toList.filter fun entry => entry.2 = v).map Prod.fst

/-! ### Facts -/

/-- What is known about a value. -/
def factsOf (s : State) (v : Value) : Facts := s.facts.getD v .nothing

/-- The fact about a value in a domain, if there is one. -/
def factIn (s : State) (v : Value) (d : Domain) : Option Constraint := (s.factsOf v).get? d

/-- Is the fact known about the value? -/
def has (s : State) (v : Value) (c : Constraint) : Bool := (s.factsOf v).implies c

/-- Records a fact about a value, and about no other. There is no such state if what is known
about the value contradicts the fact. -/
def record? (s : State) (v : Value) (c : Constraint) : Option State :=
  ((s.factsOf v).add? c).map fun facts => { s with facts := s.facts.insert v facts }

/-- Forgets the fact about a value in one domain. -/
def forgetIn (s : State) (v : Value) (d : Domain) : State :=
  let left := (s.factsOf v).without d
  { s with facts := if left.isEmpty then s.facts.erase v else s.facts.insert v left }

/-- Forgets everything about a value. -/
def forget (s : State) (v : Value) : State := { s with facts := s.facts.erase v }

/-! ### Garbage -/

/-- Adds the pending values to those found, and with a value that was not found before the operands
that it was computed from. -/
def mark (found : List Value) : List Value → List Value
  | [] => found
  | v :: pending =>
    if found.contains v then mark found pending else mark (v :: found) (v.operands ++ pending)
-- A value has more parts than its operands have together.
termination_by pending => (pending.flatMap Value.parts).length
decreasing_by
  all_goals
    simp only [List.flatMap_cons, List.flatMap_append, List.length_append, v.parts_eq,
      List.length_cons]
    omega

/-- The values that a later step can come across: those on the stack, those that symbols hold, and
everything that these were computed from. -/
def reachable (s : State) : List Value := mark [] (s.stack ++ s.bindings.toList.map Prod.snd)

/-- Are the facts about a value worth keeping? They are if the value is a constant, can be come
across, or can be computed again from values that can; a held lock is kept in any case, so that it
is still known where the method is left. -/
def keeps (reachable : List Value) (v : Value) (facts : Facts) : Bool :=
  v.isConstant || reachable.contains v ||
    (!v.operands.isEmpty && v.operands.all fun o => reachable.contains o) || facts.implies .held

/-- Forgets the facts about values that no later step can come across. -/
def collectGarbage (s : State) : State :=
  { s with facts := s.facts.filter (keeps s.reachable) }

/-! ### Visits -/

/-- How often the path has come by a point. -/
def visitCount (s : State) (p : ProgramPoint) : Nat := s.visits.getD p 0

/-- Has the path come by a point as often as it may? -/
def atVisitLimit (s : State) (p : ProgramPoint) (limit : Nat) : Bool := limit ≤ s.visitCount p

/-- Counts one more visit to a point. -/
def markVisited (s : State) (p : ProgramPoint) : State :=
  { s with visits := s.visits.insert p (s.visitCount p + 1) }

end State

end Pathwise
