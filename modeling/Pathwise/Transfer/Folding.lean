import Pathwise.Symbolic.State

/-!
Composites that are decided by what is known. A comparison, a negation or a test on a string gives
a constant where the facts about its operands settle the outcome, and a composite that remembers
its operands otherwise.
-/

namespace Pathwise.State

/-- The value of a comparison. It is settled if the operands are the same value, if both are null,
or if one is null and the other is not. -/
def equality (s : State) (kind : EqualityKind) (l r : Value) : Value :=
  let leftNull := s.has l .null
  let rightNull := s.has r .null
  if l = r || (leftNull && rightNull) then .yes
  else if (leftNull && s.has r .notNull) || (rightNull && s.has l .notNull) then .no
  else .equal kind l r

/-- The negation of a value. It is settled if the truth of the value is known. -/
def negate (s : State) (v : Value) : Value :=
  match (s.factsOf v).bool with
  | some truth => .ofBool !truth
  | none => .not v

/-- The outcome of a test for a null or empty string, or for one of white space. -/
def blankness (s : State) (v : Value) (whitespace : Bool) : Value :=
  if s.has v .null || s.has v (.string (.blankness whitespace)) then .yes
  else if s.has v (.string (.content whitespace)) then .no
  else .blank v whitespace

/-- The outcome of a type test, which no null passes. -/
def typeTest (s : State) (v : Value) : Value :=
  if s.has v .null then .no else .ofType v

end Pathwise.State
