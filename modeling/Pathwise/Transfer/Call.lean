import Pathwise.Symbolic.State

/-!
The operands of a call. Before an invocation of `n` arguments runs, its last `n` arguments are on
top of the stack and the method lies below them. A rule may look at the operands without taking
them.
-/

namespace Pathwise

/-- The operands of a call. -/
structure CallOperands where
  /-- The instance the method is called on, if there is one. -/
  receiver : Option Value
  /-- The arguments, first one first. -/
  arguments : List Value
  deriving DecidableEq

/-- The operands of a call with the given number of arguments, left where they are. -/
def State.peekCall (s : State) (argCount : Nat) : Except Fault CallOperands := do
  let group ← s.peek argCount
  return ⟨group.receiver?, (s.stack.take argCount).reverse⟩

end Pathwise
