import Pathwise.Rule.Observation
import Pathwise.Transfer.Call

/-!
Locks that are taken and not released. Taking a lock is noted as a fact about the lock, releasing
it takes the fact away, and a lock that still has it where the method is left is reported at the
place where it was taken first.
-/

namespace Pathwise.LockRelease

def rule : String := "lock-not-released"

def message (name : String) : String :=
  "Unlock '" ++ name ++ "' along all execution paths of this method."

/-- The lock that a call works on: its first argument, or its receiver. -/
def lockOf (method : Method) (operands : CallOperands) : Option Value :=
  if method.isStatic then operands.arguments.head? else operands.receiver

/-- The name of the variable or field that the lock of a call was read from. -/
def lockName (site : Site) (method : Method) (argCount : Nat) : Option String :=
  if !method.isStatic then site.receiverName argCount
  else if argCount = 0 then none
  else site.operandName (argCount - 1)

/-- Looks at an instruction about to run. -/
def before (site : Site) (i : Instruction) (s : State) : Sighting :=
  match i with
  | .invocation method argCount =>
    match method.known, (s.peekCall argCount).toOption.bind (lockOf method) with
    | .lockAcquire, some lock =>
      ⟨[.acquired lock site.location (lockName site method argCount)],
        site.constrain s lock .held⟩
    | .lockRelease, some lock => .unchanged (s.forgetIn lock .lock)
    | _, _ => .unchanged s
  | _ => .unchanged s

/-- The locks held in a state, in the order of values. -/
def heldLocks (s : State) : List Value :=
  (s.facts.toList.filter fun entry => entry.2.implies .held).map Prod.fst

/-- Looks at a state in which the method is left. -/
def exit (site : Site) (s : State) : List Observation :=
  (heldLocks s).map fun lock => .heldAtExit lock (site.nameOf s lock) site.location

end Pathwise.LockRelease
