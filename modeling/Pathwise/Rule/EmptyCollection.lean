import Pathwise.Rule.Observation
import Pathwise.Transfer.Call

/-!
Reads from collections that are known to be empty. A collection is empty when it is created without
operands and when it is cleared, and not empty when something was added. A method that may change
its operands makes the rule forget what it knew of them.
-/

namespace Pathwise.EmptyCollection

def rule : String := "empty-collection-access"

def message (what : String) : String :=
  "Remove this " ++ what ++ ", the collection is known to be empty here."

/-- Reports a read of a collection if the collection is known to be empty. -/
def access (site : Site) (collection : Value) (what : String) (s : State) : Sighting :=
  if s.has collection .emptyCollection then
    ⟨[.defect (Finding.new rule site.location (message what)) collection], some s⟩
  else .unchanged s

/-- Looks at a call about to be made. -/
def call (site : Site) (method : Method) (operands : CallOperands) (s : State) : Sighting :=
  match method.known, operands.receiver with
  | .collectionElementAccess, some receiver => access site receiver "call" s
  | .collectionAdd, some receiver =>
    ⟨[], site.constrain (s.forgetIn receiver .collection) receiver .notEmptyCollection⟩
  | .collectionClear, some receiver =>
    ⟨[], site.constrain (s.forgetIn receiver .collection) receiver .emptyCollection⟩
  | .other, receiver =>
    if method.isPure then .unchanged s
    else
      .unchanged <|
        (operands.arguments ++ receiver.toList).foldl (fun s v => s.forgetIn v .collection) s
  | _, _ => .unchanged s

/-- Looks at an instruction about to run. -/
def before (site : Site) (i : Instruction) (s : State) : Sighting :=
  match i with
  | .invocation method argCount =>
    match s.peekCall argCount with
    | .ok operands => call site method operands s
    | .error _ => .unchanged s
  | .elementAccess argCount =>
    match s.peek argCount with
    | .ok collection => access site collection "access" s
    | .error _ => .unchanged s
  | _ => .unchanged s

/-- Looks at an object that was just created. -/
def created (site : Site) (type : TypeInfo) (argCount : Nat) (v : Value) (s : State) : State :=
  if type.isCollection && argCount == 0 then (site.constrain s v .emptyCollection).getD s else s

end Pathwise.EmptyCollection
