import Pathwise.Rule.Observation
import Pathwise.Transfer.Call

/-!
Resources that are disposed more than once, by explicit calls or at the end of a scope that owns
them. The second disposal is reported and the path goes on.
-/

namespace Pathwise.DisposedTwice

def rule : String := "object-disposed-twice"

def message (name : String) : String :=
  "Refactor this code to make sure '" ++ name ++ "' is disposed only once."

/-- Disposes a resource. There is nothing to dispose in null. -/
def dispose (site : Site) (resource : Value) (name : Option String) (s : State) : Sighting :=
  if s.has resource .null then .unchanged s
  else if s.has resource .disposed then
    let name := name.getD (site.nameOf s resource)
    let finding := { Finding.new rule site.location (message name) with arguments := [name] }
    ⟨[.defect finding resource], some s⟩
  else ⟨[], site.constrain s resource .disposed⟩

/-- Looks at an instruction about to run. -/
def before (site : Site) (i : Instruction) (s : State) : Sighting :=
  match i with
  | .invocation method argCount =>
    if method.known = .dispose then
      match s.peekCall argCount with
      | .ok ⟨some receiver, _⟩ => dispose site receiver (site.receiverName argCount) s
      | _ => .unchanged s
    else .unchanged s
  | _ => .unchanged s

/-- Looks at a scope that takes over a resource. -/
def usingScope (site : Site) (resource : Value) (s : State) : Sighting :=
  dispose site resource (site.operandName 0) s

end Pathwise.DisposedTwice
