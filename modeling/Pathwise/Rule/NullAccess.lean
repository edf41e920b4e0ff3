import Pathwise.Rule.Observation

/-!
Two rules about operands that must not be null. A dereference of null fails at run time, and so
does unwrapping an empty nullable. Either is reported, and the path ends with it. A path that gets
past the access has an operand that is not null, which is then known for the rest of the path.
-/

namespace Pathwise

/-- Demands that the operand at a depth is not null, and reports it otherwise. Nothing is demanded
where no depth is given, and a missing operand is left to the transfer. -/
def Site.demandNotNull (site : Site) (s : State) (depth : Option Nat) (rule : String)
    (message : String → String) : Sighting :=
  match depth with
  | none => .unchanged s
  | some depth =>
    match s.peek depth with
    | .error _ => .unchanged s
    | .ok v =>
      if s.has v .null then
        let name := (site.operandName depth).getD (site.nameOf s v)
        let finding := { Finding.new rule site.location (message name) with arguments := [name] }
        ⟨[.defect finding v], none⟩
      else ⟨[], site.constrain s v .notNull⟩

namespace NullDereference

def rule : String := "null-dereference"

def message (name : String) : String := "'" ++ name ++ "' is null on at least one execution path."

/-- The depth of the operand that an instruction dereferences. The members of nullable value types
are the concern of the other rule. -/
def receiverDepth (symbols : SymbolTable) : Instruction → Option Nat
  | .memberAccess id .receiver =>
    match symbols.get? id with
    | some symbol => if symbol.propertyRole = .plain then some 0 else none
    | none => none
  | .methodGroup _ .receiver | .await => some 0
  | .elementAccess argCount => some argCount
  | .assignment _ .increment => none
  | .assignment (.member _ .receiver) _ => some 1
  | .assignment (.element argCount) _ => some (nextCount argCount)
  | _ => none

/-- Looks at an instruction about to run. -/
def before (site : Site) (i : Instruction) (s : State) : Sighting :=
  site.demandNotNull s (receiverDepth site.graph.symbols i) rule message

end NullDereference

namespace EmptyNullable

def rule : String := "empty-nullable-access"

def message (name : String) : String := "'" ++ name ++ "' is null."

/-- Does the instruction take the value out of a nullable? -/
def unwraps (symbols : SymbolTable) : Instruction → Bool
  | .memberAccess id .receiver =>
    (symbols.get? id).any fun symbol => symbol.propertyRole = .nullableValue
  | .cast .unwrapNullable => true
  | _ => false

/-- Looks at an instruction about to run. The nullable is on top of the stack. -/
def before (site : Site) (i : Instruction) (s : State) : Sighting :=
  site.demandNotNull s (if unwraps site.graph.symbols i then some 0 else none) rule message

end EmptyNullable

end Pathwise
