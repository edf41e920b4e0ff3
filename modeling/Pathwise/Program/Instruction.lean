import Pathwise.Program.Symbol

/-!
The instructions of a basic block. Operands are evaluated by earlier instructions and wait on the
operand stack, the one evaluated last on top; an instruction takes its operands from the stack and
pushes at most one result. `Instruction.stackEffect` gives the two counts for every instruction the
analysis understands. Counts are machine words of 64 bits, and adding to the largest one starts
again at 0.
-/

namespace Pathwise

/-- A literal. Only the text of strings matters to the analysis. -/
inductive Literal where
  | boolean (value : Bool)
  | null
  | string (text : String)
  | numeric
  | char
  deriving DecidableEq

/-- Which comparison an equality operator stands for. -/
inductive EqualityKind where
  /-- The identity of two references. -/
  | reference
  /-- Equality of values, or an operator defined by the program. -/
  | value
  deriving DecidableEq

/-- The connectives on truth values that evaluate both operands. -/
inductive Connective where
  | and
  | or
  | xor
  deriving DecidableEq

/-- A binary operator. -/
inductive BinaryOperator where
  | logic (op : Connective)
  | equals (kind : EqualityKind)
  | notEquals (kind : EqualityKind)
  /-- An order comparison; a lifted one also takes nullable operands. -/
  | relational (lifted : Bool)
  | arithmetic
  deriving DecidableEq

/-- A unary operator. -/
inductive UnaryOperator where
  | not
  | other
  deriving DecidableEq

/-- How a member is reached: through a receiver on the stack, or statically. -/
inductive Access where
  | receiver
  | static
  deriving DecidableEq

/-- What an assignment writes to. -/
inductive AssignmentTarget where
  /-- A local, parameter or field, by simple name. -/
  | symbol (id : SymbolId)
  | member (id : SymbolId) (access : Access)
  /-- An indexer with the given number of index arguments. -/
  | element (argCount : Nat)
  | discard
  deriving DecidableEq

/-- The kind of an assignment. -/
inductive AssignmentKind where
  | simple
  | compound
  /-- An increment or decrement, whose operand has already been read. -/
  | increment
  deriving DecidableEq

/-- Casts, all of which pass their operand through. -/
inductive CastKind where
  | explicit
  | checked
  | unchecked
  | parenthesized
  /-- From a nullable value type to its underlying type. -/
  | unwrapNullable
  deriving DecidableEq

/-- The variables that a pattern captures. -/
inductive Designation where
  | none
  | discard
  | single (id : SymbolId)
  /-- A deconstruction into several variables. -/
  | tuple (ids : List SymbolId)
  deriving DecidableEq

/-- The symbols a designation introduces, in order. -/
def Designation.symbols : Designation → List SymbolId
  | .none | .discard => []
  | .single id => [id]
  | .tuple ids => ids

/-- A pattern of a test or of a case label. -/
inductive Pattern where
  | null
  | type (type : TypeInfo) (designation : Designation)
  /-- Matches every value and captures it. -/
  | var (designation : Designation)
  /-- Matches every value. -/
  | discard
  /-- A constant other than `null`. -/
  | constant
  deriving DecidableEq

namespace Pattern

/-- Does the pattern match every value? -/
def isIrrefutable : Pattern → Bool
  | .var _ | .discard => true
  | _ => false

/-- The symbols a pattern introduces, in order. -/
def designatedSymbols : Pattern → List SymbolId
  | .type _ designation | .var designation => designation.symbols
  | _ => []

end Pattern

/-- One instruction of a basic block. -/
inductive Instruction where
  | literal (literal : Literal)
  /-- The current instance. -/
  | self
  /-- The current instance, seen as its base type. -/
  | base
  /-- Reads a symbol by simple name; as a by-reference argument, the callee may also write it. -/
  | read (symbol : SymbolId) (byReference : Bool)
  /-- Declares a variable, taking its first value from the stack if it is initialized. -/
  | declaration (symbol : SymbolId) (initialized : Bool)
  | memberAccess (member : SymbolId) (access : Access)
  /-- The method about to be called, which sits on the stack below the arguments. -/
  | methodGroup (name : String) (access : Access)
  | invocation (method : Method) (argCount : Nat)
  | assignment (target : AssignmentTarget) (kind : AssignmentKind)
  | binary (operator : BinaryOperator)
  | unary (operator : UnaryOperator)
  | cast (kind : CastKind)
  /-- A conversion that gives null when it does not apply. -/
  | asType (type : TypeInfo)
  | isType (type : TypeInfo)
  | isPattern (pattern : Pattern)
  /-- Creates an object from constructor and initializer operands. -/
  | objectCreation (type : TypeInfo) (argCount : Nat)
  | arrayCreation (argCount : Nat)
  | anonymousObjectCreation (memberCount : Nat)
  | elementAccess (argCount : Nat)
  | await
  | defaultValue (type : TypeInfo)
  /-- The name of an expression that is not evaluated. -/
  | nameOf
  | tuple (arity : Nat)
  | lambda
  /-- Ends an expression statement. -/
  | discard
  /-- A kind of syntax that the analysis does not model. -/
  | unsupported (kind : String)
  deriving DecidableEq

/-- How many operands an instruction takes and how many results it pushes. -/
structure StackEffect where
  pops : Nat
  pushes : Nat
  deriving DecidableEq

/-- The count after a count. The largest one is followed by 0. -/
def nextCount (count : Nat) : Nat := (count + 1) % UInt64.size

theorem nextCount_of_lt {count : Nat} (h : count + 1 < UInt64.size) : nextCount count = count + 1 :=
  Nat.mod_eq_of_lt h

namespace Instruction

/-- The operands an assignment takes besides the assigned one: the receiver of a member, or the
receiver and index arguments of an element. An increment has already read them. -/
def receiverOperands : AssignmentTarget → AssignmentKind → Nat
  | _, .increment => 0
  | .member _ .receiver, _ => 1
  | .element argCount, _ => nextCount argCount
  | _, _ => 0

/-- The effect on the stack depth, unless the instruction is unsupported. -/
def stackEffect : Instruction → Option StackEffect
  | .literal _ | .self | .base | .read .. | .defaultValue _ | .nameOf | .lambda => some ⟨0, 1⟩
  | .declaration _ initialized => some ⟨initialized.toNat, 0⟩
  | .memberAccess _ access | .methodGroup _ access => some ⟨(access == .receiver).toNat, 1⟩
  | .invocation _ argCount => some ⟨nextCount argCount, 1⟩
  | .assignment target kind => some ⟨nextCount (receiverOperands target kind), 1⟩
  | .binary _ => some ⟨2, 1⟩
  | .unary _ | .cast _ | .asType _ | .isType _ | .isPattern _ | .await => some ⟨1, 1⟩
  | .objectCreation _ count | .arrayCreation count | .anonymousObjectCreation count
  | .tuple count => some ⟨count, 1⟩
  | .elementAccess argCount => some ⟨nextCount argCount, 1⟩
  | .discard => some ⟨1, 0⟩
  | .unsupported _ => none

/-- A short name of the instruction for messages and journals. -/
def mnemonic : Instruction → String
  | .literal _ => "LITERAL"
  | .self => "THIS"
  | .base => "BASE"
  | .read .. => "READ"
  | .declaration .. => "DECLARE"
  | .memberAccess .. => "MEMBER"
  | .methodGroup name _ => "METHOD_GROUP(" ++ name ++ ")"
  | .invocation method _ => "INVOKE(" ++ method.name ++ ")"
  | .assignment .. => "ASSIGN"
  | .binary _ => "BINARY"
  | .unary _ => "UNARY"
  | .cast _ => "CAST"
  | .asType _ => "AS"
  | .isType _ => "IS"
  | .isPattern _ => "IS_PATTERN"
  | .objectCreation type _ => "NEW(" ++ type.name ++ ")"
  | .arrayCreation _ => "NEW_ARRAY"
  | .anonymousObjectCreation _ => "NEW_ANONYMOUS"
  | .elementAccess _ => "ELEMENT"
  | .await => "AWAIT"
  | .defaultValue _ => "DEFAULT"
  | .nameOf => "NAMEOF"
  | .tuple _ => "TUPLE"
  | .lambda => "LAMBDA"
  | .discard => "DISCARD"
  | .unsupported kind => "UNSUPPORTED(" ++ kind ++ ")"

/-- The symbols an instruction reads before it writes any: by-name reads, and the target of an
assignment that combines the old content with an operand. -/
def uses : Instruction → List SymbolId
  | .read symbol _ => [symbol]
  | .assignment (.symbol _) .simple => []
  | .assignment (.symbol id) _ => [id]
  | _ => []

/-- The symbols whose old content is gone after an instruction. -/
def defines : Instruction → List SymbolId
  | .declaration symbol _ => [symbol]
  | .assignment (.symbol id) _ => [id]
  | .isPattern pattern => pattern.designatedSymbols
  | _ => []

/-- Only unsupported instructions have no stack effect. -/
theorem stackEffect_eq_none_iff {i : Instruction} :
    i.stackEffect = none ↔ ∃ kind, i = .unsupported kind := by
  cases i <;> simp [stackEffect]

end Instruction

end Pathwise
