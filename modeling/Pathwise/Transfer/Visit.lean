import Pathwise.Symbolic.Solver
import Pathwise.Symbolic.Supply
import Pathwise.Transfer.Folding

/-!
The effect of each instruction on a state. An instruction takes its operands from the stack and
pushes its result; where nothing is known about the result it is a new unknown from the supply. An
instruction that cannot be carried out in a state, because its outcome contradicts what is known,
leads to no state: the path ends there. Faults arise only where the graph itself is wrong.
-/

namespace Pathwise

/-- The outcome of an instruction: a fault, no state, or the next state and what is left of the
supply. -/
abbrev Transition := Except Fault (Option (State × Supply))

/-- What the effect of instructions depends on. -/
structure Transfer where
  symbols : SymbolTable
  solver : Solver

namespace Transfer

/-- The symbol that an id refers to. -/
def symbol (t : Transfer) (id : SymbolId) : Except Fault Symbol :=
  match t.symbols.get? id with
  | some s => .ok s
  | none => .error (.noSuchSymbol id)

/-- Learns that a value of a value type is not null. -/
def narrowToType (t : Transfer) (s : State) (v : Value) (type : TypeInfo) : Option State :=
  if type.isValueType then t.solver.narrow? s v .notNull else some s

/-- Pushes a new unknown of which nothing is known. -/
def pushUnknown (s : State) (ids : Supply) : Option (State × Supply) :=
  let (v, ids) := ids.fresh
  some (s.push v, ids)

/-- Pushes a new unknown of which one fact is known. -/
def pushKnown (t : Transfer) (s : State) (ids : Supply) (c : Constraint) :
    Option (State × Supply) :=
  let (v, ids) := ids.fresh
  (t.solver.narrow? s v c).map fun s => (s.push v, ids)

/-- Forgets what fields hold, as other code may have written to them. -/
def clearFields (t : Transfer) (s : State) : State :=
  s.unbindWhere fun id _ => t.symbols.isField id

/-- Binds the variables of a pattern that a value has matched. A deconstruction binds each variable
to a new unknown. -/
def bindDesignation (t : Transfer) (s : State) (d : Designation) (v : Value) (ids : Supply) :
    Except Fault (State × Supply) :=
  match d with
  | .none | .discard => .ok (s, ids)
  | .single id => do
    let _ ← t.symbol id
    return (s.assign id v, ids)
  | .tuple symbols =>
    symbols.foldlM
      (fun (s, ids) id => do
        let _ ← t.symbol id
        let (v, ids) := ids.fresh
        return (s.assign id v, ids))
      (s, ids)

/-! ### Instructions, by kind -/

def visitLiteral (t : Transfer) (l : Literal) (s : State) (ids : Supply) :
    Option (State × Supply) :=
  match l with
  | .boolean truth => some (s.push (.ofBool truth), ids)
  | .null => some (s.push .null, ids)
  | .string text => t.pushKnown s ids (.string (.ofLiteral text))
  | .numeric | .char => t.pushKnown s ids .notNull

/-- A read gives what the symbol holds, and binds the symbol to a new unknown if that is not known
or if a callee may be about to change it. -/
def visitRead (t : Transfer) (id : SymbolId) (byReference : Bool) (s : State) (ids : Supply) :
    Transition := do
  let symbol ← t.symbol id
  let (s, v, ids) :=
    match if byReference then none else s.lookup id with
    | some v => (s, v, ids)
    | none =>
      let (v, ids) := ids.fresh
      (s.assign id v, v, ids)
  return (t.narrowToType s v symbol.type).map fun s => (s.push v, ids)

/-- The receiver of a member, if it is reached through one. -/
def popReceiver (access : Access) (s : State) : Except Fault (State × Option Value) :=
  match access with
  | .receiver => do
    let (s, v) ← s.pop
    return (s, some v)
  | .static => .ok (s, none)

/-- A member access. Fields that can be tracked by name are read like variables; the properties of
nullable value types have a meaning of their own; any other member is a composite of its
receiver. -/
def visitMember (t : Transfer) (id : SymbolId) (access : Access) (s : State) (ids : Supply) :
    Transition := do
  let symbol ← t.symbol id
  let (s, receiver) ← popReceiver access s
  let finish (s : State) (v : Value) (ids : Supply) : Option (State × Supply) :=
    (t.narrowToType s v symbol.type).map fun s => (s.push v, ids)
  match symbol.propertyRole, receiver with
  | .nullableHasValue, some receiver => return finish s (.hasValue receiver) ids
  | .nullableValue, _ =>
    let (v, ids) := ids.fresh
    return (t.solver.narrow? s v .notNull).bind fun s => finish s v ids
  | _, receiver =>
    if symbol.isBindableMember (receiver == some .self) then
      match s.lookup id with
      | some v => return finish s v ids
      | none =>
        let (v, ids) := ids.fresh
        return finish (s.assign id v) v ids
    else
      match receiver with
      | some receiver => return finish s (.member receiver id) ids
      | none =>
        let (v, ids) := ids.fresh
        return finish s v ids

/-- The type of an assignment's target, if it has a name. -/
def targetType (t : Transfer) : AssignmentTarget → Except Fault (Option TypeInfo)
  | .symbol id | .member id _ => do return some (← t.symbol id).type
  | .element _ | .discard => .ok none

/-- Takes the operands of an assignment that lie below the assigned value, and gives the receiver
of a member. -/
def popTarget (target : AssignmentTarget) (kind : AssignmentKind) (s : State) :
    Except Fault (State × Option Value) :=
  match target, kind with
  | _, .increment => .ok (s, none)
  | .member _ .receiver, _ => popReceiver .receiver s
  | .element argCount, _ => do
    let (s, _) ← s.popMany (nextCount argCount)
    return (s, none)
  | _, _ => .ok (s, none)

/-- Writes a value to the target of an assignment. A member that cannot be tracked by name loses
what was known of it through this receiver. The receiver of an increment is gone, so the member may
be that of any instance. -/
def store (t : Transfer) (target : AssignmentTarget) (receiver : Option Value) (v : Value)
    (s : State) : Except Fault State :=
  match target with
  | .symbol id => do
    let _ ← t.symbol id
    return s.assign id v
  | .member id access => do
    let symbol ← t.symbol id
    match receiver, access with
    | some receiver, _ =>
      if symbol.isBindableMember (receiver == .self) then return s.assign id v
      else return s.forget (.member receiver id)
    | none, .static => if symbol.isBindableMember false then return s.assign id v else return s
    | none, .receiver => return s.unbind id
  | .element _ | .discard => .ok s

/-- An assignment. Its value is the assigned one, or a new unknown if the old content was combined
with an operand. -/
def visitAssignment (t : Transfer) (target : AssignmentTarget) (kind : AssignmentKind) (s : State)
    (ids : Supply) : Transition := do
  let (s, operand) ← s.pop
  let (s, receiver) ← popTarget target kind s
  let finish (s : State) (v : Value) (ids : Supply) : Transition := do
    let s ← t.store target receiver v s
    return some (s.push v, ids)
  match kind with
  | .simple => finish s operand ids
  | .compound | .increment =>
    let (v, ids) := ids.fresh
    let narrowed :=
      match ← t.targetType target with
      | some type => t.narrowToType s v type
      | none => some s
    match narrowed with
    | some s => finish s v ids
    | none => return none

def visitBinary (operator : BinaryOperator) (s : State) (ids : Supply) : Transition := do
  let (s, operands) ← s.popMany 2
  match operands with
  | [l, r] =>
    let settled (v : Value) : Transition := .ok (some (s.push v, ids))
    match operator with
    | .logic op => settled (.logic op l r)
    | .equals kind => settled (s.equality kind l r)
    | .notEquals kind => settled (s.negate (s.equality kind l r))
    | .relational lifted =>
      if lifted && (s.has l .null || s.has r .null) then settled .no
      else return pushUnknown s ids
    | .arithmetic => return pushUnknown s ids
  | _ => .error (.noSuchStackFrame 1)

def visitIsPattern (t : Transfer) (pattern : Pattern) (s : State) (ids : Supply) :
    Transition := do
  let (s, operand) ← s.pop
  match pattern with
  | .null => return some (s.push (s.equality .reference operand .null), ids)
  | .type _ designation =>
    if s.has operand .null then return some (s.push .no, ids)
    else
      let (s, ids) ← t.bindDesignation s designation operand ids
      return some (s.push (.ofType operand), ids)
  | .var designation =>
    let (s, ids) ← t.bindDesignation s designation operand ids
    return some (s.push .yes, ids)
  | .discard => return some (s.push .yes, ids)
  | .constant => return pushUnknown s ids

/-! ### Calls -/

/-- Learns that the arguments a method validates are not null. A call that would have refused one
of them does not return. -/
def validate (t : Transfer) (arguments : List Value) : List Nat → State → Option State
  | [], s => some s
  | position :: rest, s =>
    match arguments[position]? with
    | some v => (t.solver.narrow? s v .notNull).bind (validate t arguments rest)
    | none => validate t arguments rest s

/-- The value of a call to a method whose meaning is known, called with the operands it expects. -/
def knownResult (method : Method) (arguments : List Value) (receiver : Option Value) (s : State) :
    Option Value :=
  match method.known, arguments, receiver with
  | .staticEquals, [l, r], _ => some (s.equality .value l r)
  | .instanceEquals, [argument], some receiver => some (s.equality .value receiver argument)
  | .referenceEquals, [l, r], _ =>
    -- A boxed argument is a new object, to which no other reference can be identical.
    if method.valueTypeArguments.any (· < 2) then some .no else some (s.equality .reference l r)
  | .stringIsNullOrEmpty, [argument], _ => some (s.blankness argument false)
  | .stringIsNullOrWhiteSpace, [argument], _ => some (s.blankness argument true)
  | _, _, _ => none

/-- A call. -/
def visitInvocation (t : Transfer) (method : Method) (argCount : Nat) (s : State) (ids : Supply) :
    Transition := do
  let (s, arguments) ← s.popMany argCount
  let (s, group) ← s.pop
  let finish (s : State) (v : Value) (ids : Supply) : State × Supply :=
    ((if method.keepsFields then s else t.clearFields s).push v, ids)
  match t.validate arguments method.validatedNotNull s with
  | none => return none
  | some s =>
    match knownResult method arguments group.receiver? s with
    | some v => return some (finish s v ids)
    | none =>
      let (v, ids) := ids.fresh
      return (t.narrowToType s v method.returnType).map fun s => finish s v ids

/-! ### All instructions -/

/-- The effect of an instruction. -/
def visit (t : Transfer) (i : Instruction) (s : State) (ids : Supply) : Transition :=
  match i with
  | .literal l => .ok (t.visitLiteral l s ids)
  | .self | .base => .ok (some (s.push .self, ids))
  | .read id byReference => t.visitRead id byReference s ids
  | .declaration id initialized => do
    let _ ← t.symbol id
    if initialized then
      let (s, v) ← s.pop
      return some (s.assign id v, ids)
    else return some (s.unbind id, ids)
  | .memberAccess id access => t.visitMember id access s ids
  | .methodGroup name access => do
    match ← popReceiver access s with
    | (s, some receiver) => return some (s.push (.group receiver name), ids)
    | (s, none) => return pushUnknown s ids
  | .invocation method argCount => t.visitInvocation method argCount s ids
  | .assignment target kind => t.visitAssignment target kind s ids
  | .binary operator => visitBinary operator s ids
  | .unary operator => do
    let (s, operand) ← s.pop
    match operator with
    | .not => return some (s.push (s.negate operand), ids)
    | .other => return pushUnknown s ids
  | .cast _ => do
    let _ ← s.peek 0
    return some (s, ids)
  | .asType _ => do
    let (s, operand) ← s.pop
    if s.has operand .null then return some (s.push .null, ids) else return pushUnknown s ids
  | .isType _ => do
    let (s, operand) ← s.pop
    return some (s.push (s.typeTest operand), ids)
  | .isPattern pattern => t.visitIsPattern pattern s ids
  | .objectCreation type argCount => do
    let (s, _) ← s.popMany argCount
    let isEmpty := type.isNullableValue && argCount == 0
    return t.pushKnown s ids (if isEmpty then .null else .notNull)
  | .arrayCreation count | .anonymousObjectCreation count | .tuple count => do
    let (s, _) ← s.popMany count
    return t.pushKnown s ids .notNull
  | .lambda => .ok (t.pushKnown s ids .notNull)
  | .elementAccess argCount => do
    let (s, _) ← s.popMany (nextCount argCount)
    return pushUnknown s ids
  | .await => do
    let (s, _) ← s.pop
    return pushUnknown (t.clearFields s) ids
  | .defaultValue type =>
    if type.canBeNull then .ok (some (s.push .null, ids))
    else .ok (t.pushKnown s ids .notNull)
  | .nameOf => .ok (t.pushKnown s ids (.string .notBlank))
  | .discard => do
    let (s, _) ← s.pop
    return some (s, ids)
  | .unsupported kind => .error (.unsupportedInstruction kind)

end Transfer

end Pathwise
