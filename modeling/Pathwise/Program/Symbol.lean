import Std.Data.ExtTreeMap

/-!
The names a method works with. A symbol is a local variable, a parameter, a field or a property,
with the static type that its declaration gives it. Symbols are declared in a table and referred to
by their position in it, so a `SymbolId` may also point outside the table: looking it up then fails.

Methods are not symbols: an invocation carries everything the analysis needs to know about the
method it calls, above all whether it is one of the methods whose meaning is known.
-/

namespace Pathwise

/-- A reference to a symbol, by its position in the symbol table. -/
structure SymbolId where
  index : Nat
  deriving DecidableEq

namespace SymbolId

/-- Symbols are ordered by position. -/
instance : Ord SymbolId := ⟨compareOn SymbolId.index⟩

instance : Std.TransOrd SymbolId :=
  inferInstanceAs (Std.TransCmp (compareOn SymbolId.index))

instance : Std.LawfulEqOrd SymbolId where
  compare_self {a} := Std.compare_self (a := a.index)
  eq_of_compare {a b} h := by
    cases a; cases b
    exact congrArg SymbolId.mk (Std.LawfulEqOrd.eq_of_compare h)

/-- The written form, such as `s3`. -/
def text (s : SymbolId) : String := "s" ++ toString s.index

end SymbolId

/-! ### Types -/

/-- How values of a type relate to `null`. -/
inductive TypeKind where
  /-- Reference types, whose values may be null. -/
  | reference
  /-- Value types, whose values are never null. -/
  | value
  /-- Nullable value types, whose values may be empty. -/
  | nullable
  deriving DecidableEq

/-- The static type of a symbol or expression. -/
structure TypeInfo where
  name : String
  kind : TypeKind
  isCollection : Bool
  isDisposable : Bool
  deriving DecidableEq

namespace TypeInfo

/-- Values of the type are never null. -/
def isValueType (t : TypeInfo) : Bool := t.kind == .value

/-- The type is a nullable value type. -/
def isNullableValue (t : TypeInfo) : Bool := t.kind == .nullable

/-- Some value of the type is null. -/
def canBeNull (t : TypeInfo) : Bool := !t.isValueType

end TypeInfo

/-! ### Symbols -/

/-- What a property means to the analysis. -/
inductive PropertyRole where
  /-- Nothing in particular. -/
  | plain
  /-- The value held by a nullable value type. -/
  | nullableValue
  /-- Whether a nullable value type holds a value. -/
  | nullableHasValue
  deriving DecidableEq

/-- The name of the role. -/
def PropertyRole.text : PropertyRole → String
  | .plain => "Plain"
  | .nullableValue => "NullableValue"
  | .nullableHasValue => "NullableHasValue"

/-- What a symbol stands for. -/
inductive SymbolKind where
  | localVariable
  | parameter
  | field (isStatic isConst : Bool)
  | property (isStatic : Bool) (role : PropertyRole)
  deriving DecidableEq

/-- A named entity of the analysed method or of its type. -/
structure Symbol where
  name : String
  kind : SymbolKind
  type : TypeInfo
  /-- A closure captures the symbol, so it may be read where the graph does not show it. -/
  captured : Bool
  deriving DecidableEq

namespace Symbol

def isField (s : Symbol) : Bool :=
  match s.kind with
  | .field .. => true
  | _ => false

def isLocalOrParameter (s : Symbol) : Bool :=
  match s.kind with
  | .localVariable | .parameter => true
  | _ => false

/-- Can the symbol's content be tracked under its own name? It can for a field that is reached
through the current instance, is static or is constant; any other member needs its receiver. -/
def isBindableMember (s : Symbol) (onSelf : Bool) : Bool :=
  match s.kind with
  | .field isStatic isConst => onSelf || isStatic || isConst
  | _ => false

/-- The role of a property; every other symbol is plain. -/
def propertyRole (s : Symbol) : PropertyRole :=
  match s.kind with
  | .property _ role => role
  | _ => .plain

end Symbol

/-- The symbols of a method, in order of declaration. -/
structure SymbolTable where
  symbols : List Symbol
  deriving DecidableEq

namespace SymbolTable

def empty : SymbolTable := ⟨[]⟩

def size (t : SymbolTable) : Nat := t.symbols.length

/-- The symbol that an id refers to, if it refers to one. -/
def get? (t : SymbolTable) (id : SymbolId) : Option Symbol := t.symbols[id.index]?

/-- Declares one more symbol, behind all others. -/
def add (t : SymbolTable) (s : Symbol) : SymbolTable × SymbolId :=
  (⟨t.symbols ++ [s]⟩, ⟨t.size⟩)

/-- The ids in use, ascending. -/
def ids (t : SymbolTable) : List SymbolId := (List.range t.size).map SymbolId.mk

/-- Is the id that of a declared field? -/
def isField (t : SymbolTable) (id : SymbolId) : Bool := (t.get? id).any Symbol.isField

/-- Is the id that of a declared local variable or parameter? -/
def isLocalOrParameter (t : SymbolTable) (id : SymbolId) : Bool :=
  (t.get? id).any Symbol.isLocalOrParameter

end SymbolTable

/-! ### Methods -/

/-- The methods whose meaning the analysis knows. -/
inductive KnownMethod where
  | staticEquals
  | instanceEquals
  | referenceEquals
  | stringIsNullOrEmpty
  | stringIsNullOrWhiteSpace
  | dispose
  | lockAcquire
  | lockRelease
  | collectionAdd
  | collectionClear
  | collectionElementAccess
  | other
  deriving DecidableEq

/-- What an invocation tells about the method it calls. -/
structure Method where
  name : String
  known : KnownMethod
  isStatic : Bool
  returnType : TypeInfo
  /-- Positions of arguments that are not null once the call has returned. -/
  validatedNotNull : List Nat
  /-- The method changes nothing that the analysis tracks. -/
  isPure : Bool
  /-- Positions of arguments of a value type, which are boxed for the call. -/
  valueTypeArguments : List Nat
  deriving DecidableEq

/-- Do the tracked fields keep their contents across a call? They do for pure methods, for
comparisons, and while a lock is taken. -/
def Method.keepsFields (m : Method) : Bool :=
  m.isPure ||
    match m.known with
    | .staticEquals | .instanceEquals | .referenceEquals | .stringIsNullOrEmpty
    | .stringIsNullOrWhiteSpace | .lockAcquire => true
    | _ => false

end Pathwise
