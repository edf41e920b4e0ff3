import Pathwise.Text.Blank

/-!
Facts about a value, in six domains: whether it is null, its truth, the shape of a string, whether
a collection is empty, whether a resource was disposed, and whether a lock is held. A set of facts
holds at most one fact in each domain; adding a fact either sharpens the set or contradicts it.

A fact of any domain but the first is only true of a value that is not null, so adding one also
adds that.
-/

namespace Pathwise

/-- The domains of facts, in the order in which they are listed. -/
inductive Domain where
  | object
  | bool
  | string
  | collection
  | disposable
  | lock
  deriving DecidableEq

namespace Domain

/-- Every domain, in order. -/
def all : List Domain := [.object, .bool, .string, .collection, .disposable, .lock]

def text : Domain → String
  | .object => "Object"
  | .bool => "Bool"
  | .string => "String"
  | .collection => "Collection"
  | .disposable => "Disposable"
  | .lock => "Lock"

end Domain

/-! ### Shapes of strings -/

/-- What a string looks like. -/
inductive Texture where
  | empty
  /-- At least one character, and white space only. -/
  | blank
  /-- Some character that is not white space. -/
  | full
  deriving DecidableEq

/-- The texture of a text. -/
def Texture.of (text : String) : Texture :=
  if text.isEmpty then .empty else if text.toList.all Text.isBlank then .blank else .full

/-- The textures that a string may still have. There is always at least one. -/
structure StringShape where
  empty : Bool
  blank : Bool
  full : Bool
  inhabited : (empty || blank || full) = true
  deriving DecidableEq

namespace StringShape

/-- Is the texture among those of the shape? -/
def allows (s : StringShape) : Texture → Bool
  | .empty => s.empty
  | .blank => s.blank
  | .full => s.full

/-- The shape with the given textures, if there are any. -/
def of? (empty blank full : Bool) : Option StringShape :=
  if h : (empty || blank || full) = true then some ⟨empty, blank, full, h⟩ else none

/-- The shape of strings of one texture. -/
def only : Texture → StringShape
  | .empty => ⟨true, false, false, rfl⟩
  | .blank => ⟨false, true, false, rfl⟩
  | .full => ⟨false, false, true, rfl⟩

/-- The empty string. -/
def emptyString : StringShape := only .empty

/-- Some white space and nothing else. -/
def whitespace : StringShape := only .blank

/-- Some character that is not white space. -/
def notBlank : StringShape := only .full

/-- The empty string or white space. -/
def emptyOrWhitespace : StringShape := ⟨true, true, false, rfl⟩

/-- At least one character. -/
def notEmpty : StringShape := ⟨false, true, true, rfl⟩

/-- The empty string or some character that is not white space. -/
def notWhitespace : StringShape := ⟨true, false, true, rfl⟩

/-- The strings for which a test for emptiness, or for white space, succeeds. -/
def blankness (countsWhitespace : Bool) : StringShape :=
  if countsWhitespace then emptyOrWhitespace else emptyString

/-- The strings for which a test for emptiness, or for white space, fails. -/
def content (countsWhitespace : Bool) : StringShape :=
  if countsWhitespace then notBlank else notEmpty

/-- The shape of a literal. -/
def ofLiteral (text : String) : StringShape := only (.of text)

/-- The textures that both shapes have, if there are any. -/
def meet (a b : StringShape) : Option StringShape :=
  of? (a.empty && b.empty) (a.blank && b.blank) (a.full && b.full)

/-- Is every texture of the first shape one of the second? -/
def implies (a b : StringShape) : Bool :=
  (!a.empty || b.empty) && (!a.blank || b.blank) && (!a.full || b.full)

/-- The textures that the shape lacks, if there are any. -/
def complement (s : StringShape) : Option StringShape := of? (!s.empty) (!s.blank) (!s.full)

/-- The meet of two shapes has the textures that both have. -/
theorem allows_of_meet {a b c : StringShape} (h : a.meet b = some c) (t : Texture) :
    c.allows t = (a.allows t && b.allows t) := by
  simp only [meet, of?, Option.dite_none_right_eq_some, Option.some.injEq] at h
  obtain ⟨_, rfl⟩ := h
  cases t <;> rfl

/-- One shape implies another exactly if it has no texture that the other lacks. -/
theorem implies_iff {a b : StringShape} :
    a.implies b ↔ ∀ t, a.allows t → b.allows t := by
  constructor
  · intro h t
    simp only [implies, Bool.and_eq_true, Bool.or_eq_true, Bool.not_eq_true'] at h
    cases t <;> simp only [allows] <;> grind
  · intro h
    have he := h .empty
    have hb := h .blank
    have hf := h .full
    simp only [allows] at he hb hf
    simp only [implies, Bool.and_eq_true, Bool.or_eq_true, Bool.not_eq_true']
    grind

/-- The written form. The shapes without a name are written as bits, the empty string last. -/
def text (s : StringShape) : String :=
  match s.full, s.blank, s.empty with
  | false, false, true => "EmptyString"
  | false, true, false => "WhiteSpaceString"
  | false, true, true => "EmptyOrWhiteSpaceString"
  | true, false, false => "FullNotWhiteSpaceString"
  | true, true, false => "FullString"
  | full, blank, empty =>
    "String(0b" ++ toString full.toNat ++ toString blank.toNat ++ toString empty.toNat ++ ")"

end StringShape

/-! ### Facts -/

/-- Whether a value is null. -/
inductive Nullness where
  | null
  | notNull
  deriving DecidableEq

/-- Whether a collection is empty. -/
inductive Fullness where
  | empty
  | notEmpty
  deriving DecidableEq

/-- A fact about a value. -/
inductive Constraint where
  | object (n : Nullness)
  | bool (truth : Bool)
  | string (shape : StringShape)
  | collection (f : Fullness)
  | disposed
  | held
  deriving DecidableEq

namespace Constraint

/-- The value is null. -/
@[match_pattern] abbrev null : Constraint := .object .null

/-- The value is not null. -/
@[match_pattern] abbrev notNull : Constraint := .object .notNull

/-- The value is an empty collection. -/
@[match_pattern] abbrev emptyCollection : Constraint := .collection .empty

/-- The value is a collection with elements. -/
@[match_pattern] abbrev notEmptyCollection : Constraint := .collection .notEmpty

def domain : Constraint → Domain
  | .object _ => .object
  | .bool _ => .bool
  | .string _ => .string
  | .collection _ => .collection
  | .disposed => .disposable
  | .held => .lock

/-- The fact that holds where this one does not, if it can be put as a fact. -/
def opposite : Constraint → Option Constraint
  | .null => some .notNull
  | .notNull => some .null
  | .bool truth => some (.bool !truth)
  | .string shape => shape.complement.map .string
  | .emptyCollection => some .notEmptyCollection
  | .notEmptyCollection => some .emptyCollection
  | .disposed | .held => none

/-- Is the fact only true of values that are not null, without saying just that? -/
def impliesNotNull : Constraint → Bool
  | .object _ => false
  | _ => true

def text : Constraint → String
  | .null => "Null"
  | .notNull => "NotNull"
  | .bool true => "True"
  | .bool false => "False"
  | .string shape => shape.text
  | .emptyCollection => "EmptyCollection"
  | .notEmptyCollection => "NotEmptyCollection"
  | .disposed => "Disposed"
  | .held => "LockHeld"

/-- Every fact that tells values apart, with each shape of a string but the one that allows all. -/
def all : List Constraint :=
  [.null, .notNull, .bool true, .bool false, .string .emptyString, .string .whitespace,
   .string .emptyOrWhitespace, .string .notBlank, .string .notEmpty, .string .notWhitespace,
   .emptyCollection, .notEmptyCollection, .disposed, .held]

end Constraint

/-! ### Sets of facts -/

/-- What is known about a value: at most one fact in each domain. -/
structure Facts where
  object : Option Nullness
  bool : Option Bool
  string : Option StringShape
  collection : Option Fullness
  disposed : Bool
  held : Bool
  deriving DecidableEq

namespace Facts

/-- Nothing is known. -/
def nothing : Facts := ⟨none, none, none, none, false, false⟩

/-- The fact in a domain, if there is one. -/
def get? (f : Facts) : Domain → Option Constraint
  | .object => f.object.map .object
  | .bool => f.bool.map .bool
  | .string => f.string.map .string
  | .collection => f.collection.map .collection
  | .disposable => if f.disposed then some .disposed else none
  | .lock => if f.held then some .held else none

/-- The facts, in the order of their domains. -/
def toList (f : Facts) : List Constraint := Domain.all.filterMap f.get?

def isEmpty (f : Facts) : Bool := f.toList.isEmpty

/-- Is the fact known? A sharper shape of a string settles every wider one. -/
def implies (f : Facts) (c : Constraint) : Bool :=
  match f.get? c.domain, c with
  | some (.string known), .string asked => known.implies asked
  | some known, asked => known == asked
  | none, _ => false

/-- Some fact that only a value that is not null can have is known. -/
def hasContent (f : Facts) : Bool := f.toList.any Constraint.impliesNotNull

/-- Puts a fact into an empty place, or keeps an equal one. -/
def settle {α : Type} [DecidableEq α] (known : Option α) (new : α) : Option (Option α) :=
  match known with
  | none => some (some new)
  | some old => if old = new then some known else none

/-- Adds whether the value is null, unless something known contradicts it. -/
def addObject? (f : Facts) (n : Nullness) : Option Facts :=
  if n = .null && f.hasContent then none
  else (settle f.object n).map fun object => { f with object }

/-- Adds a fact, unless something known contradicts it. -/
def add? (f : Facts) (c : Constraint) : Option Facts :=
  match c with
  | .object n => f.addObject? n
  | .bool truth => do
    let f ← f.addObject? .notNull
    return { f with bool := ← settle f.bool truth }
  | .string shape => do
    let f ← f.addObject? .notNull
    match f.string with
    | some known => return { f with string := ← known.meet shape }
    | none => return { f with string := shape }
  | .collection fullness => do
    let f ← f.addObject? .notNull
    return { f with collection := ← settle f.collection fullness }
  | .disposed => do
    let f ← f.addObject? .notNull
    return { f with disposed := true }
  | .held => do
    let f ← f.addObject? .notNull
    return { f with held := true }

/-- Forgets the fact of one domain, and no other. -/
def without (f : Facts) : Domain → Facts
  | .object => { f with object := none }
  | .bool => { f with bool := none }
  | .string => { f with string := none }
  | .collection => { f with collection := none }
  | .disposable => { f with disposed := false }
  | .lock => { f with held := false }

/-- The written form: the facts in the order of their domains, separated by commas. -/
def text (f : Facts) : String := ",".intercalate (f.toList.map Constraint.text)

end Facts

end Pathwise
