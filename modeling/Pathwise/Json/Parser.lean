import Pathwise.Json.Token

/-!
Reading JSON text. Tokens are taken in one by one; the arrays and objects that are open at any
moment form a stack, innermost first, and what may come next is known at any moment. The text is
read if all of it forms one value.
-/

namespace Pathwise.Json

/-- An array or object that is open. Its items or fields so far are listed in reverse. -/
inductive Frame where
  | array (items : List Json)
  | object (fields : List (Option String × Json))
  /-- An object of which the next field's name was read. -/
  | field (fields : List (Option String × Json)) (name : Option String)

/-- What may come next. -/
inductive Expectation where
  | value
  /-- A value, or the end of an array that was just opened. -/
  | firstItem
  | name
  /-- A name, or the end of an object that was just opened. -/
  | firstName
  | colon
  /-- A comma, or the end of the innermost array or object. -/
  | separator

/-- A moment in reading: either the value is complete, or something is expected. -/
inductive Reading where
  | done (value : Json)
  | expecting (what : Expectation) (frames : List Frame)

namespace Reading

/-- Puts a value that was just completed into the innermost open array or object. -/
def complete? (value : Json) : List Frame → Option Reading
  | [] => some (.done value)
  | .array items :: outer => some (.expecting .separator (.array (value :: items) :: outer))
  | .field fields name :: outer =>
    some (.expecting .separator (.object ((name, value) :: fields) :: outer))
  | .object _ :: _ => none

/-- Takes in the beginning of a value. -/
def begin? (frames : List Frame) : Token → Option Reading
  | .scalar value => complete? value frames
  | .openArray => some (.expecting .firstItem (.array [] :: frames))
  | .openObject => some (.expecting .firstName (.object [] :: frames))
  | _ => none

/-- Takes in the name of a field. -/
def name? : List Frame → Token → Option Reading
  | .object fields :: outer, .scalar (.string name) =>
    some (.expecting .colon (.field fields name :: outer))
  | _, _ => none

/-- Takes in the end of the innermost array or object. -/
def close? : List Frame → Token → Option Reading
  | .array items :: outer, .closeArray => complete? (.array items.reverse) outer
  | .object fields :: outer, .closeObject => complete? (.object fields.reverse) outer
  | _, _ => none

/-- Takes in a comma. -/
def next? : List Frame → Option Reading
  | frames@(.array _ :: _) => some (.expecting .value frames)
  | frames@(.object _ :: _) => some (.expecting .name frames)
  | _ => none

/-- Takes in one token. -/
def step? : Reading → Token → Option Reading
  | .done _, _ => none
  | .expecting .value frames, token => begin? frames token
  | .expecting .firstItem frames, .closeArray => close? frames .closeArray
  | .expecting .firstItem frames, token => begin? frames token
  | .expecting .name frames, token => name? frames token
  | .expecting .firstName frames, .closeObject => close? frames .closeObject
  | .expecting .firstName frames, token => name? frames token
  | .expecting .colon frames, .colon => some (.expecting .value frames)
  | .expecting .colon _, _ => none
  | .expecting .separator frames, .comma => next? frames
  | .expecting .separator frames, token => close? frames token

end Reading

/-- The value that a text is the written form of, if it is one. -/
def parse? (text : String) : Option Json := do
  let tokens ← Token.scan? text.toList
  match ← tokens.foldlM Reading.step? (.expecting .value []) with
  | .done value => return value
  | .expecting .. => none

/-! ### Taking values apart -/

/-- The fields of an object whose names are all texts. -/
def fields? : Json → Option (List (String × Json))
  | .object fields => fields.mapM fun (name, value) => name.map fun name => (name, value)
  | _ => none

/-- The fields of a record with the given names. A record is written as an object, or as an array of
its fields in the order of the names. An array may end early, but not before `least` fields. -/
def record? (names : List String) (least : Nat) : Json → Option (List (String × Json))
  | .array items =>
    if least ≤ items.length && items.length ≤ names.length then some (names.zip items) else none
  | j => j.fields?

/-- The name of one of several choices. It is written as a text, or as an object that gives null to
the name and holds nothing else. -/
def choice? : Json → Option String
  | .string text => text
  | .object [(name, .null)] => name
  | _ => none

/-- The field with a name: `none` if it occurs twice, and `some none` if it does not occur. -/
def field? (fields : List (String × Json)) (name : String) : Option (Option Json) :=
  match fields.filter fun f => f.1 = name with
  | [] => some none
  | [(_, value)] => some (some value)
  | _ => none

/-- A field that must occur. -/
def required? {α : Type} (fields : List (String × Json)) (name : String) (read : Json → Option α) :
    Option α := do
  match ← field? fields name with
  | some value => read value
  | none => none

/-- A field that may be missing. -/
def optional? {α : Type} (fields : List (String × Json)) (name : String)
    (read : Json → Option α) (default : α) : Option α := do
  match ← field? fields name with
  | some value => read value
  | none => some default

/-- A natural number below the given one. -/
def below? (limit : Nat) : Json → Option Nat
  | .natural n => if n < limit then some n else none
  | _ => none

def bool? : Json → Option Bool
  | .bool b => some b
  | _ => none

def text? : Json → Option String
  | .string text => text
  | _ => none

/-- An array of values that are all read alike. -/
def list? {α : Type} (read : Json → Option α) : Json → Option (List α)
  | .array items => items.mapM read
  | _ => none

end Pathwise.Json
