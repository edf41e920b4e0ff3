import Pathwise.Program.Instruction

/-!
Symbolic values: what the analysis knows a run-time value by. A value is either an unknown, told
apart from other unknowns by its identity only, or one of four constants, or a composite that
remembers how it was computed. Two values are the same exactly if they have the same structure, so
computing the same composite twice gives the same value.
-/

namespace Pathwise

/-- The identity of an unknown: a number that tells it apart from all others. -/
abbrev Identity := Nat

/-- The values that are the same in every run. -/
inductive Constant where
  /-- The truth value `true`. -/
  | yes
  /-- The truth value `false`. -/
  | no
  | null
  /-- The current instance. -/
  | self
  deriving DecidableEq

/-- A symbolic value. -/
inductive Value where
  | unknown (id : Identity)
  | constant (c : Constant)
  | not (operand : Value)
  | logic (op : Connective) (left right : Value)
  | equal (kind : EqualityKind) (left right : Value)
  /-- Whether a string is null or empty, or consists of white space. -/
  | blank (operand : Value) (whitespace : Bool)
  /-- Whether a value is of some type that is not null. -/
  | ofType (operand : Value)
  /-- Whether a nullable value type holds a value. -/
  | hasValue (operand : Value)
  | member (receiver : Value) (symbol : SymbolId)
  /-- A method picked by name on a receiver, ready to be called. -/
  | group (receiver : Value) (name : String)
  deriving DecidableEq

namespace Value

/-- The constant `true`. -/
@[match_pattern] abbrev yes : Value := .constant .yes

/-- The constant `false`. -/
@[match_pattern] abbrev no : Value := .constant .no

/-- The constant `null`. -/
@[match_pattern] abbrev null : Value := .constant .null

/-- The current instance. -/
@[match_pattern] abbrev self : Value := .constant .self

/-- The constant of a truth value. -/
def ofBool : Bool → Value
  | true => yes
  | false => no

/-- The receiver that a member or a method was reached through. -/
def receiver? : Value → Option Value
  | .member receiver _ | .group receiver _ => some receiver
  | _ => none

def isConstant : Value → Bool
  | .constant _ => true
  | _ => false

/-- The values that a composite was computed from, from left to right. -/
def operands : Value → List Value
  | .unknown _ | .constant _ => []
  | .not v | .blank v _ | .ofType v | .hasValue v | .member v _ | .group v _ => [v]
  | .logic _ l r | .equal _ l r => [l, r]

/-- The value itself and everything that it was computed from, at any depth. -/
def parts : Value → List Value
  | v@(.unknown _) | v@(.constant _) => [v]
  | v@(.not x) | v@(.blank x _) | v@(.ofType x) | v@(.hasValue x) | v@(.member x _)
  | v@(.group x _) => v :: x.parts
  | v@(.logic _ l r) | v@(.equal _ l r) => v :: (l.parts ++ r.parts)

/-- A value is a part of itself. -/
theorem self_mem_parts (v : Value) : v ∈ v.parts := by
  cases v <;> simp [parts]

/-- The other parts of a value are those of its operands. -/
theorem parts_eq (v : Value) : v.parts = v :: v.operands.flatMap parts := by
  cases v <;> simp [parts, operands]

theorem mem_parts_iff {u v : Value} : u ∈ v.parts ↔ u = v ∨ ∃ x ∈ v.operands, u ∈ x.parts := by
  rw [parts_eq, List.mem_cons, List.mem_flatMap]

/-- What holds of a value if it holds of its operands holds of every value. -/
theorem operands_induction {motive : Value → Prop}
    (step : ∀ v, (∀ x ∈ v.operands, motive x) → motive v) (v : Value) : motive v := by
  induction v with
  | unknown | constant => exact step _ (by simp [operands])
  | not x ih | blank x _ ih | ofType x ih | hasValue x ih | member x _ ih | group x _ ih =>
    exact step _ (by simpa [operands] using ih)
  | logic _ l r ihl ihr | equal _ l r ihl ihr =>
    exact step _ (by simpa [operands] using ⟨ihl, ihr⟩)

/-- The operands of a part are parts. -/
theorem mem_parts_of_mem_operands {u v w : Value} (hw : w ∈ v.parts) (hu : u ∈ w.operands) :
    u ∈ v.parts := by
  induction v using operands_induction with
  | step v ih =>
    rcases mem_parts_iff.1 hw with rfl | ⟨x, hx, hwx⟩
    · exact mem_parts_iff.2 (.inr ⟨u, hu, u.self_mem_parts⟩)
    · exact mem_parts_iff.2 (.inr ⟨x, hx, ih x hx hwx⟩)

end Value

/-! ### Written form -/

/-- The digits of a number in base 16, at least `width` of them. -/
def hexDigits (width n : Nat) : String :=
  let digits := Nat.toDigits 16 n
  String.ofList (List.replicate (width - digits.length) '0' ++ digits)

/-- An identity is written by its leading 32 bits. -/
def Identity.text (id : Identity) : String := "#" ++ hexDigits 8 ((id >>> 96) % UInt32.size)

def Constant.text : Constant → String
  | .yes => "true"
  | .no => "false"
  | .null => "null"
  | .self => "this"

/-- The sign of a connective. -/
def Connective.sign : Connective → String
  | .and => "&"
  | .or => "|"
  | .xor => "^"

/-- The written form of a value. -/
def Value.text : Value → String
  | .unknown id => Identity.text id
  | .constant c => c.text
  | .not v => "!" ++ v.text
  | .logic op l r => "(" ++ l.text ++ " " ++ op.sign ++ " " ++ r.text ++ ")"
  | .equal .reference l r => "ReferenceEquals(" ++ l.text ++ ", " ++ r.text ++ ")"
  | .equal .value l r => "(" ++ l.text ++ " == " ++ r.text ++ ")"
  | .blank v true => "IsNullOrWhiteSpace(" ++ v.text ++ ")"
  | .blank v false => "IsNullOrEmpty(" ++ v.text ++ ")"
  | .ofType v => "(" ++ v.text ++ " is T)"
  | .hasValue v => v.text ++ ".HasValue"
  | .member receiver symbol => receiver.text ++ "." ++ symbol.text
  | .group receiver name => receiver.text ++ "." ++ name

end Pathwise
