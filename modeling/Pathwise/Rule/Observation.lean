import Pathwise.Completion
import Pathwise.Rule.Site

/-!
What rules have to say. A rule that is shown a state may narrow it, or rule the path out, and it
may make observations. Observations are data: they are written down elsewhere, and what a rule does
to a state depends on the state alone, not on what was observed before.

`Sighting` puts the two together. Several rules look at a state in turn, each at what the ones
before it have left.
-/

namespace Pathwise

/-- An entry of the journal: a moment at which rules were asked, and the state at that moment. -/
inductive Event where
  | before (point : ProgramPoint) (mnemonic : String) (state : State)
  | after (point : ProgramPoint) (state : State)
  | usingScope (point : ProgramPoint) (resource : Value) (state : State)
  | creating (point : ProgramPoint) (type : TypeInfo)
  | created (point : ProgramPoint) (type : TypeInfo) (argCount : Nat) (value : Value)
  | condition (point : ProgramPoint) (value : Value) (isLiteral outcome : Bool) (state : State)
  | exit (point : ProgramPoint) (state : State)
  | ended (point : ProgramPoint) (completion : Completion)

/-- Something a rule has noticed. -/
inductive Observation where
  /-- A defect that concerns a value. -/
  | defect (finding : Finding) (value : Value)
  /-- A lock was taken; the name is that of the variable or field it was read from. -/
  | acquired (lock : Value) (location : Location) (name : Option String)
  /-- A lock is held where the method is left; the name is that of a symbol that holds it there. -/
  | heldAtExit (lock : Value) (name : String) (exit : Location)
  /-- A condition that is not written as a literal went one way. -/
  | decided (location : Location) (outcome : Bool)
  | journal (event : Event)

/-- What comes of showing a state to rules: observations, and the state as it is left, if the path
goes on. -/
structure Sighting where
  observations : List Observation
  state : Option State

namespace Sighting

/-- Nothing was noticed and nothing changed. -/
def unchanged (s : State) : Sighting := ⟨[], some s⟩

/-- Shows a state to rules in turn, until one of them ends the path. -/
def inTurn : List (State → Sighting) → State → Sighting
  | [], s => unchanged s
  | look :: rest, s =>
    match look s with
    | ⟨observations, none⟩ => ⟨observations, none⟩
    | ⟨observations, some s⟩ =>
      let later := inTurn rest s
      ⟨observations ++ later.observations, later.state⟩

end Sighting

end Pathwise
