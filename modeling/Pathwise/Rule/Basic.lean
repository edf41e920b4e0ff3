import Pathwise.Rule.DisposedTwice
import Pathwise.Rule.EmptyCollection
import Pathwise.Rule.LockRelease
import Pathwise.Rule.NullAccess

/-!
The rules, and the moments at which they look at a state. A list of rules looks in order: later
rules see the state as earlier ones have left it, and a rule that ends a path hides it from those
after it. A rule that has nothing to say at some moment leaves the state as it is.

Besides the six rules that find defects there is a journal, which changes nothing and notes down
every moment.
-/

namespace Pathwise

/-- Something that looks at the states of an exploration. -/
inductive Rule where
  | nullDereference
  | emptyNullable
  | disposedTwice
  | lockRelease
  | emptyCollection
  | constantCondition
  | journal
  deriving DecidableEq

namespace Rule

/-- The rules that find defects. Those about null come first, so that the others see receivers
that are not null. -/
def defaults : List Rule :=
  [.nullDereference, .emptyNullable, .disposedTwice, .lockRelease, .emptyCollection,
   .constantCondition]

/-- Adds a rule behind the others, unless it is there already. -/
def register (rules : List Rule) (r : Rule) : List Rule :=
  if rules.contains r then rules else rules ++ [r]

/-- One rule looks at an instruction about to run. -/
def beforeBy (site : Site) (i : Instruction) : Rule → State → Sighting
  | .nullDereference => NullDereference.before site i
  | .emptyNullable => EmptyNullable.before site i
  | .disposedTwice => DisposedTwice.before site i
  | .lockRelease => LockRelease.before site i
  | .emptyCollection => EmptyCollection.before site i
  | .constantCondition => .unchanged
  | .journal => fun s => ⟨[.journal (.before site.point i.mnemonic s)], some s⟩

/-- The rules look at an instruction about to run. -/
def before (rules : List Rule) (site : Site) (i : Instruction) (s : State) : Sighting :=
  Sighting.inTurn (rules.map (beforeBy site i)) s

/-- One rule looks at a scope that takes over a resource. -/
def usingScopeBy (site : Site) (resource : Value) : Rule → State → Sighting
  | .disposedTwice => DisposedTwice.usingScope site resource
  | .journal => fun s => ⟨[.journal (.usingScope site.point resource s)], some s⟩
  | _ => .unchanged

/-- The rules look at a scope that takes over a resource. -/
def usingScope (rules : List Rule) (site : Site) (resource : Value) (s : State) : Sighting :=
  Sighting.inTurn (rules.map (usingScopeBy site resource)) s

/-- The observations of the journal, if it is among the rules. -/
def noted (rules : List Rule) (e : Event) : List Observation :=
  if rules.contains .journal then [.journal e] else []

/-- The rules look at the state after an instruction. -/
def after (rules : List Rule) (site : Site) (s : State) : List Observation :=
  noted rules (.after site.point s)

/-- The rules are told of an object about to be created. -/
def creating (rules : List Rule) (site : Site) (type : TypeInfo) : List Observation :=
  noted rules (.creating site.point type)

/-- The rules look at an object that was just created. -/
def created (rules : List Rule) (site : Site) (type : TypeInfo) (argCount : Nat) (v : Value)
    (s : State) : List Observation × State :=
  (noted rules (.created site.point type argCount v),
    if rules.contains .emptyCollection then EmptyCollection.created site type argCount v s else s)

/-- One rule looks at a condition that has gone one way. -/
def conditionBy (site : Site) (v : Value) (isLiteral outcome : Bool) (s : State) :
    Rule → List Observation
  | .constantCondition => if isLiteral then [] else [.decided site.location outcome]
  | .journal => [.journal (.condition site.point v isLiteral outcome s)]
  | _ => []

/-- The rules look at a condition that has gone one way. -/
def condition (rules : List Rule) (site : Site) (v : Value) (isLiteral outcome : Bool)
    (s : State) : List Observation :=
  rules.flatMap (conditionBy site v isLiteral outcome s)

/-- One rule looks at a state in which the method is left. -/
def exitBy (site : Site) (s : State) : Rule → List Observation
  | .lockRelease => LockRelease.exit site s
  | .journal => [.journal (.exit site.point s)]
  | _ => []

/-- The rules look at a state in which the method is left. -/
def exit (rules : List Rule) (site : Site) (s : State) : List Observation :=
  rules.flatMap (exitBy site s)

end Rule

end Pathwise
