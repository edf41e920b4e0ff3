import Pathwise.Rule.Basic

/-!
What the rules have written down in the course of an exploration: where locks were first taken,
which ways conditions have gone, the published findings, and the journal. Observations are entered
one by one; that a condition always goes the same way can only be said at the end, when nothing is
left to explore.
-/

namespace Pathwise

/-- Where a lock was first taken. -/
structure Acquisition where
  location : Location
  name : Option String
  deriving DecidableEq

/-- The ways a condition has gone. -/
structure Outcomes where
  span : Option Span
  seenTrue : Bool
  seenFalse : Bool
  deriving DecidableEq

namespace Outcomes

/-- A condition that was not come across. -/
def unseen : Outcomes := ⟨none, false, false⟩

/-- Notes a way that the condition has gone. The first known span is kept. -/
def add (o : Outcomes) (span : Option Span) (outcome : Bool) : Outcomes :=
  ⟨o.span <|> span, o.seenTrue || outcome, o.seenFalse || !outcome⟩

/-- The way that the condition has always gone. -/
def constant? (o : Outcomes) : Option Bool :=
  match o.seenTrue, o.seenFalse with
  | true, false => some true
  | false, true => some false
  | _, _ => none

end Outcomes

namespace ConstantCondition

/-- The rule for conditions that always go the given way. -/
def rule : Bool → String
  | true => "condition-always-true"
  | false => "condition-always-false"

def message (outcome : String) : String :=
  "Change this condition so that it does not always evaluate to '" ++ outcome ++ "'."

/-- The finding for a condition that always goes the given way. -/
def finding (location : Location) (outcome : Bool) : Finding :=
  let text := if outcome then "true" else "false"
  { Finding.new (rule outcome) location (message text) with arguments := [text] }

end ConstantCondition

/-- What the rules have written down. -/
structure Ledger where
  acquisitions : Std.ExtTreeMap Value Acquisition
  outcomes : Std.ExtTreeMap ProgramPoint Outcomes
  log : FindingLog
  /-- The journal, oldest entry first. -/
  journal : Array Event

namespace Ledger

/-- A ledger without entries. -/
def empty : Ledger := ⟨∅, ∅, .empty, #[]⟩

/-- Publishes a finding that concerns a value, or none in particular. -/
def publish (l : Ledger) (f : Finding) (v : Option Value) : Ledger :=
  { l with log := l.log.publish f v }

/-- The finding for a lock that is held where the method is left. -/
def leak (a : Acquisition) (name : String) (exit : Location) : Finding :=
  let name := a.name.getD name
  { Finding.new LockRelease.rule a.location (LockRelease.message name) with
    secondary := [exit]
    arguments := [name] }

/-- Enters an observation. -/
def note (l : Ledger) : Observation → Ledger
  | .defect finding value => l.publish finding value
  | .acquired lock location name =>
    { l with acquisitions := l.acquisitions.insertIfNew lock ⟨location, name⟩ }
  | .heldAtExit lock name exit =>
    match l.acquisitions[lock]? with
    | some a => l.publish (leak a name exit) lock
    | none => l
  | .decided location outcome =>
    let known := l.outcomes.getD location.point .unseen
    { l with outcomes := l.outcomes.insert location.point (known.add location.span outcome) }
  | .journal event => { l with journal := l.journal.push event }

/-- Enters observations in order. -/
def noteAll (l : Ledger) (observations : List Observation) : Ledger := observations.foldl note l

/-- The way that the condition at a point has always gone, if it was come across. -/
def constantOutcome? (l : Ledger) (p : ProgramPoint) : Option Bool :=
  l.outcomes[p]?.bind Outcomes.constant?

/-- The findings for conditions that have always gone the same way, in the order of their points. -/
def constantConditions (l : Ledger) : List Finding :=
  l.outcomes.toList.filterMap fun (point, outcomes) =>
    outcomes.constant?.map (ConstantCondition.finding ⟨point, outcomes.span⟩)

/-- One rule is told that the exploration has ended. Nothing can be said about conditions if
something was left unexplored. -/
def endBy (entry : ProgramPoint) (completion : Completion) (l : Ledger) : Rule → Ledger
  | .constantCondition =>
    if completion = .complete then l.constantConditions.foldl (fun l f => l.publish f none) l
    else l
  | .journal => l.note (.journal (.ended entry completion))
  | _ => l

/-- The rules are told that the exploration has ended. -/
def finish (l : Ledger) (rules : List Rule) (entry : ProgramPoint) (completion : Completion) :
    Ledger :=
  rules.foldl (endBy entry completion) l

/-- The published findings, in order of publication. -/
def findings (l : Ledger) : List Finding := l.log.findings

end Ledger

end Pathwise
