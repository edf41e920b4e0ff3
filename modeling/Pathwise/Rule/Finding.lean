import Pathwise.Program.Graph
import Pathwise.Symbolic.Value

/-!
Findings: the defects that the rules report. A finding is published under a key made of its rule,
its point and the value it concerns, so that a defect met on many paths is reported once.
-/

namespace Pathwise

/-- A place that a finding refers to. -/
structure Location where
  point : ProgramPoint
  span : Option Span
  deriving DecidableEq

/-- The written form: the point, and the span in brackets if there is one. -/
def Location.text (l : Location) : String :=
  match l.span with
  | some span => l.point.text ++ " (" ++ span.text ++ ")"
  | none => l.point.text

/-- A defect reported by a rule. -/
structure Finding where
  rule : String
  location : Location
  /-- Other places that matter to the defect. -/
  secondary : List Location
  message : String
  /-- What was filled into the message. -/
  arguments : List String
  deriving DecidableEq

namespace Finding

/-- A finding without further places and arguments. -/
def new (rule : String) (location : Location) (message : String) : Finding :=
  ⟨rule, location, [], message, []⟩

/-- The written form. -/
def text (f : Finding) : String :=
  let line := f.location.text ++ " [" ++ f.rule ++ "]: " ++ f.message
  if f.secondary.isEmpty then line
  else line ++ " (see " ++ ", ".intercalate (f.secondary.map Location.text) ++ ")"

/-- Sorts every run of neighbouring findings of one rule by written form, and leaves all others
where they are. -/
def sortRuns (rule : String) (findings : List Finding) : List Finding :=
  (findings.splitBy fun a b => a.rule == rule && b.rule == rule).flatMap fun run =>
    run.mergeSort fun a b => a.text ≤ b.text

end Finding

/-! ### Publishing -/

/-- The published findings, each with the value it concerns, in order of publication. -/
structure FindingLog where
  entries : List (Finding × Option Value)
  deriving DecidableEq

namespace FindingLog

/-- Nothing was published. -/
def empty : FindingLog := ⟨[]⟩

/-- Was a finding of the same rule at the same point published for the same value? -/
def covers (log : FindingLog) (f : Finding) (v : Option Value) : Bool :=
  log.entries.any fun (g, w) =>
    g.rule == f.rule && g.location.point == f.location.point && w == v

/-- Publishes a finding, unless one with the same key was published before. -/
def publish (log : FindingLog) (f : Finding) (v : Option Value) : FindingLog :=
  if log.covers f v then log else ⟨log.entries ++ [(f, v)]⟩

/-- The findings, in order of publication. -/
def findings (log : FindingLog) : List Finding := log.entries.map Prod.fst

end FindingLog

end Pathwise
