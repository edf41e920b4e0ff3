import Pathwise.Json.Parser
import Pathwise.Report

/-!
Configurations and reports as JSON. Both are objects with fixed names; fields with other names are
ignored, and a name that means something may not occur twice. Fields of a configuration may be
missing and then have their default; a report must be whole, only the span of a location may be
missing or null. Both may also be read from arrays, which list the fields in order: an array for a
configuration may end early, one for a report or for a part of it lists all fields. They are always
written as objects.
-/

namespace Pathwise

open Json

/-- A count: the limits, offsets and numbers of steps are below `2^64`. -/
def Json.count? : Json → Option Nat := below? UInt64.size

/-- A position: the numbers of blocks, lines and columns are below `2^32`. -/
def Json.position? : Json → Option Nat := below? UInt32.size

namespace Config

/-- The configuration that a JSON value describes, if it describes one. -/
def ofJson? (j : Json) : Option Config := do
  let fields ← j.record?
    ["max_steps", "max_program_point_visits", "max_constraint_forks", "prune_dead_bindings"] 0
  let maxSteps ← optional? fields "max_steps" count? Config.default.maxSteps
  let maxVisits ← optional? fields "max_program_point_visits" count? Config.default.maxVisits
  let maxForks ← optional? fields "max_constraint_forks" count? Config.default.maxForks
  let pruneDeadBindings ←
    optional? fields "prune_dead_bindings" bool? Config.default.pruneDeadBindings
  return { maxSteps, maxVisits, maxForks, pruneDeadBindings }

/-- The configuration that a text describes, if it describes one. -/
def ofText? (text : String) : Option Config := (Json.parse? text).bind ofJson?

/-- A configuration as JSON. -/
def toJson (c : Config) : Json :=
  .record [("max_steps", .natural c.maxSteps), ("max_program_point_visits", .natural c.maxVisits),
    ("max_constraint_forks", .natural c.maxForks),
    ("prune_dead_bindings", .bool c.pruneDeadBindings)]

end Config

/-! ### Reading reports -/

def ProgramPoint.ofJson? (j : Json) : Option ProgramPoint := do
  let fields ← j.record? ["block", "offset"] 2
  return ⟨⟨← required? fields "block" position?⟩, ← required? fields "offset" count?⟩

def Span.ofJson? (j : Json) : Option Span := do
  let fields ← j.record? ["line", "column"] 2
  return ⟨← required? fields "line" position?, ← required? fields "column" position?⟩

/-- A span, or null where there is none. -/
def Span.orNullOfJson? : Json → Option (Option Span)
  | .null => some none
  | j => (Span.ofJson? j).map some

def Location.ofJson? (j : Json) : Option Location := do
  let fields ← j.record? ["point", "span"] 2
  return ⟨← required? fields "point" ProgramPoint.ofJson?,
    ← optional? fields "span" Span.orNullOfJson? none⟩

def Finding.ofJson? (j : Json) : Option Finding := do
  let fields ← j.record?
    ["rule_id", "location", "secondary_locations", "message", "message_arguments"] 5
  let rule ← required? fields "rule_id" text?
  let location ← required? fields "location" Location.ofJson?
  let secondary ← required? fields "secondary_locations" (list? Location.ofJson?)
  let message ← required? fields "message" text?
  let arguments ← required? fields "message_arguments" (list? text?)
  return { rule, location, secondary, message, arguments }

namespace Report

/-- The report that a JSON value describes, if it describes one. -/
def ofJson? (j : Json) : Option Report := do
  let fields ← j.record? ["method", "findings", "completion", "steps"] 4
  let method ← required? fields "method" text?
  let findings ← required? fields "findings" (list? Finding.ofJson?)
  let completion ← required? fields "completion" fun c => c.choice?.bind Completion.ofText?
  let steps ← required? fields "steps" count?
  return { method, findings, completion, steps }

/-- The report that a text describes, if it describes one. -/
def ofText? (text : String) : Option Report := (Json.parse? text).bind ofJson?

end Report

/-! ### Writing reports -/

def ProgramPoint.toJson (p : ProgramPoint) : Json :=
  .record [("block", .natural p.block.index), ("offset", .natural p.offset)]

def Span.toJson (s : Span) : Json :=
  .record [("line", .natural s.line), ("column", .natural s.column)]

def Location.toJson (l : Location) : Json :=
  .record [("point", l.point.toJson), ("span", (l.span.map Span.toJson).getD .null)]

def Finding.toJson (f : Finding) : Json :=
  .record [("rule_id", .text f.rule), ("location", f.location.toJson),
    ("secondary_locations", .array (f.secondary.map Location.toJson)),
    ("message", .text f.message), ("message_arguments", .array (f.arguments.map .text))]

/-- A report as JSON. -/
def Report.toJson (r : Report) : Json :=
  .record [("method", .text r.method), ("findings", .array (r.findings.map Finding.toJson)),
    ("completion", .text r.completion.text), ("steps", .natural r.steps)]

end Pathwise
