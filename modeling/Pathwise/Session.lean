import Pathwise.Report

/-!
The analysis of many methods under one configuration. Each method is explored on its own, and one
that fails does so without touching the others. The watchdog is shared: the questions it has been
asked during one method count for the next.
-/

namespace Pathwise

/-- The analysis of a method failed. -/
structure Failure where
  method : String
  detail : String
  deriving DecidableEq

/-- The message for a failure. -/
def Failure.message (f : Failure) : String :=
  "Analysis failed for " ++ f.method ++ ": " ++ f.detail

/-- The rules of a session could not be set up; the reason may be known. -/
structure InternalError where
  reason : Option String
  deriving DecidableEq

/-- The description of an internal error. -/
def InternalError.detail (e : InternalError) : String :=
  match e.reason with
  | some reason => "internal error: " ++ reason
  | none => "internal error"

/-- What the methods of a session are analysed with. -/
structure Session where
  config : Config
  watchdog : Watchdog
  /-- The rules for every method, or why there are none. -/
  rules : Except InternalError (List Rule)
  ids : Supply

namespace Session

/-- Analyses a method, when the watchdog was asked a number of questions before. Gives the report,
and how many questions it was asked then. -/
def analyze (s : Session) (asked : Nat) (g : Graph) : Except Failure Report × Nat :=
  match s.rules with
  | .error e => (.error ⟨g.method, e.detail⟩, asked)
  | .ok rules =>
    let walk := Walk.new (.of g s.config rules) s.watchdog s.ids
    let (walk, outcome) := { walk with exploration := { walk.exploration with asked } }.run
    match outcome with
    | .error fault => (.error ⟨g.method, fault.message⟩, walk.exploration.asked)
    | .ok completion => (.ok (walk.report completion), walk.exploration.asked)

/-- Analyses methods in order. -/
def analyzeFrom (s : Session) : (asked : Nat) → List Graph → List (Except Failure Report)
  | _, [] => []
  | asked, g :: rest =>
    let (result, asked) := s.analyze asked g
    result :: s.analyzeFrom asked rest

/-- Analyses methods in order. -/
def analyzeAll (s : Session) (graphs : List Graph) : List (Except Failure Report) :=
  s.analyzeFrom 0 graphs

end Session

end Pathwise
