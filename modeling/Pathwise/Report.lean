import Pathwise.Exploration.Walk

/-!
The report on one method: what was found, how the exploration ended, and how many nodes it took.
-/

namespace Pathwise

/-- The report on a method. -/
structure Report where
  method : String
  /-- The findings, in order of publication. -/
  findings : List Finding
  completion : Completion
  steps : Nat
  deriving DecidableEq

namespace Report

/-- Was every reached node explored? -/
def isComplete (r : Report) : Bool := r.completion = .complete

/-- The findings of a rule. -/
def findingsFor (r : Report) (rule : String) : List Finding := r.findings.filter (·.rule = rule)

/-- Did a rule find something at a point? -/
def hasFinding (r : Report) (rule : String) (p : ProgramPoint) : Bool :=
  (r.findingsFor rule).any (·.location.point = p)

def findingCount (r : Report) : Nat := r.findings.length

end Report

/-- The report on a walk that has ended. -/
def Walk.report (w : Walk) (completion : Completion) : Report :=
  ⟨w.plan.graph.method, w.findings, completion, w.exploration.steps⟩

end Pathwise
