/-!
How an exploration comes to its end.
-/

namespace Pathwise

/-- How an exploration ended. -/
inductive Completion where
  /-- Every node that was reached was explored. -/
  | complete
  | stepBudgetExceeded
  /-- The watchdog asked to stop. -/
  | cancelled
  deriving DecidableEq

namespace Completion

/-- The written form. -/
def text : Completion → String
  | .complete => "Complete"
  | .stepBudgetExceeded => "StepBudgetExceeded"
  | .cancelled => "Cancelled"

/-- The completion with a given written form. -/
def ofText? (t : String) : Option Completion :=
  [complete, stepBudgetExceeded, cancelled].find? fun c => c.text = t

end Completion

end Pathwise
