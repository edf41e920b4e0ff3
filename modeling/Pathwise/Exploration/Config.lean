/-!
The limits of an exploration, and its watchdog.
-/

namespace Pathwise

/-- The limits of an exploration. -/
structure Config where
  /-- How many nodes are processed at most. -/
  maxSteps : Nat
  /-- How often a path comes by each program point at most. This is what bounds loops. -/
  maxVisits : Nat
  /-- How many states an assumption leads to at most. -/
  maxForks : Nat
  /-- Are bindings of dead variables dropped between blocks? -/
  pruneDeadBindings : Bool
  deriving DecidableEq

/-- The limits that apply unless others are given. -/
def Config.default : Config := ⟨1000, 2, 16, true⟩

/-- Something that is asked every so many steps whether the exploration should stop. -/
structure Watchdog where
  /-- The number of steps between two questions; none counts as one. -/
  every : Nat
  /-- The answer to each question, by its number. -/
  stops : Nat → Bool

namespace Watchdog

/-- Never stops anything, and is hardly ever asked. -/
def lazy : Watchdog := ⟨1000000000000, fun _ => false⟩

/-- The number of steps between two questions to a flag, unless another is given. -/
def defaultInterval : Nat := 100

/-- Answers every question alike, and is asked at least every so often. -/
def flag (raised : Bool) (every : Nat) : Watchdog := ⟨max every 1, fun _ => raised⟩

/-- Lets a number of questions pass and stops from then on. -/
def patient (questions every : Nat) : Watchdog := ⟨every, fun n => questions ≤ n⟩

/-- The number of steps between two questions. -/
def interval (w : Watchdog) : Nat := max w.every 1

end Watchdog

end Pathwise
