import Pathwise.Exploration.Step
import Pathwise.Rule.Ledger

/-!
The exploration of a graph, breadth first. A node that was reached waits in line until all nodes
reached before it were processed, and no node is reached twice. The line and the processed nodes
together form one list: the nodes in the order in which they were reached, of which as many were
processed as steps were taken.

An exploration ends when the line is empty, when the budget of steps is used up, or when the
watchdog asks to stop. It also ends with the first fault.
-/

namespace Pathwise

/-- An exploration on its way. -/
structure Exploration where
  /-- The nodes that were reached, in order. -/
  nodes : Array ExplodedNode
  /-- How many of them were processed. -/
  steps : Nat
  ledger : Ledger
  ids : Supply
  /-- How many questions the watchdog was asked. -/
  asked : Nat

namespace Exploration

/-- Nothing was reached yet. -/
def empty (ids : Supply) : Exploration := ⟨#[], 0, .empty, ids, 0⟩

/-- The nodes that were processed, in order. -/
def processed (e : Exploration) : List ExplodedNode := e.nodes.toList.take e.steps

/-- The nodes that wait to be processed, in order. -/
def waiting (e : Exploration) : List ExplodedNode := e.nodes.toList.drop e.steps

/-- Lets a node wait in line, unless its path has come by the point too often or the same node was
reached before. -/
def reach (limit : Nat) (e : Exploration) (node : ExplodedNode) : Exploration :=
  if node.state.atVisitLimit node.point limit then e
  else
    let node : ExplodedNode := ⟨node.point, node.state.markVisited node.point⟩
    if e.nodes.any node.same then e else { e with nodes := e.nodes.push node }

/-- Processes a node: enters what the rules noticed and reaches the nodes that come next. -/
def advance (p : Plan) (e : Exploration) (node : ExplodedNode) :
    Exploration × Except Fault Unit :=
  let step := p.process node e.ids
  let e := { e with steps := e.steps + 1, ledger := e.ledger.noteAll step.observations }
  match step.result with
  | .error fault => (e, .error fault)
  | .ok (next, ids) => (next.foldl (reach p.config.maxVisits) { e with ids }, .ok ())

/-- Asks the watchdog whether to stop, if it is time to. -/
def poll (w : Watchdog) (e : Exploration) : Bool × Exploration :=
  if e.steps % w.interval = 0 then (w.stops e.asked, { e with asked := e.asked + 1 })
  else (false, e)

/-- Explores with a budget of further steps. -/
def run (p : Plan) (w : Watchdog) :
    (budget : Nat) → Exploration → Exploration × Except LocatedFault Completion
  | budget, e =>
    match e.nodes[e.steps]? with
    | none => (e, .ok .complete)
    | some node =>
      match budget with
      | 0 => (e, .ok .stepBudgetExceeded)
      | budget + 1 =>
        match e.poll w with
        | (true, e) => (e, .ok .cancelled)
        | (false, e) =>
          match e.advance p node with
          | (e, .error fault) => (e, .error ⟨node.point, fault⟩)
          | (e, .ok ()) => run p w budget e

end Exploration

/-! ### Walks -/

/-- The exploration of a graph from its entry. A walk is made once. -/
structure Walk where
  plan : Plan
  watchdog : Watchdog
  exploration : Exploration
  executed : Bool

namespace Walk

/-- A walk that was not made yet. -/
def new (plan : Plan) (watchdog : Watchdog) (ids : Supply) : Walk :=
  ⟨plan, watchdog, .empty ids, false⟩

/-- The point at which the method is entered. -/
def entry (w : Walk) : ProgramPoint := .start w.plan.graph.entry

/-- Reaches the entry of the method. -/
def start (w : Walk) : Except Fault Exploration := do
  let (s, ids) ← w.plan.entryState w.exploration.ids
  return { w.exploration with ids }.reach w.plan.config.maxVisits ⟨w.entry, s⟩

/-- Makes the walk. -/
def run (w : Walk) : Walk × Except LocatedFault Completion :=
  if w.executed then (w, .error ⟨w.entry, .alreadyExecuted⟩)
  else
    let w := { w with executed := true }
    match w.start with
    | .error fault => (w, .error ⟨w.entry, fault⟩)
    | .ok e =>
      match e.run w.plan w.watchdog w.plan.config.maxSteps with
      | (e, .error fault) => ({ w with exploration := e }, .error fault)
      | (e, .ok completion) =>
        let ledger := e.ledger.finish w.plan.rules w.entry completion
        ({ w with exploration := { e with ledger } }, .ok completion)

/-- The findings so far, in order of publication. -/
def findings (w : Walk) : List Finding := w.exploration.ledger.findings

end Walk

end Pathwise
