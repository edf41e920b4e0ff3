import Pathwise.Exploration.Config
import Pathwise.Exploration.Way
import Pathwise.Program.Liveness
import Pathwise.Rule.Basic
import Pathwise.Transfer.Visit

/-!
One step of an exploration. The node of an exploded graph is a program point together with a state
in which a path reaches it. Processing a node at an instruction applies the instruction to the
state; processing one at a terminator hands the state to the blocks that may come next, and forks
it where the terminator decides on something unknown. The rules look on.

A step does not depend on other steps: it is a function of the node and of the supply of unknowns.
-/

namespace Pathwise

/-- A program point and a state in which a path reaches it. -/
structure ExplodedNode where
  point : ProgramPoint
  state : State

/-- Are the two the same node? Where their paths have been does not matter. -/
def ExplodedNode.same (a b : ExplodedNode) : Bool :=
  a.point == b.point && a.state.same b.state

/-- What an exploration goes by. -/
structure Plan where
  graph : Graph
  config : Config
  rules : List Rule
  liveness : Liveness
  solver : Solver

/-- Prepares the exploration of a graph. -/
def Plan.of (graph : Graph) (config : Config) (rules : List Rule) : Plan :=
  ⟨graph, config, rules, .analyze graph, .ofLimit config.maxForks⟩

/-- What a step leads to: what the rules noticed, and either a fault or the nodes that come next and
what is left of the supply. -/
structure Step where
  observations : List Observation
  result : Except Fault (List ExplodedNode × Supply)

namespace Step

/-- The path ends here. -/
def dead (observations : List Observation) (ids : Supply) : Step := ⟨observations, .ok ([], ids)⟩

/-- A step that only passes states on. -/
def quiet (result : Except Fault (List ExplodedNode × Supply)) : Step := ⟨[], result⟩

end Step

namespace Plan

/-- The transfer of the plan's graph. -/
def transfer (p : Plan) : Transfer := ⟨p.graph.symbols, p.solver⟩

/-- A place at which rules look. -/
def site (p : Plan) (point : ProgramPoint) (span : Option Span) : Site :=
  ⟨p.graph, p.solver, point, span⟩

/-! ### Instructions -/

/-- Applies the node's instruction to the state, with the rules looking on before and after. -/
def processNode (p : Plan) (point : ProgramPoint) (node : Node) (s : State) (ids : Supply) :
    Step :=
  let i := node.instruction
  match i.stackEffect with
  | none =>
    match i with
    | .unsupported kind => .quiet (.error (.unsupportedInstruction kind))
    | _ => .quiet (.error (.unsupportedInstruction i.mnemonic))
  | some effect =>
    let site := p.site point node.span
    let seen := Rule.before p.rules site i s
    match seen.state with
    | none => .dead seen.observations ids
    | some s =>
      let observations := seen.observations ++
        match i with
        | .objectCreation type _ => Rule.creating p.rules site type
        | _ => []
      match p.transfer.visit i s ids with
      | .error fault => ⟨observations, .error fault⟩
      | .ok none => .dead observations ids
      | .ok (some (s', ids)) =>
        let expected := s.stack.length + effect.pushes - effect.pops
        if s'.stack.length ≠ expected then
          ⟨observations, .error (.stackImbalance i.mnemonic expected s'.stack.length)⟩
        else
          let goOn (created : List Observation) (s : State) : Step :=
            ⟨observations ++ created ++ Rule.after p.rules site s, .ok ([⟨point.next, s⟩], ids)⟩
          match i with
          | .objectCreation type argCount =>
            match s'.peek 0 with
            | .error fault => ⟨observations, .error fault⟩
            | .ok v =>
              let (created, s') := Rule.created p.rules site type argCount v s'
              goOn created s'
          | _ => goOn [] s'

/-! ### Terminators -/

/-- Hands a state from the end of a block to the start of another. Bindings of variables that are
dead at the end of the block are dropped on the way, and so are facts that no later step can come
across. -/
def enter (p : Plan) (source target : BlockId) (s : State) : ExplodedNode :=
  let isDead (id : SymbolId) : Bool :=
    p.graph.symbols.isLocalOrParameter id && !p.liveness.isLiveOut source id
  let s :=
    if p.config.pruneDeadBindings then (s.unbindWhere fun id _ => isDead id).collectGarbage else s
  ⟨.start target, s⟩

/-- The states in which a way is taken. The tested value is no longer on the stack. -/
def follow (p : Plan) (s : State) (v : Value) (way : Way) (ids : Supply) :
    Except Fault (List State × Supply) :=
  Supply.collect
    (fun s ids => do
      let (s, ids) ← p.transfer.bindDesignation s way.bound v ids
      return (way.residue.leave v s, ids))
    (way.guard.admitted p.solver v s) ids

/-- The states that leave a branch, way by way. -/
def depart (p : Plan) (s : State) (v : Value) (ways : List Way) (ids : Supply) :
    Except Fault (List (Way × List State) × Supply) :=
  Supply.collect
    (fun way ids => do
      let (states, ids) ← p.follow s v way ids
      return ((way, states), ids))
    ways ids

/-- Hands the states that have left a branch to the blocks at the ends of their ways. -/
def arrive (p : Plan) (source : BlockId) (left : List (Way × List State)) : List ExplodedNode :=
  left.flatMap fun (way, states) => states.map (p.enter source way.target)

/-- Is the tested condition written as a literal? -/
def isLiteralCondition (block : Block) : Bool :=
  match block.nodes.getLast? with
  | some ⟨.literal (.boolean _), _⟩ => true
  | _ => false

/-- What the rules notice about the states that have left a branch. They look at conditions only. -/
def noticed (p : Plan) (point : ProgramPoint) (block : Block) (kind : BranchKind) (v : Value)
    (left : List (Way × List State)) : List Observation :=
  match kind with
  | .condition =>
    left.flatMap fun (way, states) => states.flatMap fun s =>
      Rule.condition p.rules (p.site point block.lastSpan) v (isLiteralCondition block)
        way.outcome s
  | _ => []

/-- A two-way branch. The tested value is on top of the stack. -/
def processBranch (p : Plan) (point : ProgramPoint) (block : Block) (kind : BranchKind)
    (onTrue onFalse : BlockId) (s : State) (ids : Supply) : Step :=
  match s.pop with
  | .error fault => .quiet (.error fault)
  | .ok (s, v) =>
    match p.depart s v (kind.ways onTrue onFalse) ids with
    | .error fault => .quiet (.error fault)
    | .ok (left, ids) =>
      ⟨p.noticed point block kind v left, .ok (p.arrive point.block left, ids)⟩

/-- A jump. Entering a scope that owns a resource or holds a lock forgets what fields hold, as other
code may write to them in the meantime. -/
def processJump (p : Plan) (point : ProgramPoint) (block : Block) (target : BlockId)
    (kind : JumpKind) (s : State) (ids : Supply) : Step :=
  let leave (observations : List Observation) (s : State) : Step :=
    ⟨observations, .ok ([p.enter point.block target s], ids)⟩
  match kind with
  | .plain | .returns false | .throws false | .usingScope false => leave [] s
  | .returns true | .throws true =>
    match s.pop with
    | .error fault => .quiet (.error fault)
    | .ok (s, _) => leave [] s
  | .usingScope true =>
    match s.pop with
    | .error fault => .quiet (.error fault)
    | .ok (s, resource) =>
      let seen := Rule.usingScope p.rules (p.site point block.lastSpan) resource s
      match seen.state with
      | none => .dead seen.observations ids
      | some s => leave seen.observations (p.transfer.clearFields s)
  | .lockScope =>
    match s.pop with
    | .error fault => .quiet (.error fault)
    | .ok (s, _) => leave [] (p.transfer.clearFields s)

/-- Follows the terminator of a block. -/
def processTerminator (p : Plan) (point : ProgramPoint) (block : Block) (s : State)
    (ids : Supply) : Step :=
  match block.terminator with
  | .jump target kind => p.processJump point block target kind s ids
  | .branch kind onTrue onFalse => p.processBranch point block kind onTrue onFalse s ids
  | .fork targets => .quiet (.ok (targets.map fun target => p.enter point.block target s, ids))
  | .exit => .dead (Rule.exit p.rules (p.site point block.lastSpan) s) ids

/-- Processes a node. -/
def process (p : Plan) (node : ExplodedNode) (ids : Supply) : Step :=
  match p.graph.block? node.point.block with
  | none => .quiet (.error (.noSuchBlock node.point.block))
  | some block =>
    match block.nodes[node.point.offset]? with
    | some n => p.processNode node.point n node.state ids
    | none =>
      if node.point.offset = block.nodes.length then
        p.processTerminator node.point block node.state ids
      else
        .quiet (.error (.invalidProgramPoint node.point.offset block.nodes.length))

/-- The state in which the method is entered: each parameter holds an unknown of which only the
type is known. -/
def entryState (p : Plan) (ids : Supply) : Except Fault (State × Supply) :=
  p.graph.parameters.foldlM
    (fun (s, ids) id => do
      let symbol ← p.transfer.symbol id
      let (v, ids) := ids.fresh
      let s := if symbol.type.isValueType then (s.record? v .notNull).getD s else s
      return (s.assign id v, ids))
    (.initial, ids)

end Plan

end Pathwise
