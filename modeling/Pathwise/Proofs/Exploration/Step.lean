import Mathlib.Algebra.GroupWithZero.Nat
import Mathlib.Algebra.Order.Group.Nat
import Mathlib.Algebra.Order.BigOperators.Group.List
import Pathwise.Exploration.Step
import Pathwise.Proofs.Alike.State
import Pathwise.Proofs.Rule.Frame
import Pathwise.Proofs.Transfer.Effect

/-!
What one step of an exploration can do. A node at an instruction leads to the point behind it, in a
state whose stack the instruction has changed as its stack effect says. A node at a terminator
leads along an edge of the terminator to the start of a block, and every edge changes the depth of
the stack by an amount that the terminator alone decides. No step touches the visits of the path.

`Plan.process_meets` says all of this at once, together with how many nodes a step leads to and
with the causes of every fault that a step can end in. What is to hold along whole explorations is
derived from it, and `process` is not opened again.
-/

namespace Pathwise

/-! ### The edges of a terminator -/

/-- How many values a jump takes from the stack. -/
def JumpKind.pops : JumpKind → Nat
  | .plain => 0
  | .returns hasOperand | .throws hasOperand | .usingScope hasOperand => hasOperand.toNat
  | .lockScope => 1

/-- The edges of a branch, each with the change of the stack's depth along it. The tested value is
taken; a short-circuit edge may push the result in its place, and an edge on which the tested value
is needed later keeps it. -/
def BranchKind.edges (onTrue onFalse : BlockId) : BranchKind → List (BlockId × Int)
  | .condition | .catchFilter | .forEach => [(onTrue, -1), (onFalse, -1)]
  | .logicalAnd pushResult => [(onTrue, -1), (onFalse, -1 + pushResult.toNat)]
  | .logicalOr pushResult => [(onTrue, -1 + pushResult.toNat), (onFalse, -1)]
  | .coalesce pushResult => [(onTrue, -1), (onFalse, -1 + pushResult.toNat)]
  | .conditionalAccess pushResult => [(onTrue, -1 + pushResult.toNat), (onFalse, 0)]
  | .caseLabel (.var _) | .caseLabel .discard => [(onTrue, -1)]
  | .caseLabel .null | .caseLabel (.type ..) | .caseLabel .constant => [(onTrue, -1), (onFalse, 0)]

/-- How many values take the place of the tested value. -/
def Residue.size : Residue → Nat
  | .nothing => 0
  | .tested | .constant _ => 1

theorem Residue.length_leave (v : Value) (s : State) (residue : Residue) :
    (residue.leave v s).stack.length = s.stack.length + residue.size := by
  cases residue <;> rfl

/-- The change of the stack's depth along a way out of a branch. -/
def Way.change (way : Way) : Int := -1 + way.residue.size

/-- The edges of a branch are its ways. -/
theorem BranchKind.edges_eq (onTrue onFalse : BlockId) (kind : BranchKind) :
    kind.edges onTrue onFalse =
      (kind.ways onTrue onFalse).map fun way => (way.target, way.change) := by
  cases kind with
  | logicalAnd pushResult | logicalOr pushResult | coalesce pushResult
  | conditionalAccess pushResult => cases pushResult <;> rfl
  | caseLabel pattern => cases pattern <;> rfl
  | _ => rfl

/-- Ways bind the variables of the case label. -/
theorem BranchKind.mem_defines (kind : BranchKind) (onTrue onFalse : BlockId) :
    ∀ way ∈ kind.ways onTrue onFalse, ∀ id ∈ way.bound.symbols,
      id ∈ (Terminator.branch kind onTrue onFalse).defines := by
  cases kind with
  | caseLabel pattern =>
    cases pattern <;>
      simp [ways, Pattern.ways, Way.fork, Terminator.defines, Pattern.designatedSymbols,
        Designation.symbols]
  | _ => simp [ways, Way.fork, Designation.symbols]

theorem BranchKind.edges_subset (onTrue onFalse : BlockId) (kind : BranchKind)
    {edge : BlockId × Int} (h : edge ∈ kind.edges onTrue onFalse) :
    ∃ change, edge = (onTrue, change) ∨ edge = (onFalse, change) := by
  refine ⟨edge.2, ?_⟩
  unfold edges at h
  grind

namespace Terminator

/-- The edges of a terminator, each with the change of the stack's depth along it. -/
def edges : Terminator → List (BlockId × Int)
  | .jump target kind => [(target, -kind.pops)]
  | .branch kind onTrue onFalse => kind.edges onTrue onFalse
  | .fork targets => targets.map fun target => (target, 0)
  | .exit => []

/-- How many values a terminator takes from the stack. -/
def pops : Terminator → Nat
  | .jump _ kind => kind.pops
  | .branch .. => 1
  | .fork _ | .exit => 0

theorem mem_successors_of_mem_edges {t : Terminator} {edge : BlockId × Int} (h : edge ∈ t.edges) :
    edge.1 ∈ t.successors := by
  cases t with
  | jump target kind =>
    obtain rfl := List.mem_singleton.1 h
    exact List.mem_singleton.2 rfl
  | branch kind onTrue onFalse =>
    obtain ⟨change, hmem⟩ := kind.edges_subset onTrue onFalse h
    rcases hmem with rfl | rfl
    · exact List.mem_cons_self
    · exact List.mem_cons_of_mem _ List.mem_cons_self
  | fork targets =>
    obtain ⟨target, htarget, rfl⟩ := List.mem_map.1 h
    exact htarget
  | exit => exact absurd h List.not_mem_nil

end Terminator

/-! ### Nodes at the ends of edges -/

/-- The node stands at the end of an edge, with the stack and the visits that a path in the given
state has there. -/
structure State.Follows (s : State) (edge : BlockId × Int) (n : ExplodedNode) : Prop where
  point : n.point = .start edge.1
  depth : (n.state.stack.length : Int) = s.stack.length + edge.2
  visits : n.state.visits = s.visits

/-- The nodes stand at the ends of edges, and there are not too many for each. -/
structure State.Spreads (limit : Nat) (s : State) (edges : List (BlockId × Int))
    (nodes : List ExplodedNode) : Prop where
  follows : ∀ n ∈ nodes, ∃ edge ∈ edges, s.Follows edge n
  width : nodes.length ≤ edges.length * limit

theorem State.Spreads.append {limit : Nat} {s : State} {edges edges' : List (BlockId × Int)}
    {nodes nodes' : List ExplodedNode} (h : s.Spreads limit edges nodes)
    (h' : s.Spreads limit edges' nodes') : s.Spreads limit (edges ++ edges') (nodes ++ nodes') := by
  constructor
  · intro n hn
    rcases List.mem_append.1 hn with hn | hn
    · obtain ⟨edge, hedge, hfollows⟩ := h.follows n hn
      exact ⟨edge, List.mem_append_left _ hedge, hfollows⟩
    · obtain ⟨edge, hedge, hfollows⟩ := h'.follows n hn
      exact ⟨edge, List.mem_append_right _ hedge, hfollows⟩
  · have hwidth := h.width
    have hwidth' := h'.width
    rw [List.length_append, List.length_append, Nat.add_mul]
    omega

/-! ### States that leave a branch -/

namespace Guard

variable {solver : Solver} {guard : Guard} {s t : State} {v : Value}

theorem factsOnly_of_mem_admitted (h : t ∈ guard.admitted solver v s) : s.FactsOnly t := by
  cases guard with
  | nothing =>
    obtain rfl := List.mem_singleton.1 h
    exact .refl _
  | holds c => exact .of_narrows (Solver.narrows_of_mem_assume h)
  | notKnown c =>
    simp only [admitted] at h
    split at h
    · exact absurd h List.not_mem_nil
    · obtain rfl := List.mem_singleton.1 h
      exact .refl _

theorem length_admitted_le (guard : Guard) (solver : Solver) (v : Value) (s : State) :
    (guard.admitted solver v s).length ≤ solver.maxForks := by
  have hpos := solver.maxForks_pos
  cases guard with
  | nothing => exact hpos
  | holds c => exact solver.length_assume_le s v c
  | notKnown c =>
    simp only [admitted]
    split
    · exact Nat.zero_le _
    · exact hpos

end Guard

/-- The second state leaves the branch for the first, which the guard of the way has admitted: they
differ in bindings, and in what the way leaves on the stack. -/
structure Way.Leaves (way : Way) (v : Value) (t u : State) : Prop where
  stack : u.stack = (way.residue.leave v t).stack
  facts : u.facts = t.facts
  visits : u.visits = t.visits

theorem State.BindingsOnly.leaves {way : Way} {t u : State} (h : t.BindingsOnly u) (v : Value) :
    way.Leaves v t (way.residue.leave v u) := by
  cases hresidue : way.residue with
  | nothing => exact ⟨by rw [hresidue]; exact h.stack, h.facts, h.visits⟩
  | tested => exact ⟨by rw [hresidue]; exact congrArg (v :: ·) h.stack, h.facts, h.visits⟩
  | constant c =>
    exact ⟨by rw [hresidue]; exact congrArg (Value.constant c :: ·) h.stack, h.facts, h.visits⟩

namespace Plan

variable {p : Plan} {s t : State} {v : Value} {source target : BlockId} {change : Int}

theorem follows_enter (p : Plan) (source target : BlockId)
    (hdepth : (t.stack.length : Int) = s.stack.length + change) (hvisits : t.visits = s.visits) :
    s.Follows (target, change) (p.enter source target t) := by
  unfold enter
  dsimp only
  split
  · exact ⟨rfl, hdepth, hvisits⟩
  · exact ⟨rfl, hdepth, hvisits⟩

theorem spreads_enter (p : Plan) (source target : BlockId)
    (hdepth : (t.stack.length : Int) = s.stack.length + change) (hvisits : t.visits = s.visits) :
    s.Spreads p.solver.maxForks [(target, change)] [p.enter source target t] := by
  constructor
  · intro n hn
    obtain rfl := List.mem_singleton.1 hn
    exact ⟨_, List.mem_singleton.2 rfl, follows_enter p source target hdepth hvisits⟩
  · have := p.solver.maxForks_pos
    simp only [List.length_singleton]
    omega

/-! ### Branches -/

/-- A branch takes the tested value, and hands the states that leave it to the next blocks. -/
theorem result_processBranch (p : Plan) (point : ProgramPoint) (block : Block) (kind : BranchKind)
    (onTrue onFalse : BlockId) (s : State) (ids : Supply) :
    (p.processBranch point block kind onTrue onFalse s ids).result = (do
      let (s, v) ← s.pop
      let (left, ids) ← p.depart s v (kind.ways onTrue onFalse) ids
      return (p.arrive point.block left, ids)) := by
  unfold processBranch
  cases s.pop with
  | error fault => rfl
  | ok r =>
    dsimp only [bind, Except.bind]
    cases p.depart r.1 r.2 (kind.ways onTrue onFalse) ids <;> rfl

/-- The states leave a branch along the way. -/
structure Departs (p : Plan) (s : State) (v : Value) (way : Way) (left : Way × List State) :
    Prop where
  along : left.1 = way
  states : List.Forall₂ (way.Leaves v) (way.guard.admitted p.solver v s) left.2

theorem follow_meets (p : Plan) (s : State) (v : Value) (way : Way) (ids : Supply) :
    Meets (p.transfer.Undeclared way.bound.symbols)
      (fun r => List.Forall₂ (way.Leaves v) (way.guard.admitted p.solver v s) r.1)
      (p.follow s v way ids) := by
  refine Meets.collect (fun t _ ids => ?_) ids
  refine (p.transfer.bindDesignation_meets t way.bound v ids).bind fun r hr => ?_
  exact hr.leaves v

theorem depart_meets (p : Plan) (s : State) (v : Value) {ways : List Way} {symbols : List SymbolId}
    (hbound : ∀ way ∈ ways, ∀ id ∈ way.bound.symbols, id ∈ symbols) (ids : Supply) :
    Meets (p.transfer.Undeclared symbols) (fun r => List.Forall₂ (p.Departs s v) ways r.1)
      (p.depart s v ways ids) := by
  refine Meets.collect (fun way hway ids => ?_) ids
  refine ((p.follow_meets s v way ids).weaken fun _ h => h.mono (hbound way hway)).bind ?_
  exact fun r hr => ⟨rfl, hr⟩

/-- The states that leave along a way are handed to the block at its end. -/
theorem Departs.spreads {way : Way} {left : Way × List State} (h : p.Departs t v way left)
    (hdepth : t.stack.length + 1 = s.stack.length) (hvisits : t.visits = s.visits)
    (source : BlockId) :
    s.Spreads p.solver.maxForks [(way.target, way.change)]
      (left.2.map (p.enter source left.1.target)) := by
  rw [h.along]
  constructor
  · intro n hn
    obtain ⟨u, hu, rfl⟩ := List.mem_map.1 hn
    obtain ⟨w, hw, hleaves⟩ := exists_of_forall₂ h.states.flip hu
    have hfacts := Guard.factsOnly_of_mem_admitted hw
    refine ⟨_, List.mem_singleton.2 rfl, follows_enter p source way.target ?_ ?_⟩
    · rw [hleaves.stack, Residue.length_leave, hfacts.stack, Way.change]
      omega
    · rw [hleaves.visits, hfacts.visits, hvisits]
  · have hlength := h.states.length_eq
    have hlimit := way.guard.length_admitted_le p.solver v t
    simp only [List.length_map, List.length_singleton]
    omega

theorem spreads_arrive {ways : List Way} {left : List (Way × List State)}
    (h : List.Forall₂ (p.Departs t v) ways left) (hdepth : t.stack.length + 1 = s.stack.length)
    (hvisits : t.visits = s.visits) (source : BlockId) :
    s.Spreads p.solver.maxForks (ways.map fun way => (way.target, way.change))
      (p.arrive source left) := by
  induction h with
  | nil => exact ⟨fun n hn => absurd hn List.not_mem_nil, Nat.zero_le _⟩
  | cons hfirst _ ih => exact (hfirst.spreads hdepth hvisits source).append ih

theorem processBranch_meets (p : Plan) (point : ProgramPoint) (block : Block) (kind : BranchKind)
    (onTrue onFalse : BlockId) (s : State) (ids : Supply) :
    Meets (p.transfer.Cause (Terminator.branch kind onTrue onFalse).defines s 1)
      (fun r => s.Spreads p.solver.maxForks (kind.edges onTrue onFalse) r.1)
      (p.processBranch point block kind onTrue onFalse s ids).result := by
  rw [result_processBranch, BranchKind.edges_eq]
  refine (s.pop_meets.weaken fun _ => .inr).bind ?_
  rintro ⟨t, v⟩ hpop
  refine ((p.depart_meets t v (kind.mem_defines onTrue onFalse) ids).weaken fun _ => .inl).bind ?_
  rintro ⟨left, ids⟩ hleft
  exact spreads_arrive hleft hpop.length hpop.visits point.block

/-! ### Jumps, and all terminators -/

theorem processJump_meets (p : Plan) (point : ProgramPoint) (block : Block) (target : BlockId)
    (kind : JumpKind) (s : State) (ids : Supply) :
    Meets (p.transfer.Cause [] s kind.pops)
      (fun r => s.Spreads p.solver.maxForks [(target, -kind.pops)] r.1)
      (p.processJump point block target kind s ids).result := by
  have hstay : s.Spreads p.solver.maxForks [(target, 0)] [p.enter point.block target s] :=
    spreads_enter p point.block target (by simp) rfl
  have hleave : ∀ t u, s.Exchanges 1 0 t → u.stack = t.stack → u.visits = t.visits →
      s.Spreads p.solver.maxForks [(target, -1)] [p.enter point.block target u] := by
    intro t u ht hstack hvisits
    have hdepth : t.stack.length + 1 = s.stack.length := ht.length
    exact spreads_enter p point.block target (by rw [hstack]; omega) (hvisits.trans ht.visits)
  have hpop := s.pop_meets
  unfold processJump
  cases kind with
  | plain => exact hstay
  | returns hasValue | throws hasValue =>
    cases hasValue with
    | false => exact hstay
    | true =>
      cases hs : s.pop with
      | error fault =>
        rw [hs] at hpop
        exact .inr hpop
      | ok r =>
        rw [hs] at hpop
        exact hleave r.1 r.1 hpop rfl rfl
  | usingScope hasResource =>
    cases hasResource with
    | false => exact hstay
    | true =>
      cases hs : s.pop with
      | error fault =>
        rw [hs] at hpop
        exact .inr hpop
      | ok r =>
        rw [hs] at hpop
        have hseen := Rule.factsOnly_usingScope p.rules (p.site point block.lastSpan) r.2 r.1
        dsimp only
        split
        · exact ⟨by simp, by simp⟩
        · next u hu =>
          have hfacts := hseen u hu
          exact hleave r.1 _ hpop hfacts.stack hfacts.visits
  | lockScope =>
    cases hs : s.pop with
    | error fault =>
      rw [hs] at hpop
      exact .inr hpop
    | ok r =>
      rw [hs] at hpop
      exact hleave r.1 _ hpop rfl rfl

theorem processTerminator_meets (p : Plan) (point : ProgramPoint) (block : Block) (s : State)
    (ids : Supply) :
    Meets (p.transfer.Cause block.terminator.defines s block.terminator.pops)
      (fun r => s.Spreads p.solver.maxForks block.terminator.edges r.1)
      (p.processTerminator point block s ids).result := by
  unfold processTerminator
  cases block.terminator with
  | jump target kind => exact p.processJump_meets point block target kind s ids
  | branch kind onTrue onFalse => exact p.processBranch_meets point block kind onTrue onFalse s ids
  | exit => exact ⟨by simp, by simp⟩
  | fork targets =>
    constructor
    · intro n hn
      obtain ⟨target, htarget, rfl⟩ := List.mem_map.1 hn
      exact ⟨(target, 0), List.mem_map_of_mem htarget,
        follows_enter p point.block target (by simp) rfl⟩
    · have := p.solver.maxForks_pos
      simp only [Terminator.edges, List.length_map]
      exact Nat.le_mul_of_pos_right _ this

end Plan

/-! ### Instructions -/

/-- There is at most one node. It stands at the given point, in a state that came about by
exchanging values on the stack. -/
structure State.Passes (effect : StackEffect) (s : State) (next : ProgramPoint)
    (nodes : List ExplodedNode) : Prop where
  exchanges : ∀ n ∈ nodes, n.point = next ∧ s.Exchanges effect.pops effect.pushes n.state
  width : nodes.length ≤ 1

theorem State.passes_nil (effect : StackEffect) (s : State) (next : ProgramPoint) :
    s.Passes effect next [] :=
  ⟨by simp, by simp⟩

theorem State.passes_singleton {effect : StackEffect} {s t : State} (next : ProgramPoint)
    (h : s.Exchanges effect.pops effect.pushes t) : s.Passes effect next [⟨next, t⟩] := by
  refine ⟨fun n hn => ?_, by simp⟩
  obtain rfl := List.mem_singleton.1 hn
  exact ⟨rfl, h⟩

/-- The stack has all the values that the instruction takes, but they are too many for a count. -/
structure Instruction.Uncounted (i : Instruction) (s : State) : Prop where
  many : UInt64.size ≤ i.taken
  enough : i.taken ≤ s.stack.length

namespace Plan

theorem processNode_meets (p : Plan) (point : ProgramPoint) (node : Node) {effect : StackEffect}
    (heffect : node.instruction.stackEffect = some effect) (s : State) (ids : Supply) :
    Meets
      (fun fault => p.transfer.Cause node.instruction.symbols s node.instruction.taken fault ∨
        node.instruction.Uncounted s)
      (fun r => s.Passes effect point.next r.1) (p.processNode point node s ids).result := by
  have hseen := Rule.factsOnly_before p.rules (p.site point node.span) node.instruction s
  simp only [processNode, heffect]
  split
  · exact s.passes_nil effect _
  next t ht =>
  have hfacts := hseen t ht
  have hvisit := p.transfer.visit_meets heffect t ids
  split
  · next fault hfault =>
    rw [hfault] at hvisit
    rcases hvisit with hundeclared | ⟨depth, hdepth, rfl, hshort⟩
    · exact .inl (.inl hundeclared)
    · exact .inl (.inr ⟨depth, hdepth, rfl, hfacts.stack ▸ hshort⟩)
  · exact s.passes_nil effect _
  · next u ids' hu =>
    rw [hu] at hvisit
    have hexchange := State.Exchanges.of_factsOnly hfacts (hvisit.2 u ids' rfl)
    have hlength := hexchange.length
    have henough := hexchange.enough
    have hpops := Instruction.pops_le_taken heffect
    split
    · next himbalance =>
      -- only what cannot be counted is not what the stack effect says
      rw [hfacts.stack] at himbalance
      refine .inr ⟨Nat.le_of_not_lt fun hcounted => ?_, henough⟩
      have htaken := Instruction.taken_eq_pops heffect hcounted
      omega
    · next hbalance =>
      rw [hfacts.stack] at hbalance
      have htaken : node.instruction.taken = effect.pops := by omega
      rw [htaken] at hexchange
      split
      · next type argCount hi =>
        rw [hi] at heffect
        cases heffect
        split
        · next fault hpeek =>
          -- the object that was created is on the stack
          obtain ⟨v, hv⟩ := hexchange.exists_peek
          cases hv.symm.trans hpeek
        · next v hpeek =>
          exact State.passes_singleton _
            (hexchange.factsOnly (Rule.factsOnly_created _ _ _ _ _ _))
      · exact State.passes_singleton _ hexchange

/-- First the rules look, then the instruction is applied, and then the rules look at what it has
created. -/
theorem processNode_follows (p : Plan) (point : ProgramPoint) (node : Node) (s : State)
    (ids : Supply) :
    Meets (fun _ => True)
      (fun r => ∀ n ∈ r.1, ∃ t u ids',
        (Rule.before p.rules (p.site point node.span) node.instruction s).state = some t ∧
        p.transfer.visit node.instruction t ids = .ok (some (u, ids')) ∧
        (n.state = u ∨ ∃ type argCount v,
          n.state = (Rule.created p.rules (p.site point node.span) type argCount v u).2))
      (p.processNode point node s ids).result := by
  unfold processNode
  dsimp only
  split
  · split <;> exact trivial
  split
  · exact fun n hn => absurd hn List.not_mem_nil
  next t ht =>
  split
  · exact trivial
  · exact fun n hn => absurd hn List.not_mem_nil
  next u ids' hvisit =>
  split
  · exact trivial
  split
  · split
    · exact trivial
    · intro n hn
      obtain rfl := List.mem_singleton.1 hn
      exact ⟨t, u, ids', ht, hvisit, .inr ⟨_, _, _, rfl⟩⟩
  · intro n hn
    obtain rfl := List.mem_singleton.1 hn
    exact ⟨t, u, ids', ht, hvisit, .inl rfl⟩

end Plan

/-! ### Steps -/

/-- The second node may come right after the first. -/
inductive Graph.Advances (g : Graph) (m n : ExplodedNode) : Prop where
  | instruction {block : Block} {node : Node} {effect : StackEffect}
      (hblock : g.block? m.point.block = some block)
      (hnode : block.nodes[m.point.offset]? = some node)
      (heffect : node.instruction.stackEffect = some effect) (hpoint : n.point = m.point.next)
      (hstate : m.state.Exchanges effect.pops effect.pushes n.state)
  | edge {block : Block} {edge : BlockId × Int} (hblock : g.block? m.point.block = some block)
      (hoffset : m.point.offset = block.nodes.length) (hedge : edge ∈ block.terminator.edges)
      (hfollows : m.state.Follows edge n)

theorem Graph.Advances.visits {g : Graph} {m n : ExplodedNode} (h : g.Advances m n) :
    n.state.visits = m.state.visits := by
  cases h with
  | instruction _ _ _ _ hstate => exact hstate.visits
  | edge _ _ _ hfollows => exact hfollows.visits

/-- The method is left at the point. -/
def Graph.Exits (g : Graph) (point : ProgramPoint) : Prop :=
  ∃ block, g.block? point.block = some block ∧ point.offset = block.nodes.length ∧
    block.terminator = .exit

/-- How many nodes a step from a point of the graph leads to at most. -/
def Graph.width (g : Graph) (limit : Nat) : Nat :=
  (g.blocks.map fun b => b.terminator.edges.length * limit).sum + 1

namespace Plan

/-- What is wrong at a node, told by the fault. -/
inductive Defect (p : Plan) (m : ExplodedNode) : Fault → Prop where
  | block (h : p.graph.block? m.point.block = none) : Defect p m (.noSuchBlock m.point.block)
  | offset {block : Block} (hblock : p.graph.block? m.point.block = some block)
      (h : block.nodes.length < m.point.offset) :
      Defect p m (.invalidProgramPoint m.point.offset block.nodes.length)
  | unsupported {block : Block} {node : Node} {kind : String}
      (hblock : p.graph.block? m.point.block = some block)
      (hnode : block.nodes[m.point.offset]? = some node)
      (h : node.instruction = .unsupported kind) : Defect p m (.unsupportedInstruction kind)
  | instruction {block : Block} {node : Node} {effect : StackEffect} {fault : Fault}
      (hblock : p.graph.block? m.point.block = some block)
      (hnode : block.nodes[m.point.offset]? = some node)
      (heffect : node.instruction.stackEffect = some effect)
      (h : p.transfer.Cause node.instruction.symbols m.state node.instruction.taken fault) :
      Defect p m fault
  | uncounted {block : Block} {node : Node} {fault : Fault}
      (hblock : p.graph.block? m.point.block = some block)
      (hnode : block.nodes[m.point.offset]? = some node)
      (h : node.instruction.Uncounted m.state) : Defect p m fault
  | terminator {block : Block} {fault : Fault}
      (hblock : p.graph.block? m.point.block = some block)
      (hoffset : m.point.offset = block.nodes.length)
      (h : p.transfer.Cause block.terminator.defines m.state block.terminator.pops fault) :
      Defect p m fault

/-- A step leads to nodes that may come next, and not to too many. It fails only if something is
wrong at the node. -/
theorem process_meets (p : Plan) (m : ExplodedNode) (ids : Supply) :
    Meets (p.Defect m)
      (fun r => (∀ n ∈ r.1, p.graph.Advances m n) ∧
        r.1.length ≤ p.graph.width p.solver.maxForks)
      (p.process m ids).result := by
  unfold process
  cases hblock : p.graph.block? m.point.block with
  | none => exact .block hblock
  | some block =>
    dsimp only
    split
    · next node hnode =>
      cases heffect : node.instruction.stackEffect with
      | none =>
        obtain ⟨kind, hkind⟩ := Instruction.stackEffect_eq_none_iff.1 heffect
        simp only [processNode, hkind]
        exact .unsupported hblock hnode hkind
      | some effect =>
        refine (p.processNode_meets m.point node heffect m.state ids).mono
          (fun fault h => h.elim (.instruction hblock hnode heffect) (.uncounted hblock hnode))
          fun r hr => ⟨fun n hn => ?_, ?_⟩
        · obtain ⟨hpoint, hstate⟩ := hr.exchanges n hn
          exact .instruction hblock hnode heffect hpoint hstate
        · exact Nat.le_trans hr.width (Nat.le_add_left 1 _)
    · next hnode =>
      split
      · next hoffset =>
        refine (p.processTerminator_meets m.point block m.state ids).mono
          (fun fault h => .terminator hblock hoffset h) fun r hr => ⟨fun n hn => ?_, ?_⟩
        · obtain ⟨edge, hedge, hfollows⟩ := hr.follows n hn
          exact .edge hblock hoffset hedge hfollows
        · have hmem : block ∈ p.graph.blocks := List.mem_of_getElem? hblock
          have := List.le_sum_of_mem
            (List.mem_map_of_mem (f := fun b => b.terminator.edges.length * p.solver.maxForks) hmem)
          exact Nat.le_trans hr.width (Nat.le_succ_of_le this)
      · next hoffset =>
        have := List.getElem?_eq_none_iff.1 hnode
        exact .offset hblock (by omega)

/-- Where the method is left, the rules look at the state and the path ends. -/
theorem process_of_exits (p : Plan) {point : ProgramPoint} (h : p.graph.Exits point) :
    ∃ span, ∀ s ids, p.process ⟨point, s⟩ ids =
      .dead (Rule.exit p.rules (p.site point span) s) ids := by
  obtain ⟨block, hblock, hoffset, hterminator⟩ := h
  refine ⟨block.lastSpan, fun s ids => ?_⟩
  have hnode : block.nodes[point.offset]? = none := List.getElem?_eq_none (by omega)
  simp only [process, hblock, hnode, if_pos hoffset, processTerminator, hterminator]

/-- The method is entered with an empty stack and no visits, unless a parameter is not declared. -/
theorem entryState_meets (p : Plan) (ids : Supply) :
    Meets (p.transfer.Undeclared p.graph.parameters)
      (fun r => r.1.stack = [] ∧ r.1.visits = ∅) (p.entryState ids) := by
  refine Meets.foldlM ?_ ⟨rfl, rfl⟩
  rintro id hid ⟨s, ids⟩ hs
  have hid : ∀ id' ∈ [id], id' ∈ p.graph.parameters := by simpa using hid
  refine ((p.transfer.symbol_meets id).weaken fun _ h => h.mono hid).bind fun symbol _ => ?_
  have hrecord : ∀ v, s.FactsOnly ((s.record? v .notNull).getD s) := by
    intro v
    cases h : s.record? v .notNull with
    | none => exact .refl s
    | some t => exact .of_record? h
  show State.stack (if symbol.type.isValueType then _ else s) = [] ∧
    State.visits (if symbol.type.isValueType then _ else s) = ∅
  split
  · exact ⟨(hrecord _).stack.trans hs.1, (hrecord _).visits.trans hs.2⟩
  · exact hs

end Plan

end Pathwise
