import Pathwise.Proofs.Exploration.Changes
import Pathwise.Proofs.Exploration.Run
import Pathwise.Proofs.Transfer.Edits

/-!
How the states of a walk come about. Every step changes a state by small changes: the rules learn
and forget facts, the instruction changes the state, and between two blocks dead bindings and facts
of no use are dropped. So the state of every node that a walk reaches comes about by small changes
from the state in which nothing has happened.
-/

namespace Pathwise

namespace Plan

variable {p : Plan} {s t : State} {v : Value} {ids ids' : Supply}

/-- The states of the nodes come about from a state by small changes. -/
def Derives (p : Plan) (s : State) (nodes : List ExplodedNode) : Prop :=
  ∀ n ∈ nodes, s.Edits p.graph.symbols n.state

/-- Everything that a terminator may do to a state is a small change. -/
theorem outlives_edits (p : Plan) (s : State) : p.Outlives (s.Edits p.graph.symbols) where
  restack stack h := h.tail (.restack _ stack)
  record _ ht h := h.learn (.record (.refl _) ht)
  assign v hid h := h.tail (.assign _ hid v)
  unbindWhere test h := h.tail (.unbindWhere _ test)
  collectGarbage h := h.tail (.collectGarbage _)

theorem processTerminator_derives (p : Plan) (point : ProgramPoint) (block : Block) (s : State)
    (ids : Supply) :
    Meets (fun _ => True) (fun r => p.Derives s r.1)
      (p.processTerminator point block s ids).result :=
  processTerminator_keeps (p.outlives_edits s) (.refl s) point block ids

theorem processNode_derives (p : Plan) (point : ProgramPoint) (node : Node) (s : State)
    (ids : Supply) :
    Meets (fun _ => True) (fun r => p.Derives s r.1) (p.processNode point node s ids).result := by
  refine (p.processNode_follows point node s ids).mono (fun _ h => h) fun r hr n hn => ?_
  obtain ⟨t, u, ids', ht, hvisit, hstate⟩ := hr n hn
  have ht : s.Edits p.graph.symbols t :=
    (State.Edits.refl s).learn (Rule.learns_before _ _ _ s t ht)
  have hu : s.Edits p.graph.symbols u :=
    ht.trans (p.transfer.visit_yields node.instruction t ids u ids' hvisit)
  rcases hstate with hstate | ⟨type, argCount, v, hstate⟩
  · rw [hstate]
    exact hu
  · rw [hstate]
    exact hu.learn (Rule.learns_created _ _ _ _ _ _)

theorem process_derives (p : Plan) (m : ExplodedNode) (ids : Supply) :
    Meets (fun _ => True) (fun r => p.Derives m.state r.1) (p.process m ids).result := by
  unfold process
  split
  · exact trivial
  split
  · exact p.processNode_derives _ _ _ _
  split
  · exact p.processTerminator_derives _ _ _ _
  · exact trivial

/-- Parameters are declared, and of those of value types it is known that they are not null. -/
theorem edits_of_entryState (h : p.entryState ids = .ok (s, ids')) :
    State.initial.Edits p.graph.symbols s := by
  have hmeets : Meets (fun _ => True) (fun r => State.initial.Edits p.graph.symbols r.1)
      (p.entryState ids) := by
    refine Meets.foldlM ?_ (.refl _)
    rintro id - ⟨s, ids⟩ hs
    cases hid : p.transfer.symbol id with
    | error fault => exact trivial
    | ok symbol =>
      have hnarrowed : State.initial.Edits p.graph.symbols
          (if symbol.type.isValueType then (s.record? ids.fresh.1 .notNull).getD s else s) := by
        split
        · cases hrecord : s.record? ids.fresh.1 .notNull with
          | none => exact hs
          | some t => exact State.Edits.learn hs (.record (.refl s) hrecord)
        · exact hs
      exact hnarrowed.tail (.assign _ (Transfer.get?_of_symbol hid) _)
  rw [h] at hmeets
  exact hmeets

end Plan

namespace Exploration

variable {p : Plan} {e e' : Exploration} {m : ExplodedNode} {next added : List ExplodedNode}

/-- The nodes that join the line come about from the node that is processed. -/
theorem Progress.edits (h : Progress p m next added e e') {n : ExplodedNode} (hn : n ∈ added) :
    m.state.Edits p.graph.symbols n.state := by
  have hderives := p.process_derives m e.ids
  rw [h.process] at hderives
  obtain ⟨n₀, hn₀, -, rfl⟩ := h.reaches.joined n hn
  exact (hderives n₀ hn₀).tail (.revisit n₀.state _)

theorem Runs.edits {count : Nat} (h : Runs p count e e')
    (he : ∀ n ∈ e.nodes.toList, State.initial.Edits p.graph.symbols n.state) :
    ∀ n ∈ e'.nodes.toList, State.initial.Edits p.graph.symbols n.state := by
  refine h.invariant (P := fun e => ∀ n ∈ e.nodes.toList,
    State.initial.Edits p.graph.symbols n.state) (fun hstep he n hn => ?_) he
  rw [hstep.nodes] at hn
  rcases List.mem_append.1 hn with hn | hn
  · exact he n hn
  · exact (he _ hstep.head_mem).trans (hstep.edits hn)

end Exploration

/-- The state of every node that a walk reaches comes about by small changes. -/
theorem Walk.edits_of_mem_nodes {p : Plan} {w : Watchdog} {ids : Supply} {n : ExplodedNode}
    (hn : n ∈ (new p w ids).run.1.exploration.nodes.toList) :
    State.initial.Edits p.graph.symbols n.state := by
  obtain ⟨s, e, e', count, hs, hruns, hn⟩ := exists_runs_of_mem_nodes hn
  refine hruns.edits (fun n hn => ?_) n hn
  obtain ⟨n₀, hn₀, -, rfl⟩ := hs.reaches.joined n hn
  obtain rfl := List.mem_singleton.1 hn₀
  exact (Plan.edits_of_entryState hs.entry).tail (.revisit s _)

end Pathwise
