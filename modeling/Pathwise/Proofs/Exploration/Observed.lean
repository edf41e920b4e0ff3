import Pathwise.Proofs.Exploration.Run
import Pathwise.Proofs.Rule.Observed

/-!
What is noticed in the course of an exploration. A step notices defects, and besides them only what
its node is about: a lock that is taken there, a condition that can go one way, or locks that are
held where the method is left. `Plan.notices_of_mem` says so, and the lemmas after it say that none
of this is missed.

What was noticed is written down step by step, so the ledger of an exploration tells about the nodes
that were processed: of every condition all the ways it has gone, and of every lock where it was
taken first.
-/

namespace Pathwise

variable {p : Plan} {m : ExplodedNode} {ids : Supply} {o : Observation} {v : Value} {outcome : Bool}

/-! ### What a node is about -/

namespace Graph

/-- The node of the graph at a point. -/
def node? (g : Graph) (point : ProgramPoint) : Option Node :=
  (g.block? point.block).bind fun block => block.nodes[point.offset]?

/-- The value that a condition tests at a node, and the state without it. -/
def tested? (g : Graph) (n : ExplodedNode) : Option (State × Value) :=
  match g.block? n.point.block with
  | some block =>
    match block.terminator with
    | .branch .condition _ _ =>
      if n.point.offset = block.nodes.length then n.state.pop.toOption else none
    | _ => none
  | none => none

/-- Does the block of a point test a literal? -/
def testsLiteral (g : Graph) (point : ProgramPoint) : Bool :=
  (g.block? point.block).any Plan.isLiteralCondition

end Graph

namespace Plan

/-- Can the condition at a node go the given way? -/
def admits (p : Plan) (n : ExplodedNode) (outcome : Bool) : Bool :=
  (p.graph.tested? n).any fun r => !(p.solver.assume r.1 r.2 (.bool outcome)).isEmpty

/-- The condition at a node can go the given way, and somebody takes note of it. -/
structure Decides (p : Plan) (n : ExplodedNode) (outcome : Bool) : Prop where
  rule : .constantCondition ∈ p.rules
  literal : p.graph.testsLiteral n.point = false
  admits : p.admits n outcome

/-- The lock that is taken or released by the call at a node, if there is such a call. -/
def lock? (p : Plan) (known : KnownMethod) (n : ExplodedNode) : Option Value :=
  (p.graph.node? n.point).bind fun node => node.instruction.lock? known n.state

/-- A lock is taken at a node, and somebody takes note of it. -/
structure Acquires (p : Plan) (n : ExplodedNode) (v : Value) : Prop where
  lock : p.lock? .lockAcquire n = some v
  shown : ∃ node, p.graph.node? n.point = some node ∧
    Rule.ShowLocks p.rules (p.site n.point node.span) node.instruction n.state

/-- What can be noticed at a node. -/
inductive Notices (p : Plan) (n : ExplodedNode) : Observation → Prop where
  | plain {o : Observation} (h : o.Plain) : Notices p n o
  | acquired {v : Value} {location : Location} {name : Option String} (h : p.Acquires n v)
      (hpoint : location.point = n.point) : Notices p n (.acquired v location name)
  | decided {location : Location} {outcome : Bool} (h : p.Decides n outcome)
      (hpoint : location.point = n.point) : Notices p n (.decided location outcome)
  | heldAtExit {v : Value} {name : String} {exit : Location} (hexit : p.graph.Exits n.point)
      (hrule : .lockRelease ∈ p.rules) (h : n.state.has v .held) :
      Notices p n (.heldAtExit v name exit)

/-! ### Steps -/

/-- What is noticed at an instruction is noticed before it runs, the journal apart. -/
theorem observations_processNode (p : Plan) (point : ProgramPoint) {node : Node} (s : State)
    (ids : Supply) {effect : StackEffect} (heffect : node.instruction.stackEffect = some effect) :
    ∃ more, (∀ o ∈ more, o.InJournal) ∧ (p.processNode point node s ids).observations =
      (Rule.before p.rules (p.site point node.span) node.instruction s).observations ++ more := by
  have hcreating :=
    Rule.inJournal_of_mem_creating p.rules (p.site point node.span) node.instruction
  have hlater : ∀ {first : List Observation} {e e' : Event}, (∀ o ∈ first, o.InJournal) →
      ∀ o ∈ first ++ Rule.noted p.rules e ++ Rule.noted p.rules e', o.InJournal := by
    intro first e e' hfirst o ho
    rcases List.mem_append.1 ho with ho | ho
    · rcases List.mem_append.1 ho with ho | ho
      · exact hfirst o ho
      · exact Rule.inJournal_of_mem_noted ho
    · exact Rule.inJournal_of_mem_noted ho
  simp only [processNode, heffect]
  split
  · exact ⟨[], by simp, by simp [Step.dead]⟩
  split
  · exact ⟨_, hcreating, rfl⟩
  · exact ⟨_, hcreating, rfl⟩
  split
  · exact ⟨_, hcreating, rfl⟩
  split
  · next type argCount hi =>
    simp only [hi] at hcreating ⊢
    split
    · exact ⟨_, hcreating, rfl⟩
    · exact ⟨_, hlater hcreating, by
        rw [List.append_assoc, List.append_assoc, List.append_assoc]
        rfl⟩
  · refine ⟨_, fun o ho => ?_, by rw [List.append_nil, List.append_assoc]⟩
    rcases List.mem_append.1 ho with ho | ho
    · exact hcreating o ho
    · exact Rule.inJournal_of_mem_noted ho

/-- A jump notices something only where a scope takes over a resource. -/
theorem exists_of_mem_processJump {point : ProgramPoint} {block : Block} {target : BlockId}
    {kind : JumpKind} {s : State}
    (h : o ∈ (p.processJump point block target kind s ids).observations) :
    ∃ t v, kind = .usingScope true ∧ s.pop = .ok (t, v) ∧
      o ∈ (Rule.usingScope p.rules (p.site point block.lastSpan) v t).observations := by
  have hnone : o ∉ ([] : List Observation) := List.not_mem_nil
  unfold processJump at h
  cases kind with
  | plain => exact absurd h hnone
  | returns hasValue | throws hasValue =>
    cases hasValue with
    | false => exact absurd h hnone
    | true => cases hs : s.pop <;> simp only [hs] at h <;> exact absurd h hnone
  | usingScope hasResource =>
    cases hasResource with
    | false => exact absurd h hnone
    | true =>
      cases hs : s.pop with
      | error fault =>
        simp only [hs] at h
        exact absurd h hnone
      | ok r =>
        simp only [hs] at h
        refine ⟨r.1, r.2, rfl, rfl, ?_⟩
        split at h
        · exact h
        · exact h
  | lockScope => cases hs : s.pop <;> simp only [hs] at h <;> exact absurd h hnone

/-- Both ways out of a condition are taken in the states in which it has their outcome. -/
theorem depart_condition (p : Plan) (s : State) (v : Value) (onTrue onFalse : BlockId)
    (ids : Supply) :
    p.depart s v (BranchKind.condition.ways onTrue onFalse) ids =
      .ok ((BranchKind.condition.ways onTrue onFalse).map fun way =>
        (way, p.solver.assume s v (.bool way.outcome)), ids) := by
  refine Supply.collect_eq_map fun way hway => ?_
  -- neither way binds variables or leaves anything on the stack
  have hfollow : p.follow s v way ids =
      .ok ((p.solver.assume s v (.bool way.outcome)).map id, ids) := by
    rcases List.mem_cons.1 hway with rfl | hway
    · exact Supply.collect_eq_map fun _ _ => rfl
    · obtain rfl := List.mem_singleton.1 hway
      exact Supply.collect_eq_map fun _ _ => rfl
  rw [hfollow, List.map_id]
  rfl

/-- A branch notices which ways its condition can go. -/
theorem cases_of_mem_processBranch {point : ProgramPoint} {block : Block} {kind : BranchKind}
    {onTrue onFalse : BlockId} {s : State}
    (h : o ∈ (p.processBranch point block kind onTrue onFalse s ids).observations) :
    o.InJournal ∨ ∃ t v outcome, kind = .condition ∧ s.pop = .ok (t, v) ∧
      p.solver.assume t v (.bool outcome) ≠ [] ∧ .constantCondition ∈ p.rules ∧
      isLiteralCondition block = false ∧ o = .decided ⟨point, block.lastSpan⟩ outcome := by
  have hnone : o ∉ ([] : List Observation) := List.not_mem_nil
  unfold processBranch at h
  cases hs : s.pop with
  | error fault =>
    simp only [hs] at h
    exact absurd h hnone
  | ok r =>
    obtain ⟨t, v⟩ := r
    simp only [hs] at h
    cases kind with
    | condition =>
      rw [depart_condition] at h
      obtain ⟨left, hleft, ho⟩ := List.mem_flatMap.1 h
      obtain ⟨way, -, rfl⟩ := List.mem_map.1 hleft
      obtain ⟨u, hu, ho⟩ := List.mem_flatMap.1 ho
      rcases Rule.cases_of_mem_condition ho with hjournal | ⟨hrule, hliteral, rfl⟩
      · exact .inl hjournal
      · exact .inr ⟨t, v, way.outcome, rfl, rfl, List.ne_nil_of_mem hu, hrule, hliteral, rfl⟩
    | _ =>
      split at h
      · exact absurd h hnone
      · exact absurd h hnone

/-- Where in a step something is noticed. -/
inductive Origin (p : Plan) (m : ExplodedNode) (o : Observation) : Prop where
  | journal (h : o.InJournal)
  | instruction {node : Node} (hnode : p.graph.node? m.point = some node)
      (h : o ∈ (Rule.before p.rules (p.site m.point node.span) node.instruction
        m.state).observations)
  | usingScope {block : Block} {target : BlockId} {s : State} {v : Value}
      (hblock : p.graph.block? m.point.block = some block)
      (hoffset : m.point.offset = block.nodes.length)
      (hterminator : block.terminator = .jump target (.usingScope true))
      (hpop : m.state.pop = .ok (s, v))
      (h : o ∈ (Rule.usingScope p.rules (p.site m.point block.lastSpan) v s).observations)
  | condition {location : Location} {outcome : Bool} (h : p.Decides m outcome)
      (hpoint : location.point = m.point) (heq : o = .decided location outcome)
  | exit {span : Option Span} (hexit : p.graph.Exits m.point)
      (h : o ∈ Rule.exit p.rules (p.site m.point span) m.state)

theorem origin_of_mem (h : o ∈ (p.process m ids).observations) : p.Origin m o := by
  have hnone : o ∉ ([] : List Observation) := List.not_mem_nil
  unfold process at h
  cases hblock : p.graph.block? m.point.block with
  | none =>
    simp only [hblock] at h
    exact absurd h hnone
  | some block =>
    simp only [hblock] at h
    cases hnode : block.nodes[m.point.offset]? with
    | some node =>
      simp only [hnode] at h
      have hnode : p.graph.node? m.point = some node := by simp [Graph.node?, hblock, hnode]
      cases heffect : node.instruction.stackEffect with
      | none =>
        obtain ⟨kind, hkind⟩ := Instruction.stackEffect_eq_none_iff.1 heffect
        simp only [processNode, hkind] at h
        exact absurd h hnone
      | some effect =>
        obtain ⟨more, hmore, heq⟩ := p.observations_processNode m.point m.state ids heffect
        rw [heq] at h
        rcases List.mem_append.1 h with h | h
        · exact .instruction hnode h
        · exact .journal (hmore o h)
    | none =>
      simp only [hnode] at h
      split at h
      · next hoffset =>
        unfold processTerminator at h
        cases hterminator : block.terminator with
        | jump target kind =>
          simp only [hterminator] at h
          obtain ⟨s, v, rfl, hpop, h⟩ := exists_of_mem_processJump h
          exact .usingScope hblock hoffset hterminator hpop h
        | branch kind onTrue onFalse =>
          simp only [hterminator] at h
          rcases cases_of_mem_processBranch h with
            hjournal | ⟨t, v, outcome, rfl, hpop, hstates, hrule, hliteral, heq⟩
          · exact .journal hjournal
          · refine .condition ⟨hrule, ?_, ?_⟩ rfl heq
            · simp [Graph.testsLiteral, hblock, hliteral]
            · simp [admits, Graph.tested?, hblock, hterminator, hoffset, hpop, Except.toOption,
                hstates]
        | fork targets =>
          simp only [hterminator] at h
          exact absurd h hnone
        | exit =>
          simp only [hterminator] at h
          exact .exit ⟨block, hblock, hoffset, hterminator⟩ h
      · exact absurd h hnone

/-- A step notices defects, and otherwise what its node is about. -/
theorem notices_of_mem (h : o ∈ (p.process m ids).observations) : p.Notices m o := by
  cases origin_of_mem h with
  | journal h => exact .plain h.plain
  | @instruction node hnode h =>
    rcases Rule.cases_of_mem_before h with hplain | ⟨v, name, hlock, hshown, rfl⟩
    · exact .plain hplain
    · exact .acquired ⟨by simp [lock?, hnode, hlock], node, hnode, hshown⟩ rfl
  | usingScope _ _ _ _ h => exact .plain (Rule.plain_of_mem_usingScope h)
  | condition hdecides hpoint heq =>
    subst heq
    exact .decided hdecides hpoint
  | exit hexit h =>
    rcases Rule.atExit_of_mem_exit h with ⟨v, rfl⟩ | ⟨event, rfl⟩
    · obtain ⟨hrule, hheld, -, -⟩ := Rule.heldAtExit_mem_exit.1 h
      exact .heldAtExit hexit hrule hheld
    · exact .plain trivial

/-! ### Nothing is missed -/

theorem exists_acquired_mem (h : p.Acquires m v) (ids : Supply) :
    ∃ location name, location.point = m.point ∧
      .acquired v location name ∈ (p.process m ids).observations := by
  obtain ⟨hlock, node, hnode, hshown⟩ := h
  obtain ⟨block, hblock, hat⟩ := Option.bind_eq_some_iff.1 hnode
  replace hlock : node.instruction.lock? .lockAcquire m.state = some v := by
    simpa [lock?, hnode] using hlock
  have heffect : ∃ effect, node.instruction.stackEffect = some effect := by
    cases hi : node.instruction with
    | invocation method argCount => exact ⟨_, rfl⟩
    | _ => simp [hi, Instruction.lock?] at hlock
  obtain ⟨effect, heffect⟩ := heffect
  obtain ⟨more, -, heq⟩ := p.observations_processNode m.point m.state ids heffect
  obtain ⟨name, hmem⟩ := Rule.exists_acquired_mem_before hlock hshown
  refine ⟨(p.site m.point node.span).location, name, rfl, ?_⟩
  simp only [process, hblock, hat]
  rw [heq]
  exact List.mem_append_left _ hmem

theorem exists_heldAtExit_mem (hexit : p.graph.Exits m.point) (hrule : .lockRelease ∈ p.rules)
    (hheld : m.state.has v .held) (ids : Supply) :
    ∃ name exit, .heldAtExit v name exit ∈ (p.process m ids).observations := by
  obtain ⟨span, hprocess⟩ := p.process_of_exits hexit
  rw [show p.process m ids = _ from hprocess m.state ids]
  exact ⟨_, _, Rule.heldAtExit_mem_exit.2 ⟨hrule, hheld, rfl, rfl⟩⟩

theorem exists_decided_mem (h : p.Decides m outcome) (ids : Supply) :
    ∃ location, location.point = m.point ∧
      .decided location outcome ∈ (p.process m ids).observations := by
  obtain ⟨hrule, hliteral, hadmits⟩ := h
  unfold admits Graph.tested? at hadmits
  cases hblock : p.graph.block? m.point.block with
  | none => simp [hblock] at hadmits
  | some block =>
    simp only [hblock] at hadmits
    split at hadmits
    · next onTrue onFalse hterminator =>
      split at hadmits
      · next hoffset =>
        cases hpop : m.state.pop with
        | error fault => simp [hpop, Except.toOption] at hadmits
        | ok r =>
          obtain ⟨t, v⟩ := r
          have hstates : p.solver.assume t v (.bool outcome) ≠ [] := by
            simpa [hpop, Except.toOption] using hadmits
          obtain ⟨u, hu⟩ := List.exists_mem_of_ne_nil _ hstates
          have hliteral : isLiteralCondition block = false := by
            simpa [Graph.testsLiteral, hblock] using hliteral
          have hnode : block.nodes[m.point.offset]? = none := List.getElem?_eq_none (by omega)
          refine ⟨⟨m.point, block.lastSpan⟩, rfl, ?_⟩
          simp only [process, hblock, hnode, if_pos hoffset, processTerminator, hterminator,
            processBranch, hpop, depart_condition]
          have hway : ∃ way ∈ BranchKind.condition.ways onTrue onFalse, way.outcome = outcome := by
            cases outcome with
            | true => exact ⟨_, List.mem_cons_self, rfl⟩
            | false => exact ⟨_, List.mem_cons_of_mem _ List.mem_cons_self, rfl⟩
          obtain ⟨way, hway, rfl⟩ := hway
          refine List.mem_flatMap.2 ⟨_, List.mem_map_of_mem hway, List.mem_flatMap.2 ⟨u, hu, ?_⟩⟩
          rw [hliteral]
          exact Rule.decided_mem_condition hrule
      · simp at hadmits
    · simp at hadmits

/-! ### What a step has to say about a condition and about a lock -/

theorem any_decides_iff {point : ProgramPoint} :
    ((p.process m ids).observations.any fun o => o.decides point outcome) ↔
      m.point = point ∧ p.Decides m outcome := by
  rw [List.any_eq_true]
  constructor
  · rintro ⟨o, ho, hdecides⟩
    cases notices_of_mem ho with
    | plain hplain => rw [hplain.decides_eq_false] at hdecides; cases hdecides
    | @decided location way h hpoint =>
      obtain ⟨rfl, rfl⟩ : location.point = point ∧ way = outcome := by
        simpa [Observation.decides] using hdecides
      exact ⟨hpoint.symm, h⟩
    | acquired | heldAtExit => cases hdecides
  · rintro ⟨rfl, h⟩
    obtain ⟨location, hpoint, hmem⟩ := exists_decided_mem h ids
    exact ⟨_, hmem, by simp [Observation.decides, hpoint]⟩

/-- What a step says about where a lock is taken. -/
theorem acquires_of_findSome? {a : Acquisition}
    (hfirst : (p.process m ids).observations.findSome? (fun o => o.acquisition? v) = some a) :
    p.Acquires m v ∧ a.location.point = m.point := by
  obtain ⟨o, ho, ha⟩ := List.exists_of_findSome?_eq_some hfirst
  cases notices_of_mem ho with
  | plain hplain => rw [hplain.acquisition?_eq_none] at ha; cases ha
  | @acquired lock location name h hpoint =>
    simp only [Observation.acquisition?, Option.ite_none_right_eq_some, Option.some.injEq] at ha
    obtain ⟨rfl, rfl⟩ := ha
    exact ⟨h, hpoint⟩
  | decided | heldAtExit => cases ha

theorem isSome_findSome?_of_acquires (h : p.Acquires m v) (ids : Supply) :
    ((p.process m ids).observations.findSome? fun o => o.acquisition? v).isSome := by
  obtain ⟨location, name, -, hmem⟩ := exists_acquired_mem h ids
  exact List.findSome?_isSome_iff.2 ⟨_, hmem, by simp [Observation.acquisition?]⟩

end Plan

/-! ### The ledger of an exploration -/

/-- The ledger was written by processing the nodes in order, each with some supply of unknowns. -/
inductive Plan.Records (p : Plan) : List ExplodedNode → Ledger → Prop where
  | empty : Records p [] .empty
  | step {done : List ExplodedNode} {l : Ledger} (h : Records p done l) (n : ExplodedNode)
      (ids : Supply) : Records p (done ++ [n]) (l.noteAll (p.process n ids).observations)

namespace Plan.Records

variable {done : List ExplodedNode} {l : Ledger}

/-- The ledger knows all the ways that conditions have gone. -/
theorem seen_iff (h : p.Records done l) (point : ProgramPoint) (outcome : Bool) :
    l.seen point outcome ↔ ∃ n ∈ done, n.point = point ∧ p.Decides n outcome := by
  induction h with
  | empty => simp [Ledger.seen, Ledger.empty]
  | step _ n ids ih =>
    rw [Ledger.seen_noteAll, Bool.or_eq_true, ih, Plan.any_decides_iff]
    simp [or_and_right, exists_or]

/-- Steps publish defects under their own names, and locks that are held at an exit. -/
theorem rule_of_mem_entries (h : p.Records done l) :
    ∀ x ∈ l.log.entries, x.1.rule ∈ LockRelease.rule :: Rule.defectNames := by
  induction h with
  | empty => exact fun x hx => absurd hx List.not_mem_nil
  | step _ n ids ih =>
    intro x hx
    rw [Ledger.entries_noteAll] at hx
    rcases List.mem_append.1 hx with hx | hx
    · exact ih x hx
    · obtain ⟨l, o, ho, hrequest⟩ := Ledger.exists_of_mem_published hx
      cases Plan.notices_of_mem ho with
      | plain hplain =>
        cases o with
        | defect finding value =>
          cases hrequest
          exact List.mem_cons_of_mem _ hplain
        | journal => cases hrequest
        | _ => exact hplain.elim
      | heldAtExit =>
        obtain ⟨a, -, rfl⟩ := Option.map_eq_some_iff.1 hrequest
        exact List.mem_cons_self
      | acquired | decided => cases hrequest

end Plan.Records

namespace Exploration

variable {e e' : Exploration} {next added : List ExplodedNode} {count : Nat} {w : Watchdog}

/-- Nothing was processed and nothing is written down. -/
structure Fresh (e : Exploration) : Prop where
  steps : e.steps = 0
  ledger : e.ledger = .empty

theorem Fresh.processed (h : e.Fresh) : e.processed = [] := by
  rw [Exploration.processed, h.steps, List.take_zero]

theorem Fresh.records (h : e.Fresh) : p.Records e.processed e.ledger := by
  rw [h.processed, h.ledger]
  exact .empty

theorem Runs.records (h : Runs p count e e') (he : e.Fresh) : p.Records e'.processed e'.ledger := by
  refine h.invariant (P := fun e => p.Records e.processed e.ledger) ?_ he.records
  intro m next added e e' hstep ih
  rw [hstep.processed, hstep.ledger]
  exact ih.step m e.ids

theorem Runs.seen_iff (h : Runs p count e e') (he : e.Fresh) (point : ProgramPoint)
    (outcome : Bool) :
    e'.ledger.seen point outcome ↔ ∃ n ∈ e'.processed, n.point = point ∧ p.Decides n outcome :=
  (h.records he).seen_iff point outcome

theorem Runs.rule_of_mem_entries (h : Runs p count e e') (he : e.Fresh) :
    ∀ x ∈ e'.ledger.log.entries, x.1.rule ∈ LockRelease.rule :: Rule.defectNames :=
  (h.records he).rule_of_mem_entries

/-- Also a step that ends in a fault has processed its node, and what was noticed is written
down. -/
theorem records_advance (hhead : e.nodes[e.steps]? = some m) (he : p.Records e.processed e.ledger) :
    p.Records (e.advance p m).1.processed (e.advance p m).1.ledger := by
  obtain ⟨added, ids, hadvance⟩ := exists_advance_eq p e m
  have hget : e.nodes.toList[e.steps]? = some m := Array.getElem?_toList ▸ hhead
  have hlt : e.steps < e.nodes.toList.length := (List.getElem?_eq_some_iff.1 hget).1
  have hnodes : (e.nodes ++ added).toList = e.nodes.toList ++ added := by simp
  have hprocessed : (e.advance p m).1.processed = e.processed ++ [m] := by
    rw [hadvance]
    show (e.nodes ++ added).toList.take (e.steps + 1) = e.nodes.toList.take e.steps ++ [m]
    rw [hnodes, List.take_append_of_le_length hlt, List.take_add_one, hget]
    rfl
  rw [hprocessed, ledger_advance]
  exact he.step m e.ids

theorem records_run (p : Plan) (w : Watchdog) (budget : Nat)
    (he : p.Records e.processed e.ledger) :
    p.Records (run p w budget e).1.processed (run p w budget e).1.ledger := by
  induction budget generalizing e with
  | zero =>
    cases hhead : e.nodes[e.steps]? with
    | none =>
      rw [run_of_done hhead]
      exact he
    | some m =>
      rw [run_of_spent hhead]
      exact he
  | succ budget ih =>
    cases hhead : e.nodes[e.steps]? with
    | none =>
      rw [run_of_done hhead]
      exact he
    | some m =>
      obtain ⟨asked, hasked⟩ := poll_eq w e
      cases hgo : (e.poll w).1 with
      | true =>
        rw [run_of_stop hhead hgo, hasked]
        exact he
      | false =>
        have hadvance := records_advance (e := { e with asked }) (p := p) hhead he
        rw [run_of_go hhead hgo, hasked]
        split
        · next e' fault heq =>
          rw [heq] at hadvance
          exact hadvance
        · next e' heq =>
          rw [heq] at hadvance
          exact ih hadvance

end Exploration

/-! ### Walks -/

/-- A walk that was made without a fault: the steps that it took, and what it has written down. -/
structure Walk.Made (p : Plan) (w : Watchdog) (ids : Supply) (completion : Completion)
    (e e' : Exploration) : Prop where
  start : (new p w ids).start = .ok e
  runs : ∃ count, Exploration.Runs p count e e'
  processed : (new p w ids).run.1.exploration.processed = e'.processed
  ledger : (new p w ids).run.1.exploration.ledger =
    e'.ledger.finish p.rules (.start p.graph.entry) completion
  complete : completion = .complete → e'.processed = e'.nodes.toList

namespace Walk

variable {w : Watchdog}

theorem fresh_of_start {e : Exploration} (h : (new p w ids).start = .ok e) : e.Fresh := by
  obtain ⟨s, hs⟩ := started_of_start h
  exact ⟨hs.steps, ledger_of_start h⟩

/-- However a walk ends, its ledger was written by processing its nodes, and then closed. -/
theorem exists_records (p : Plan) (w : Watchdog) (ids : Supply) :
    ∃ e, p.Records (new p w ids).run.1.exploration.processed e.ledger ∧
      (new p w ids).run.1.exploration.ledger = closingLedger p (e, (new p w ids).run.2) := by
  cases hstart : (new p w ids).start with
  | error fault =>
    obtain ⟨hresult, hexploration⟩ := run_of_start_error hstart
    rw [hresult, hexploration]
    exact ⟨.empty ids, .empty, rfl⟩
  | ok e =>
    obtain ⟨hresult, hexploration⟩ := run_of_start hstart
    rw [hresult, hexploration]
    exact ⟨_, Exploration.records_run p w _ (fresh_of_start hstart).records, rfl⟩

theorem exists_made {completion : Completion} (h : (new p w ids).run.2 = .ok completion) :
    ∃ e e', Made p w ids completion e e' := by
  cases hstart : (new p w ids).start with
  | error fault => rw [(run_of_start_error hstart).1] at h; cases h
  | ok e =>
    obtain ⟨hresult, hexploration⟩ := run_of_start hstart
    have hends := Exploration.ends_run p w p.config.maxSteps e
    rw [hresult] at h
    generalize e.run p w p.config.maxSteps = r at hends hexploration h
    cases hends with
    | @complete count e' hruns hcount hend =>
      cases h
      exact ⟨e, e', hstart, ⟨_, hruns⟩, by rw [hexploration]; rfl, by rw [hexploration]; rfl,
        fun _ => List.take_of_length_le (by simpa using hend)⟩
    | @exhausted e' m hruns hhead =>
      cases h
      exact ⟨e, e', hstart, ⟨_, hruns⟩, by rw [hexploration]; rfl, by rw [hexploration]; rfl,
        fun h => by cases h⟩
    | @cancelled count e' asked hruns hcount =>
      cases h
      exact ⟨e, e', hstart, ⟨_, hruns⟩, by rw [hexploration]; rfl, by rw [hexploration]; rfl,
        fun h => by cases h⟩
    | fault => cases h

end Walk

end Pathwise
