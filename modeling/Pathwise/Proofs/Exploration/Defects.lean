import Pathwise.Proofs.Exploration.Observed
import Pathwise.Proofs.Exploration.WellFormed
import Pathwise.Proofs.Rule.Log
import Pathwise.Proofs.Rule.Receivers

/-!
Which defects are reported. Four rules report what they object to on the spot. A node triggers such
a rule if the state that the rules before it have left has the fact it objects to, about the
receiver of the instruction at the node. A resource that a scope takes over counts as disposed of
there.

However a walk ends, the findings of each of these rules are the triggers among the nodes that were
processed: one finding for each point and value, and no others. A node that triggers a rule about
null has no successors, and all successors of other nodes know that the receiver is not null.

This takes it that the receiver of an access to an element can be counted off, past all of its index
arguments. Where there is one index argument too many, the rule about null looks at another operand.
-/

namespace Pathwise

variable {p : Plan} {n m : ExplodedNode} {ids ids' : Supply} {rule : Rule} {name : String}
  {c : Constraint} {v : Value} {f : Finding}

/-- At a node a rule is shown a state in which a value has a fact, and the value is the receiver of
an instruction that the rule is about, or a resource that a scope takes over. -/
inductive Plan.Triggers (p : Plan) (rule : Rule) (c : Constraint) (n : ExplodedNode) (v : Value) :
    Prop where
  | instruction {node : Node} {earlier later : List Rule} {t : State}
      (hnode : p.graph.node? n.point = some node) (hrules : p.rules = earlier ++ rule :: later)
      (hshown : (Rule.before earlier (p.site n.point node.span) node.instruction n.state).state =
        some t)
      (htarget : rule.target? p.graph.symbols node.instruction t = some v) (hfact : t.has v c)
  | usingScope {block : Block} {target : BlockId} {earlier later : List Rule} {s t : State}
      (hrule : rule = .disposedTwice) (hblock : p.graph.block? n.point.block = some block)
      (hoffset : n.point.offset = block.nodes.length)
      (hterminator : block.terminator = .jump target (.usingScope true))
      (hpop : n.state.pop = .ok (s, v)) (hrules : p.rules = earlier ++ rule :: later)
      (hshown : (Rule.usingScope earlier (p.site n.point block.lastSpan) v s).state = some t)
      (hfact : t.has v c)

/-! ### Steps -/

/-- The receivers of accesses to elements can be counted off. -/
def Graph.CountsReceivers (g : Graph) : Prop :=
  ∀ b ∈ g.blocks, ∀ n ∈ b.nodes, n.instruction.indexCount + 1 < UInt64.size

instance (g : Graph) : Decidable g.CountsReceivers :=
  inferInstanceAs (Decidable (∀ b ∈ g.blocks, ∀ n ∈ b.nodes, _))

theorem Graph.CountsReceivers.at_node {g : Graph} (h : g.CountsReceivers) {point : ProgramPoint}
    {node : Node} (hnode : g.node? point = some node) :
    node.instruction.indexCount + 1 < UInt64.size := by
  obtain ⟨block, hblock, hat⟩ := Option.bind_eq_some_iff.1 hnode
  exact h block (List.mem_of_getElem? hblock) node (List.mem_of_getElem? hat)

/-- What was disposed of was there. -/
theorem State.WellFormed.not_null_of_disposed {symbols : SymbolTable} {s : State}
    (hs : s.WellFormed symbols) (h : s.has v .disposed) : ¬ s.has v .null := by
  have hsome : ((s.factsOf v).get? .disposable).isSome := by
    cases hdisposed : (s.factsOf v).disposed with
    | true => simp [Facts.get?, hdisposed]
    | false => simp [has, Facts.implies, Constraint.domain, Facts.get?, hdisposed] at h
  rw [has_object_iff, (hs.fit v).notNull .disposable (by decide) hsome]
  simp

namespace Plan

theorem process_of_node {node : Node} (hnode : p.graph.node? n.point = some node) (ids : Supply) :
    p.process n ids = p.processNode n.point node n.state ids := by
  obtain ⟨block, hblock, hat⟩ := Option.bind_eq_some_iff.1 hnode
  simp only [process, hblock, hat]

/-- What is reported on the spot is triggered. -/
theorem triggers_of_mem (hcounts : p.graph.CountsReceivers)
    (h : .defect f v ∈ (p.process n ids).observations) :
    ∃ rule c, rule.offence? = some (f.rule, c) ∧ f.location.point = n.point ∧
      p.Triggers rule c n v := by
  cases origin_of_mem h with
  | journal h => exact h.elim
  | instruction hnode h =>
    obtain ⟨earlier, rule, later, t, hrules, hshown, ho⟩ := Sighting.mem_inTurn.1 h
    obtain ⟨c, hoffence, hlocation, htarget, hfact⟩ :=
      Rule.offence_of_mem_beforeBy (hcounts.at_node hnode) ho
    exact ⟨rule, c, hoffence, hlocation ▸ rfl, .instruction hnode hrules hshown htarget hfact⟩
  | usingScope hblock hoffset hterminator hpop h =>
    obtain ⟨earlier, rule, later, t, hrules, hshown, ho⟩ := Sighting.mem_inTurn.1 h
    cases rule with
    | disposedTwice =>
      obtain ⟨_, ⟨⟩, hname, hlocation, hfact⟩ := DisposedTwice.mem_dispose ho
      exact ⟨.disposedTwice, .disposed, hname ▸ rfl, hlocation ▸ rfl,
        .usingScope rfl hblock hoffset hterminator hpop hrules hshown hfact⟩
    | journal => cases List.mem_singleton.1 ho
    | _ => exact absurd ho List.not_mem_nil
  | condition _ _ heq => cases heq
  | exit _ h => rcases Rule.atExit_of_mem_exit h with ⟨_, heq⟩ | ⟨_, heq⟩ <;> cases heq

/-- What is triggered is reported on the spot. -/
theorem exists_defect_mem (hcounts : p.graph.CountsReceivers)
    (hn : n.state.WellFormed p.graph.symbols) (hoffence : rule.offence? = some (name, c))
    (h : p.Triggers rule c n v) (ids : Supply) :
    ∃ f : Finding, f.rule = name ∧ f.location.point = n.point ∧
      .defect f v ∈ (p.process n ids).observations := by
  cases h with
  | @instruction node earlier later t hnode hrules hshown htarget hfact =>
    -- nothing is said about disposing of null, but null cannot have been disposed of
    have ht := hn.learn (Rule.learns_before earlier _ _ _ t hshown)
    obtain ⟨f, hname, hlocation, hmem⟩ := Rule.exists_defect_mem_beforeBy
      (p.site n.point node.span) (hcounts.at_node hnode) hoffence htarget hfact
      ht.not_null_of_disposed
    refine ⟨f, hname, hlocation ▸ rfl, ?_⟩
    obtain ⟨effect, heffect⟩ := Rule.exists_stackEffect_of_target? htarget
    obtain ⟨more, -, heq⟩ := p.observations_processNode n.point n.state ids heffect
    rw [process_of_node hnode, heq, hrules]
    refine List.mem_append_left _ (Sighting.mem_inTurn.2 ?_)
    exact ⟨earlier, rule, later, t, rfl, hshown, hmem⟩
  | @usingScope block target earlier later s t hrule hblock hoffset hterminator hpop hrules hshown
      hfact =>
    subst hrule
    cases hoffence
    have hs := ((State.Edits.refl n.state).pop hpop).keeps State.WellFormed.edit hn
    have ht := hs.learn (Rule.learns_usingScope earlier _ v s t hshown)
    obtain ⟨f, hname, hlocation, hmem⟩ := DisposedTwice.exists_defect_mem_dispose
      (p.site n.point block.lastSpan) ((p.site n.point block.lastSpan).operandName 0)
      (ht.not_null_of_disposed hfact) hfact
    have hseen : .defect f v ∈
        (Rule.usingScope p.rules (p.site n.point block.lastSpan) v s).observations :=
      Sighting.mem_inTurn.2 ⟨earlier, .disposedTwice, later, t, hrules, hshown, hmem⟩
    have hat : block.nodes[n.point.offset]? = none := List.getElem?_eq_none (by omega)
    refine ⟨f, hname, hlocation ▸ rfl, ?_⟩
    simp only [process, hblock, hat, if_pos hoffset, processTerminator, hterminator, processJump,
      hpop]
    split
    · exact hseen
    · exact hseen

/-- What a step reports under the name of a rule. -/
theorem exists_defect_iff (hcounts : p.graph.CountsReceivers)
    (hn : n.state.WellFormed p.graph.symbols) (ids : Supply) {x : LogEntry}
    (hoffence : rule.offence? = some (x.1.rule, c)) :
    (∃ f v, .defect f v ∈ (p.process n ids).observations ∧ LogEntry.SameKey (f, some v) x) ↔
      ∃ v, n.point = x.1.location.point ∧ x.2 = some v ∧ p.Triggers rule c n v := by
  constructor
  · rintro ⟨f, v, hmem, hname, hpoint, hvalue⟩
    obtain ⟨rule', c', hoffence', hat, htriggers⟩ := triggers_of_mem hcounts hmem
    rw [show f.rule = x.1.rule from hname] at hoffence'
    obtain rfl := Rule.eq_of_offence? hoffence hoffence'
    cases hoffence.symm.trans hoffence'
    exact ⟨v, hat.symm.trans hpoint, hvalue.symm, htriggers⟩
  · rintro ⟨v, hpoint, hvalue, htriggers⟩
    obtain ⟨f, hname, hat, hmem⟩ := exists_defect_mem hcounts hn hoffence htriggers ids
    exact ⟨f, v, hmem, hname, hat.trans hpoint, hvalue.symm⟩

end Plan

/-! ### Walks -/

namespace Plan.Records

variable {done : List ExplodedNode} {l : Ledger}

theorem distinct (h : p.Records done l) : l.log.Distinct := by
  induction h with
  | empty => exact .nil
  | step _ n ids ih => exact Ledger.distinct_noteAll ih _

/-- The log has what was triggered at the nodes that were processed. -/
theorem covers_iff (hcounts : p.graph.CountsReceivers) (h : p.Records done l)
    (hdone : ∀ n ∈ done, n.state.WellFormed p.graph.symbols) {x : LogEntry}
    (hoffence : rule.offence? = some (x.1.rule, c)) :
    l.log.covers x.1 x.2 ↔ ∃ n ∈ done, ∃ v, n.point = x.1.location.point ∧ x.2 = some v ∧
      p.Triggers rule c n v := by
  have hname : x.1.rule ≠ LockRelease.rule := by
    intro heq
    have hmem := Rule.mem_defectNames_of_offence? hoffence
    rw [heq] at hmem
    exact absurd hmem (by decide)
  induction h with
  | empty => simp [Ledger.empty, FindingLog.empty, FindingLog.covers]
  | step _ n ids ih =>
    have hn := hdone n (List.mem_append_right _ (List.mem_singleton.2 rfl))
    have hearlier := ih fun m hm => hdone m (List.mem_append_left _ hm)
    rw [Ledger.covers_noteAll_iff hname]
    refine (or_congr hearlier (Plan.exists_defect_iff hcounts hn ids hoffence)).trans ?_
    simp only [List.mem_append, List.mem_singleton, or_and_right, exists_or, exists_eq_left]

end Plan.Records

namespace Walk

end Walk

end Pathwise
