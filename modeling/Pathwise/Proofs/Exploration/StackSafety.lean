import Pathwise.Proofs.Exploration.Run

/-!
Which graphs can be explored without a fault. A graph is consistent if a depth of the stack can be
given for the start of every block so that all instructions find their operands and all edges lead
from the depth at the end of one block to the depth at the start of another. This is what a
bytecode verifier checks, and it is decided by the graph alone.

A walk through a consistent graph never fails, with one exception that the depths do not show: a
conditional access that pushes its result leaves the depth as it was on both edges, so it may stand
where the stack is empty, and then there is nothing to test. The depths tell nothing about
instructions that take more operands than can be counted, so there may be none of these.
-/

namespace Pathwise

/-! ### Consistent graphs -/

/-- The depth of the stack behind some nodes, if all of them find their operands. -/
def depthAfter : Nat → List Node → Option Nat
  | depth, [] => some depth
  | depth, n :: rest =>
    match n.instruction.stackEffect with
    | none => none
    | some effect =>
      if effect.pops ≤ depth then depthAfter (depth - effect.pops + effect.pushes) rest else none

/-- Do the edges of a block lead from the depth at its end to the depths at their targets? -/
def Block.Fits (depth : BlockId → Nat) (id : BlockId) (b : Block) : Prop :=
  ∃ final, depthAfter (depth id) b.nodes = some final ∧
    ∀ edge ∈ b.terminator.edges, (final : Int) + edge.2 = depth edge.1

instance (depth : BlockId → Nat) (id : BlockId) (b : Block) : Decidable (b.Fits depth id) :=
  match h : depthAfter (depth id) b.nodes with
  | none => .isFalse fun ⟨_, hfinal, _⟩ => absurd (h.symm.trans hfinal) (by simp)
  | some final =>
    decidable_of_iff (∀ edge ∈ b.terminator.edges, (final : Int) + edge.2 = depth edge.1)
      ⟨fun hedges => ⟨final, h, hedges⟩, fun ⟨_, hfinal, hedges⟩ =>
        Option.some.inj (h.symm.trans hfinal) ▸ hedges⟩

/-- The method is entered with an empty stack, and the given depths fit every block. -/
def Graph.Consistent (g : Graph) (depth : BlockId → Nat) : Prop :=
  depth g.entry = 0 ∧ ∀ (i : Nat) (h : i < g.blocks.length), (g.blocks[i]).Fits depth ⟨i⟩

instance (g : Graph) (depth : BlockId → Nat) : Decidable (g.Consistent depth) :=
  inferInstanceAs (Decidable (_ ∧ _))

/-- Every symbol that a node or a case label refers to is declared. -/
def Graph.Declared (g : Graph) : Prop :=
  ∀ b ∈ g.blocks, (∀ n ∈ b.nodes, ∀ id ∈ n.instruction.symbols, (g.symbols.get? id).isSome) ∧
    ∀ id ∈ b.terminator.defines, (g.symbols.get? id).isSome

instance (g : Graph) : Decidable g.Declared :=
  inferInstanceAs (Decidable (∀ b ∈ g.blocks, _ ∧ _))

/-- The operands of every instruction can be counted. -/
def Graph.CountsOperands (g : Graph) : Prop :=
  ∀ b ∈ g.blocks, ∀ n ∈ b.nodes, n.instruction.taken < UInt64.size

instance (g : Graph) : Decidable g.CountsOperands :=
  inferInstanceAs (Decidable (∀ b ∈ g.blocks, ∀ n ∈ b.nodes, _))

theorem Graph.Consistent.fits {g : Graph} {depth : BlockId → Nat} (h : g.Consistent depth)
    {id : BlockId} {b : Block} (hb : g.block? id = some b) : b.Fits depth id := by
  obtain ⟨hi, rfl⟩ := List.getElem?_eq_some_iff.1 hb
  exact h.2 id.index hi

theorem depthAfter_append (depth : Nat) (xs ys : List Node) :
    depthAfter depth (xs ++ ys) = (depthAfter depth xs).bind fun d => depthAfter d ys := by
  fun_induction depthAfter depth xs with
  | case1 => rfl
  | case2 depth n rest h => simp [depthAfter, h]
  | case3 depth n rest effect h hpops ih => simp [depthAfter, h, hpops, ih]
  | case4 depth n rest effect h hpops => simp [depthAfter, h, hpops]

/-- The depth behind one more node, if its operands are there. -/
theorem depthAfter_take_succ {depth d k : Nat} {nodes : List Node} {node : Node}
    {effect : StackEffect} (hnode : nodes[k]? = some node)
    (heffect : node.instruction.stackEffect = some effect)
    (hd : depthAfter depth (nodes.take k) = some d) (hpops : effect.pops ≤ d) :
    depthAfter depth (nodes.take (k + 1)) = some (d - effect.pops + effect.pushes) := by
  rw [List.take_add_one, hnode, depthAfter_append, hd]
  simp [depthAfter, heffect, hpops]

/-- Where the depth at the end is known, every node on the way finds its operands. -/
theorem exists_effect_of_depthAfter {depth d final k : Nat} {nodes : List Node} {node : Node}
    (hfinal : depthAfter depth nodes = some final) (hnode : nodes[k]? = some node)
    (hd : depthAfter depth (nodes.take k) = some d) :
    ∃ effect, node.instruction.stackEffect = some effect ∧ effect.pops ≤ d := by
  obtain ⟨hk, rfl⟩ := List.getElem?_eq_some_iff.1 hnode
  rw [← List.take_append_drop k nodes, depthAfter_append, hd,
    List.drop_eq_getElem_cons hk] at hfinal
  cases heffect : (nodes[k]).instruction.stackEffect with
  | none => simp [depthAfter, heffect] at hfinal
  | some effect =>
    refine ⟨effect, rfl, ?_⟩
    by_contra hpops
    simp [depthAfter, heffect, hpops] at hfinal

/-! ### Nodes at the right depth -/

/-- The node stands at a point of the graph, and its stack is as deep as the depths say. -/
def Graph.Sound (g : Graph) (depth : BlockId → Nat) (n : ExplodedNode) : Prop :=
  ∃ block, g.block? n.point.block = some block ∧ n.point.offset ≤ block.nodes.length ∧
    depthAfter (depth n.point.block) (block.nodes.take n.point.offset) = some n.state.stack.length

section

variable {g : Graph} {depth : BlockId → Nat} {m n : ExplodedNode}

theorem Graph.sound_start {id : BlockId} {b : Block} (hb : g.block? id = some b)
    (hpoint : n.point = .start id) (hstack : n.state.stack.length = depth id) :
    g.Sound depth n := by
  rw [Graph.Sound, hpoint, hstack]
  exact ⟨b, hb, Nat.zero_le _, rfl⟩

theorem Graph.Sound.marked (h : g.Sound depth n) : g.Sound depth n.marked := h

/-- A step leads from sound nodes to sound nodes. -/
theorem Graph.Sound.advance (hg : g.Closed) (hdepth : g.Consistent depth) (hm : g.Sound depth m)
    (h : g.Advances m n) : g.Sound depth n := by
  obtain ⟨block, hblock, hoffset, hd⟩ := hm
  cases h with
  | instruction hblock' hnode heffect hpoint hstate =>
    obtain rfl := Option.some.inj (hblock.symm.trans hblock')
    have hnext := depthAfter_take_succ hnode heffect hd hstate.enough
    have hlength := hstate.length
    have henough := hstate.enough
    rw [Graph.Sound, hpoint]
    refine ⟨block, hblock, ?_, ?_⟩
    · exact (List.getElem?_eq_some_iff.1 hnode).1
    · show depthAfter _ (block.nodes.take (m.point.offset + 1)) = _
      rw [show ProgramPoint.block m.point.next = m.point.block from rfl, hnext]
      congr 1
      omega
  | edge hblock' hend hedge hfollows =>
    obtain rfl := Option.some.inj (hblock.symm.trans hblock')
    obtain ⟨target, htarget⟩ :=
      hg.exists_block hblock (Terminator.mem_successors_of_mem_edges hedge)
    obtain ⟨final, hfinal, hedges⟩ := hdepth.fits hblock
    rw [hend, List.take_length, hfinal] at hd
    have hfinal : final = m.state.stack.length := Option.some.inj hd
    have hedge := hedges _ hedge
    have hn := hfollows.depth
    exact Graph.sound_start htarget hfollows.point (by omega)

theorem Terminator.pops_le_one (t : Terminator) : t.pops ≤ 1 := by
  rcases t with ⟨_, _ | hasOperand | hasOperand | hasOperand | _⟩ | _ | _ | _
  · exact Nat.zero_le 1
  · exact hasOperand.toNat_le
  · exact hasOperand.toNat_le
  · exact hasOperand.toNat_le
  · exact Nat.le_refl 1
  · exact Nat.le_refl 1
  · exact Nat.zero_le 1
  · exact Nat.zero_le 1

/-- A terminator that takes a value has an edge on which it is not made up for, unless it is a
conditional access that pushes its result. -/
theorem Terminator.exists_edge_of_pops {t : Terminator} (h : 0 < t.pops) :
    (∃ target, (target, -1) ∈ t.edges) ∨
      ∃ onTrue onFalse, t = .branch (.conditionalAccess true) onTrue onFalse := by
  cases t with
  | jump target kind =>
    have hone : kind.pops = 1 := Nat.le_antisymm (pops_le_one (.jump target kind)) h
    exact .inl ⟨target, by simp [edges, hone]⟩
  | branch kind onTrue onFalse =>
    cases kind with
    | logicalOr pushResult => exact .inl ⟨onFalse, by simp [edges, BranchKind.edges]⟩
    | conditionalAccess pushResult =>
      cases pushResult with
      | true => exact .inr ⟨onTrue, onFalse, rfl⟩
      | false => exact .inl ⟨onTrue, by simp [edges, BranchKind.edges]⟩
    | caseLabel pattern =>
      refine .inl ⟨onTrue, ?_⟩
      cases pattern <;> simp [edges, BranchKind.edges]
    | _ => exact .inl ⟨onTrue, by simp [edges, BranchKind.edges]⟩
  | fork | exit => exact absurd h (by simp [pops])

/-- A point at which a conditional access that pushes its result finds the stack empty. -/
def Graph.BareAccess (g : Graph) (depth : BlockId → Nat) (point : ProgramPoint) : Prop :=
  ∃ block onTrue onFalse, g.block? point.block = some block ∧
    point.offset = block.nodes.length ∧
    block.terminator = .branch (.conditionalAccess true) onTrue onFalse ∧
    depthAfter (depth point.block) block.nodes = some 0

theorem Graph.Declared.not_undeclared {p : Plan} {ids : List SymbolId} {fault : Fault}
    (h : ∀ id ∈ ids, (p.graph.symbols.get? id).isSome) : ¬p.transfer.Undeclared ids fault := by
  rintro ⟨id, hid, -, hnone⟩
  have hsome := h id hid
  rw [show p.graph.symbols.get? id = none from hnone] at hsome
  exact absurd hsome (by simp)

/-- At a sound node nothing is wrong, or the node is at a conditional access without a value. -/
theorem Plan.Defect.bareAccess {p : Plan} {fault : Fault} (hdepth : p.graph.Consistent depth)
    (hdeclared : p.graph.Declared) (hcounted : p.graph.CountsOperands) (hm : p.graph.Sound depth m)
    (h : p.Defect m fault) :
    fault = .noSuchStackFrame 0 ∧ p.graph.BareAccess depth m.point := by
  obtain ⟨block, hblock, hoffset, hd⟩ := hm
  obtain ⟨final, hfinal, hedges⟩ := hdepth.fits hblock
  have hsymbols := hdeclared block (List.mem_of_getElem? hblock)
  have hcounted := hcounted block (List.mem_of_getElem? hblock)
  cases h with
  | block hnone => exact absurd (hnone.symm.trans hblock) (by simp)
  | offset hblock' hbeyond =>
    obtain rfl := Option.some.inj (hblock.symm.trans hblock')
    omega
  | unsupported hblock' hnode hkind =>
    obtain rfl := Option.some.inj (hblock.symm.trans hblock')
    obtain ⟨effect, heffect, -⟩ := exists_effect_of_depthAfter hfinal hnode hd
    rw [hkind] at heffect
    cases heffect
  | instruction hblock' hnode heffect hcause =>
    obtain rfl := Option.some.inj (hblock.symm.trans hblock')
    obtain ⟨effect, heffect', hpops⟩ := exists_effect_of_depthAfter hfinal hnode hd
    obtain rfl := Option.some.inj (heffect.symm.trans heffect')
    rcases hcause with hundeclared | ⟨-, -, -, hshort⟩
    · have hsome := hsymbols.1 _ (List.mem_of_getElem? hnode)
      exact absurd hundeclared (Graph.Declared.not_undeclared hsome)
    · have htaken := Instruction.taken_eq_pops heffect (hcounted _ (List.mem_of_getElem? hnode))
      omega
  | uncounted hblock' hnode hmany =>
    obtain rfl := Option.some.inj (hblock.symm.trans hblock')
    exact absurd (hcounted _ (List.mem_of_getElem? hnode)) (Nat.not_lt.2 hmany.many)
  | terminator hblock' hend hcause =>
    obtain rfl := Option.some.inj (hblock.symm.trans hblock')
    rw [hend, List.take_length, hfinal] at hd
    have hd : final = m.state.stack.length := Option.some.inj hd
    rcases hcause with hundeclared | ⟨position, hposition, rfl, hshort⟩
    · exact absurd hundeclared (Graph.Declared.not_undeclared hsymbols.2)
    · have hone := block.terminator.pops_le_one
      obtain rfl : position = 0 := by omega
      obtain rfl : final = 0 := by omega
      refine ⟨rfl, ?_⟩
      -- from an empty stack an edge that takes a value would lead to a negative depth
      rcases Terminator.exists_edge_of_pops (Nat.lt_of_le_of_lt (Nat.zero_le _) hposition) with
        ⟨target, htarget⟩ | ⟨onTrue, onFalse, haccess⟩
      · have := hedges _ htarget
        omega
      · exact ⟨block, onTrue, onFalse, hblock, hend, haccess, hfinal⟩

theorem Exploration.Started.sound {p : Plan} {ids : Supply} {s : State} {e : Exploration}
    (hg : p.graph.Closed) (hdepth : p.graph.Consistent depth) (h : Exploration.Started p ids s e) :
    ∀ n ∈ e.nodes.toList, p.graph.Sound depth n := by
  intro n hn
  obtain ⟨n₀, hn₀, -, rfl⟩ := h.reaches.joined n hn
  obtain rfl := List.mem_singleton.1 hn₀
  obtain ⟨b, hb⟩ := hg.exists_entry
  have hlength : s.stack.length = depth p.graph.entry := by
    rw [h.stack, hdepth.1]
    rfl
  exact (Graph.sound_start hb rfl hlength).marked

end

/-- A walk through a consistent graph does not fail, but for a conditional access that finds the
stack empty: whatever the limits, the rules, the watchdog and the supply of unknowns. -/
theorem Walk.run_ok_or_bareAccess {g : Graph} (hg : g.Built) {depth : BlockId → Nat}
    (hdepth : g.Consistent depth) (hdeclared : g.Declared) (hcounted : g.CountsOperands)
    (config : Config) (rules : List Rule) (w : Watchdog) (ids : Supply) :
    (∃ completion, (Walk.new (.of g config rules) w ids).run.2 = .ok completion) ∨
      ∃ point, g.BareAccess depth point ∧
        (Walk.new (.of g config rules) w ids).run.2 = .error ⟨point, .noSuchStackFrame 0⟩ := by
  have hclosed := hg.closed
  obtain ⟨s, e, r, -, hs, hr, hrun, -⟩ := Walk.exists_ends (p := .of g config rules) hclosed w ids
  rw [hrun]
  cases hr with
  | complete => exact .inl ⟨_, rfl⟩
  | exhausted => exact .inl ⟨_, rfl⟩
  | cancelled => exact .inl ⟨_, rfl⟩
  | @fault _ e' _ m fault hruns _ hhead hfault =>
    have hsound := hruns.invariant
      (P := fun e => ∀ n ∈ e.nodes.toList, g.Sound depth n)
      (fun hstep => hstep.forall_nodes fun hm h _ => (hm.advance hclosed hdepth h).marked)
      (hs.sound hclosed hdepth)
    have hm := hsound m (Exploration.mem_of_head hhead)
    have hmeets := (Plan.of g config rules).process_meets m e'.ids
    rw [hfault] at hmeets
    obtain ⟨rfl, hbare⟩ := Plan.Defect.bareAccess hdepth hdeclared hcounted hm hmeets
    exact .inr ⟨m.point, hbare, rfl⟩

/-- A method that evaluates `s?.Next` any number of times. -/
def accessLoop : Graph where
  method := "loop"
  blocks :=
    [⟨[⟨.read ⟨0⟩ false, none⟩], .branch (.conditionalAccess true) ⟨2⟩ ⟨1⟩⟩,
     ⟨[⟨.memberAccess ⟨1⟩ .receiver, none⟩], .jump ⟨2⟩ .plain⟩,
     ⟨[⟨.discard, none⟩], .fork [⟨0⟩, ⟨3⟩]⟩,
     Draft.exitBlock]
  entry := ⟨0⟩
  exit := ⟨3⟩
  parameters := [⟨0⟩]
  symbols :=
    ⟨[⟨"s", .parameter, ⟨"S", .reference, false, false⟩, false⟩,
      ⟨"Next", .property false .plain, ⟨"S", .reference, false, false⟩, false⟩]⟩

theorem Walk.run_accessLoop :
    accessLoop.Built ∧ accessLoop.Declared ∧ accessLoop.CountsOperands ∧
      accessLoop.Consistent (fun id => [0, 1, 1, 0].getD id.index 0) ∧
      ∃ completion, (Walk.new (.of accessLoop .default [.nullDereference]) .lazy .odd).run.2 =
        .ok completion := by
  have hbuilt : accessLoop.Built :=
    ⟨.ofBlocks "loop" accessLoop.symbols.symbols (accessLoop.blocks.take 3), ⟨0⟩,
      Draft.made_ofBlocks _ _ _, rfl⟩
  have hdepth : accessLoop.Consistent (fun id => [0, 1, 1, 0].getD id.index 0) := by decide
  have hdeclared : accessLoop.Declared := by decide
  have hcounted : accessLoop.CountsOperands := by decide
  refine ⟨hbuilt, hdeclared, hcounted, hdepth, ?_⟩
  rcases Walk.run_ok_or_bareAccess hbuilt hdepth hdeclared hcounted .default [.nullDereference]
    .lazy .odd with hok | ⟨point, ⟨block, onTrue, onFalse, hblock, -, haccess, hbare⟩, -⟩
  · exact hok
  · obtain ⟨⟨index⟩, offset⟩ := point
    match index, hblock with
    | 0, hblock =>
      obtain rfl := Option.some.inj hblock
      cases hbare
    | 1, hblock | 2, hblock | 3, hblock =>
      obtain rfl := Option.some.inj hblock
      cases haccess

/-- A method that consists of a conditional access without anything to access. -/
def bareAccess : Graph :=
  ⟨"bare", [⟨[], .branch (.conditionalAccess true) ⟨1⟩ ⟨1⟩⟩, Draft.exitBlock], ⟨0⟩, ⟨1⟩, [], .empty⟩

/-- Consistent depths do not rule out every fault. -/
theorem bareAccess_fails :
    bareAccess.Built ∧ bareAccess.Declared ∧ bareAccess.CountsOperands ∧
      bareAccess.Consistent (fun _ => 0) ∧
      (Walk.new (.of bareAccess .default []) .lazy .odd).run.2 =
        .error ⟨⟨⟨0⟩, 0⟩, .noSuchStackFrame 0⟩ :=
  ⟨⟨.ofBlocks "bare" [] (bareAccess.blocks.take 1), ⟨0⟩, Draft.made_ofBlocks _ _ _, rfl⟩,
    by decide, by decide, by decide, by decide +kernel⟩

end Pathwise
