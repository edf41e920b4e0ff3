import Pathwise.Proofs.Exploration.Observed
import Pathwise.Proofs.Exploration.Termination
import Pathwise.Proofs.Transfer.Frame

/-!
Which faults a walk can end in. An instruction whose symbols are declared fails exactly if there are
too few operands for it, and otherwise changes the depth of the stack as its stack effect says. So
no instruction is ever found to leave a stack of the wrong depth. The exceptions are instructions
with one operand too many for a count: these are said to take none, and they fail on every stack
whose values can be counted. In a walk this is every stack, as a step adds at most one value.

Control does not leave a graph that a draft was closed into, so no walk comes to a point that the
graph does not have. What is left are the faults that the graph itself is to blame for: instructions
that are not supported, symbols that are not declared, and operands that are not there.
-/

namespace Pathwise

/-! ### Instructions -/

namespace Transfer

variable {t : Transfer} {i : Instruction} {effect : StackEffect} {s : State} {ids : Supply}

/-- With its symbols declared, an instruction fails only for want of operands. -/
theorem short_of_visit {fault : Fault} (heffect : i.stackEffect = some effect)
    (hdeclared : ∀ id ∈ i.symbols, (t.symbols.get? id).isSome)
    (h : t.visit i s ids = .error fault) : Short s i.taken fault := by
  have hmeets := t.visit_meets heffect s ids
  rw [h] at hmeets
  refine hmeets.resolve_left ?_
  rintro ⟨id, hid, -, hnone⟩
  have hsome := hdeclared id hid
  rw [hnone] at hsome
  cases hsome

/-- An instruction that does not fail has found its operands. -/
theorem leads_of_visit {r : Option (State × Supply)} (heffect : i.stackEffect = some effect)
    (h : t.visit i s ids = .ok r) : Leads i.taken effect.pushes s r := by
  have hmeets := t.visit_meets heffect s ids
  rwa [h] at hmeets

theorem visit_fails_iff (heffect : i.stackEffect = some effect)
    (hdeclared : ∀ id ∈ i.symbols, (t.symbols.get? id).isSome) :
    (∃ fault, t.visit i s ids = .error fault) ↔ s.stack.length < i.taken := by
  constructor
  · rintro ⟨fault, hfault⟩
    obtain ⟨-, -, -, hshort⟩ := short_of_visit heffect hdeclared hfault
    exact hshort
  · intro hshort
    cases hvisit : t.visit i s ids with
    | error fault => exact ⟨fault, rfl⟩
    | ok r =>
      have henough := (leads_of_visit heffect hvisit).1
      omega

/-- The stack effect is right about the depth, unless neither the operands nor the stack can be
counted. -/
theorem length_of_visit {u : State} {ids' : Supply} (heffect : i.stackEffect = some effect)
    (hcounted : i.taken < UInt64.size ∨ s.stack.length < UInt64.size)
    (h : t.visit i s ids = .ok (some (u, ids'))) :
    u.stack.length = s.stack.length - effect.pops + effect.pushes := by
  obtain ⟨henough, hexchanges⟩ := leads_of_visit heffect h
  have hlength := (hexchanges u ids' rfl).length
  have htaken := Instruction.taken_eq_pops heffect
    (hcounted.elim id fun hsize => Nat.lt_of_le_of_lt henough hsize)
  omega

end Transfer

/-! ### Walks -/

/-- At a point of the graph a step fails only for a reason that the graph shows, if the values on
the stack can be counted. -/
theorem Plan.Defect.cases_of_mem_points {p : Plan} {m : ExplodedNode} {fault : Fault}
    (h : p.Defect m fault) (hm : m.point ∈ p.graph.points)
    (hcounted : m.state.stack.length < UInt64.size) :
    (∃ kind node, fault = .unsupportedInstruction kind ∧ p.graph.node? m.point = some node ∧
      node.instruction = .unsupported kind) ∨
    (∃ id, fault = .noSuchSymbol id ∧ p.graph.symbols.get? id = none) ∨
    ∃ depth, fault = .noSuchStackFrame depth := by
  have hcause : ∀ {symbols s pops}, p.transfer.Cause symbols s pops fault →
      (∃ id, fault = .noSuchSymbol id ∧ p.graph.symbols.get? id = none) ∨
        ∃ depth, fault = .noSuchStackFrame depth := by
    rintro symbols s pops (⟨id, -, rfl, hnone⟩ | ⟨depth, -, rfl, -⟩)
    · exact .inl ⟨id, rfl, hnone⟩
    · exact .inr ⟨depth, rfl⟩
  obtain ⟨b, hb, hoffset⟩ := Graph.mem_points.1 hm
  cases h with
  | block hnone =>
    rw [hb] at hnone
    cases hnone
  | offset hblock hbeyond =>
    obtain rfl := Option.some.inj (hb.symm.trans hblock)
    omega
  | @unsupported block node kind hblock hnode hkind =>
    exact .inl ⟨kind, node, rfl, by simp [Graph.node?, hblock, hnode], hkind⟩
  | instruction _ _ _ h => exact .inr (hcause h)
  | uncounted _ _ h => exact absurd (Nat.le_trans h.many h.enough) (Nat.not_le.2 hcounted)
  | terminator _ _ h => exact .inr (hcause h)

/-- Walks through a closed graph stay at its points. -/
theorem Exploration.Runs.mem_points {p : Plan} {ids : Supply} {s : State} {e e' : Exploration}
    {count : Nat} (h : Runs p count e e') (hg : p.graph.Closed) (hs : Started p ids s e) :
    ∀ n ∈ e'.nodes.toList, n.point ∈ p.graph.points := by
  refine h.invariant (P := fun e => ∀ n ∈ e.nodes.toList, n.point ∈ p.graph.points)
    (fun hstep => ?_) fun n hn => (hs.counted hg hn).1.point
  refine hstep.forall_nodes (P := fun n => n.point ∈ p.graph.points) fun {m n} _ hadvances _ => ?_
  show n.point ∈ p.graph.points
  exact hadvances.mem_points hg

/-- No edge adds a value to the stack. -/
theorem Terminator.change_nonpos {t : Terminator} {edge : BlockId × Int} (h : edge ∈ t.edges) :
    edge.2 ≤ 0 := by
  cases t with
  | jump target kind =>
    obtain rfl := List.mem_singleton.1 h
    exact Int.neg_nonpos_of_nonneg (Int.natCast_nonneg _)
  | branch kind onTrue onFalse =>
    rw [edges, BranchKind.edges_eq] at h
    obtain ⟨way, -, rfl⟩ := List.mem_map.1 h
    have hsize : way.residue.size ≤ 1 := by cases way.residue <;> simp [Residue.size]
    dsimp only [Way.change]
    omega
  | fork targets =>
    obtain ⟨target, -, rfl⟩ := List.mem_map.1 h
    exact Int.le_refl 0
  | exit => exact absurd h List.not_mem_nil

/-- A step adds at most one value to the stack. -/
theorem Graph.Advances.length_le {g : Graph} {m n : ExplodedNode} (h : g.Advances m n) :
    n.state.stack.length ≤ m.state.stack.length + 1 := by
  cases h with
  | instruction _ _ heffect _ hstate =>
    have hpushes := Instruction.pushes_le_one heffect
    have hlength := hstate.length
    omega
  | edge _ _ hedge hfollows =>
    have hchange := Terminator.change_nonpos hedge
    have hdepth := hfollows.depth
    omega

/-- There are never more values on a stack than steps were taken. -/
theorem Exploration.Runs.length_le {p : Plan} {ids : Supply} {s : State} {e e' : Exploration}
    {count : Nat} (h : Runs p count e e') (hs : Started p ids s e) :
    ∀ n ∈ e'.nodes.toList, n.state.stack.length ≤ e'.steps := by
  refine h.invariant (P := fun e => ∀ n ∈ e.nodes.toList, n.state.stack.length ≤ e.steps) ?_ ?_
  · intro m next added e e' hstep he n hn
    rw [hstep.nodes] at hn
    rw [hstep.steps]
    rcases List.mem_append.1 hn with hn | hn
    · exact Nat.le_succ_of_le (he n hn)
    · obtain ⟨n₀, hadvances, -, rfl⟩ := hstep.advances hn
      exact Nat.le_trans hadvances.length_le (Nat.succ_le_succ (he m hstep.head_mem))
  · intro n hn
    obtain ⟨n₀, hn₀, -, rfl⟩ := hs.reaches.joined n hn
    obtain rfl := List.mem_singleton.1 hn₀
    show s.stack.length ≤ e.steps
    rw [hs.stack]
    exact Nat.zero_le _

/-- An instruction whose symbols are declared fails if and only if there are fewer operands than its
stack effect says, provided that they can be counted, and always with the fault that says so. Any
state that it leads to has a stack of the depth that the stack effect says. A walk through a graph
that was built ends in no fault but one that the graph is to blame for, if its budget is a count. -/
theorem Walk.faults_of_graph (t : Transfer) (i : Instruction) (s : State) (g : Graph)
    (config : Config) (rules : List Rule) (w : Watchdog) (ids : Supply) :
    ((∀ kind, i ≠ .unsupported kind) → (∀ id ∈ i.symbols, (t.symbols.get? id).isSome) →
      ∃ effect, i.stackEffect = some effect ∧
        (i.taken < UInt64.size →
          ((∃ fault, t.visit i s ids = .error fault) ↔ s.stack.length < effect.pops)) ∧
        (∀ fault, t.visit i s ids = .error fault → ∃ depth, fault = .noSuchStackFrame depth) ∧
        (i.taken < UInt64.size ∨ s.stack.length < UInt64.size →
          ∀ u ids', t.visit i s ids = .ok (some (u, ids')) →
            u.stack.length = s.stack.length - effect.pops + effect.pushes)) ∧
    (g.Built → config.maxSteps < UInt64.size → ∀ point fault,
      (Walk.new (.of g config rules) w ids).run.2 = .error ⟨point, fault⟩ →
        (∃ kind node, fault = .unsupportedInstruction kind ∧ g.node? point = some node ∧
          node.instruction = .unsupported kind) ∨
        (∃ id, fault = .noSuchSymbol id ∧ g.symbols.get? id = none) ∨
        ∃ depth, fault = .noSuchStackFrame depth) := by
  constructor
  · intro hsupported hdeclared
    cases heffect : i.stackEffect with
    | none =>
      obtain ⟨kind, hkind⟩ := Instruction.stackEffect_eq_none_iff.1 heffect
      exact absurd hkind (hsupported kind)
    | some effect =>
      refine ⟨effect, rfl, fun hcounted => ?_, fun fault hfault => ?_, fun hcounted u ids' => ?_⟩
      · rw [← Instruction.taken_eq_pops heffect hcounted]
        exact Transfer.visit_fails_iff heffect hdeclared
      · obtain ⟨depth, -, rfl, -⟩ := Transfer.short_of_visit heffect hdeclared hfault
        exact ⟨depth, rfl⟩
      · exact Transfer.length_of_visit heffect hcounted
  · intro hg hsteps point fault hfailed
    obtain ⟨s, e, r, -, hs, hends, hresult, -⟩ :=
      Walk.exists_ends (p := .of g config rules) hg.closed w ids
    rw [hresult] at hfailed
    cases hends with
    | complete | exhausted | cancelled => cases hfailed
    | @fault count e' _ m _ hruns hcount hhead hfault =>
      cases hfailed
      have hmeets := (Plan.of g config rules).process_meets m e'.ids
      rw [hfault] at hmeets
      have hm := Exploration.mem_of_head hhead
      -- the budget limits the steps, and the steps limit the stack
      have hlength := hruns.length_le hs m hm
      rw [hruns.steps, hs.steps, Nat.zero_add] at hlength
      have hbudget : count < config.maxSteps := hcount
      exact hmeets.cases_of_mem_points (hruns.mem_points hg.closed hs m hm) (by omega)

/-- A call of a method that takes one argument. -/
def callWithOne : Instruction :=
  .invocation ⟨"M", .other, true, ⟨"void", .reference, false, false⟩, [], false, []⟩ 1

/-- A method that makes the call without an argument. -/
def shortCall : Graph :=
  ⟨"call", [⟨[⟨.methodGroup "M" .static, none⟩, ⟨callWithOne, none⟩], .jump ⟨1⟩ .plain⟩,
    Draft.exitBlock], ⟨0⟩, ⟨1⟩, [], .empty⟩

/-- With one operand the call fails, alone and in a walk, and with two it would leave one value. -/
theorem Walk.faults_of_graph_shortCall :
    let p := Plan.of shortCall .default Rule.defaults
    let one := State.initial.push .self
    shortCall.Built ∧
      (∃ fault, p.transfer.visit callWithOne one .odd = .error fault) ∧
      (∀ u ids, p.transfer.visit callWithOne (one.push .null) .odd = .ok (some (u, ids)) →
        u.stack.length = 1) ∧
      ∃ fault, (Walk.new p .lazy .odd).run.2 = .error ⟨⟨⟨0⟩, 1⟩, fault⟩ ∧
        ∃ depth, fault = .noSuchStackFrame depth := by
  intro p one
  have hbuilt : shortCall.Built :=
    ⟨.ofBlocks "call" [] (shortCall.blocks.take 1), ⟨0⟩, Draft.made_ofBlocks _ _ _, rfl⟩
  have hsupported : ∀ kind, callWithOne ≠ .unsupported kind := fun kind h => by cases h
  have hdeclared : ∀ id ∈ callWithOne.symbols, (p.transfer.symbols.get? id).isSome := by decide
  have hfault : (Walk.new p .lazy .odd).run.2 = .error ⟨⟨⟨0⟩, 1⟩, .noSuchStackFrame 0⟩ := by
    decide +kernel
  obtain ⟨hone, hwalk⟩ := Walk.faults_of_graph p.transfer callWithOne one shortCall .default
    Rule.defaults .lazy .odd
  obtain ⟨htwo, -⟩ := Walk.faults_of_graph p.transfer callWithOne (one.push .null) shortCall
    .default Rule.defaults .lazy .odd
  obtain ⟨_, heffect, hfails, -, -⟩ := hone hsupported hdeclared
  cases heffect
  obtain ⟨_, heffect, -, -, hlength⟩ := htwo hsupported hdeclared
  cases heffect
  refine ⟨hbuilt, (hfails (by decide)).2 (by decide), hlength (.inl (by decide)), _, hfault, ?_⟩
  rcases hwalk hbuilt (by decide) _ _ hfault with ⟨_, _, h, -⟩ | ⟨_, h, -⟩ | h
  · cases h
  · cases h
  · exact h

/-- A call of a method with as many arguments as can be counted, not counting the method. -/
def widestCall : Instruction :=
  .invocation ⟨"M", .other, true, ⟨"void", .reference, false, false⟩, [], false, []⟩
    (UInt64.size - 1)

/-- The call is said to take nothing, but it fails where there is nothing to take. -/
theorem Transfer.widestCall_fails :
    let t : Transfer := ⟨.empty, .ofLimit 16⟩
    (∀ kind, widestCall ≠ .unsupported kind) ∧
    (∀ id ∈ widestCall.symbols, (t.symbols.get? id).isSome) ∧
    widestCall.stackEffect = some ⟨0, 1⟩ ∧
    t.visit widestCall .initial .odd = .error (.noSuchStackFrame (UInt64.size - 2)) ∧
    ¬((∃ fault, t.visit widestCall .initial .odd = .error fault) ↔
      State.initial.stack.length < 0) := by
  intro t
  have hfault : t.visit widestCall .initial .odd = .error (.noSuchStackFrame (UInt64.size - 2)) :=
    rfl
  refine ⟨fun kind h => ?_, by decide, rfl, hfault, fun h => ?_⟩
  · cases h
  · exact Nat.not_lt_zero _ (h.1 ⟨_, hfault⟩)

end Pathwise
