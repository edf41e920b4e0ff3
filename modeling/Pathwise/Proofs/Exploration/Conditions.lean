import Pathwise.Proofs.Exploration.Coverage
import Pathwise.Proofs.Exploration.Observed
import Pathwise.Proofs.Exploration.Termination

/-!
How far reports about conditions that always go the same way can be relied on. Such a report is made
once nothing is left in line, from the ways that the condition has gone so far. That says something
about all paths if no path was dropped on the way: then every node that any walk can process, with
whatever limit on visits, is matched by a node that was looked at, and the condition goes no other
way there.

A walk that has dropped paths ends as completely as one that has not. The report is then a statement
about the paths that were followed, and one more round of a loop can refute it.
-/

namespace Pathwise

namespace Plan

variable {p : Plan} {ids ids' : Supply}

/-- The plan with another limit on visits. -/
def withVisits (p : Plan) (limit : Nat) : Plan :=
  { p with config := { p.config with maxVisits := limit } }

/-- Where steps lead does not depend on the limit on visits. -/
theorem Path.of_withVisits {limit : Nat} {chain : List ExplodedNode}
    (h : (p.withVisits limit).Path ids chain ids') : p.Path ids chain ids' := by
  induction h with
  | entry hentry => exact .entry hentry
  | step _ hprocess hn ih => exact .step ih hprocess hn

/-- Nodes that match test values alike. -/
theorem admits_eq_of_matches {n m : ExplodedNode} (h : n.Matches m) (outcome : Bool) :
    p.admits n outcome = p.admits m outcome := by
  obtain ⟨R, hR, hpoint, hstate⟩ := h
  have htested : Option.Rel (fun r r' => r.1.Like R r'.1 ∧ r.2.Like R r'.2)
      (p.graph.tested? n) (p.graph.tested? m) := by
    unfold Graph.tested?
    rw [hpoint]
    split
    · split
      · split
        · obtain ⟨fault, hs, ht⟩ | ⟨r, r', hs, ht, hrr'⟩ := hstate.pop.cases
          · rw [hs, ht]
            exact .none
          · rw [hs, ht]
            exact .some hrr'
        · exact .none
      · exact .none
    · exact .none
  unfold admits
  obtain ⟨hn, hm⟩ | ⟨r, r', hn, hm, hstates, hvalues⟩ := optionRel_cases htested
  · rw [hn, hm]
  · rw [hn, hm, Option.any_some, Option.any_some,
      isEmpty_eq_of_forall₂ (p.solver.assume_alike hR hstates hvalues (.bool outcome))]

/-- A path is not dropped where it could have gone on to every point of the graph. -/
theorem not_drops_of_visitCount_lt (hg : p.graph.Closed) {n : ExplodedNode}
    (h : ∀ q ∈ p.graph.points, n.state.visitCount q < p.config.maxVisits) : ¬ p.Drops n := by
  rintro ⟨ids, next, ids', hprocess, a, ha, hlimit⟩
  have hmeets := p.process_meets n ids
  rw [hprocess] at hmeets
  have hadvances := hmeets.1 a ha
  have hcount := h a.point (hadvances.mem_points hg)
  rw [State.visitCount_congr hadvances.visits] at hlimit
  omega

end Plan

namespace Exploration

variable {p : Plan} {ids ids₀ ids' : Supply} {s : State} {e e' : Exploration} {count : Nat}

theorem Runs.settled (h : Runs p count e e') (hs : Started p ids s e) : e'.Settled p ids :=
  h.invariant (P := fun e => e.Settled p ids) (fun hstep => hstep.settled) hs.settled

/-- Nothing is reached if no visit is allowed. -/
theorem Runs.maxVisits_pos (h : Runs p count e e') (hs : Started p ids s e) {n : ExplodedNode}
    (hn : n ∈ e'.nodes.toList) : 0 < p.config.maxVisits := by
  refine h.invariant (P := fun e => ∀ n ∈ e.nodes.toList, 0 < p.config.maxVisits)
    (fun hstep he => hstep.forall_nodes (fun hpos _ _ => hpos) he) (fun n hn => ?_) n hn
  obtain ⟨n₀, -, hlimit, -⟩ := hs.reaches.joined n hn
  omega

/-- Every node that is reached is one to which a chain of steps leads, up to the names of
unknowns. -/
theorem Runs.exists_path (h : Runs p count e e') (hs : Started p ids s e)
    (hids : ids.draw.Injective) :
    ∀ n ∈ e'.nodes.toList, ∃ n₀ chain ids₀, p.Path ids (n₀ :: chain) ids₀ ∧ n₀.Matches n := by
  have hmarked : ∀ {n₀ n : ExplodedNode}, n₀.Matches n → n₀.Matches n.marked :=
    fun hmatch => hmatch.of_same (ExplodedNode.same_self _)
  have hinv := h.invariant
    (P := fun e => e.Settled p ids ∧ ∀ n ∈ e.nodes.toList,
      ∃ n₀ chain ids₀, p.Path ids (n₀ :: chain) ids₀ ∧ n₀.Matches n)
    (fun {m next added e e'} hstep ⟨hsettled, he⟩ => ⟨hstep.settled hsettled, fun n hn => ?_⟩)
    ⟨hs.settled, fun n hn => ?_⟩
  · exact hinv.2
  · rw [hstep.nodes] at hn
    rcases List.mem_append.1 hn with hn | hn
    · exact he n hn
    · -- the step from `m` is also made at the end of the chain that leads to `m`
      obtain ⟨m₀, chain, ids₀, hpath, hmatch⟩ := he m hstep.head_mem
      obtain ⟨b, hb, -, rfl⟩ := hstep.reaches.joined n hn
      obtain ⟨k, rfl, hwithin⟩ := hpath.within
      obtain ⟨k', hids'⟩ := hsettled.supply
      have hleft : (ids.after k).draw.Injective := hids
      have hright : e.ids.draw.Injective := by
        rw [hids']
        exact hids
      obtain ⟨next₀, ids₁, a, hprocess, ha, hab⟩ := Plan.exists_process_of_matches hleft hright
        hwithin (hsettled.within m hstep.head_mem) hmatch hstep.process hb
      exact ⟨a, m₀ :: chain, ids₁, .step hpath hprocess ha, hmarked hab⟩
  · obtain ⟨n₀, hn₀, -, rfl⟩ := hs.reaches.joined n hn
    obtain rfl := List.mem_singleton.1 hn₀
    exact ⟨_, [], e.ids, .entry hs.entry,
      hmarked (Plan.matches_of_entryState hids hids hs.entry hs.entry _)⟩

/-- An exploration that has processed all its nodes and dropped no path covers every chain. -/
theorem Runs.covers_of_not_drops (h : Runs p count e e') (hs : Started p ids s e)
    (hall : e'.processed = e'.nodes.toList) (hdrops : ∀ n ∈ e'.processed, ¬ p.Drops n)
    (hlimit : 0 < p.config.maxVisits) (hids : ids.draw.Injective) (hids₀ : ids₀.draw.Injective)
    {n : ExplodedNode} {chain : List ExplodedNode} (hpath : p.Path ids₀ (n :: chain) ids') :
    Covers e'.nodes.toList n := by
  generalize hwhole : n :: chain = whole at hpath
  induction hpath generalizing n chain with
  | entry hentry =>
    cases hwhole
    obtain ⟨m, hm, hmatch⟩ := hs.covers_entry hids hids₀ hentry hlimit
    exact ⟨m, mem_nodes_of_runs h hm, hmatch⟩
  | step hpath hprocess hn ih =>
    cases hwhole
    obtain ⟨m, hm, hmatch⟩ := ih rfl
    rw [← hall] at hm
    obtain ⟨k, rfl, hwithin⟩ := hpath.within
    have hleft : (ids₀.after k).draw.Injective := hids₀
    rcases (h.settled hs).follow hids hleft hwithin hprocess hn hm hmatch with hcovers | ⟨hdrop, -⟩
    · exact hcovers
    · exact absurd hdrop (hdrops m hm)

end Exploration

namespace Walk

variable {p : Plan} {w w' : Watchdog} {ids ids' : Supply} {e e' : Exploration}

/-- A report that a condition always goes one way is based on a node at which it does, and on there
being none at which it goes the other way. -/
theorem Made.decides_of_constant {completion : Completion} (h : Made p w ids completion e e')
    {f : Finding} (hf : f ∈ (new p w ids).run.1.findings) {outcome : Bool}
    (hrule : f.rule = ConstantCondition.rule outcome) :
    (∃ n ∈ e'.processed, n.point = f.location.point ∧ p.Decides n outcome) ∧
      ∀ n ∈ e'.processed, n.point = f.location.point → ¬ p.Decides n (!outcome) := by
  obtain ⟨count, hruns⟩ := h.runs
  have hfresh := fresh_of_start h.start
  obtain ⟨new, hnew, hconstant⟩ := Ledger.exists_extends_finish p.rules (.start p.graph.entry)
    completion e'.ledger
  rw [Walk.findings, h.ledger, hnew.findings] at hf
  rcases List.mem_append.1 hf with hf | hf
  · -- what steps publish has other names
    obtain ⟨x, hx, rfl⟩ := List.mem_map.1 hf
    have hnames := hruns.rule_of_mem_entries hfresh x hx
    rw [hrule] at hnames
    cases outcome <;> exact absurd hnames (by decide)
  · obtain ⟨x, hx, rfl⟩ := List.mem_map.1 hf
    obtain ⟨way, hway, hseen, hunseen⟩ := Ledger.mem_constantConditions (hconstant x hx)
    obtain rfl := ConstantCondition.rule_inj (hrule.symm.trans hway)
    refine ⟨(hruns.seen_iff hfresh _ _).1 hseen, fun n hn hpoint hdecides => hunseen ?_⟩
    exact (hruns.seen_iff hfresh _ _).2 ⟨n, hn, hpoint, hdecides⟩

/-- If a complete walk has dropped no path and reports that a condition always goes one way, then no
walk with whatever other limit on visits comes to a node at which the condition can go the other
way. -/
theorem constant_of_not_drops (hids : ids.draw.Injective) (hids' : ids'.draw.Injective)
    (hcomplete : (new p w ids).run.2 = .ok .complete)
    (hdrops : ∀ n ∈ (new p w ids).run.1.exploration.processed, ¬ p.Drops n)
    {f : Finding} (hf : f ∈ (new p w ids).run.1.findings) {outcome : Bool}
    (hrule : f.rule = ConstantCondition.rule outcome) (limit : Nat) :
    ∀ n ∈ (new (p.withVisits limit) w' ids').run.1.exploration.processed,
      n.point = f.location.point → p.admits n (!outcome) = false := by
  obtain ⟨e, e', hmade⟩ := exists_made hcomplete
  obtain ⟨s, hs⟩ := started_of_start hmade.start
  obtain ⟨count, hruns⟩ := hmade.runs
  have hall := hmade.complete rfl
  obtain ⟨⟨m₀, hm₀, hpoint₀, hdecides⟩, hnone⟩ := hmade.decides_of_constant hf hrule
  have hlimit : 0 < p.config.maxVisits := hruns.maxVisits_pos hs (hall ▸ hm₀)
  rw [hmade.processed] at hdrops
  intro n hn hpoint
  by_contra hadmits
  rw [Bool.not_eq_false] at hadmits
  -- a chain leads to the node, and the first walk covers the chain
  obtain ⟨s', e₁, e₁', count', hs', hruns', hn⟩ :=
    exists_runs_of_mem_nodes (List.mem_of_mem_take hn)
  obtain ⟨n₀, chain, ids₀, hpath, hmatch⟩ := hruns'.exists_path hs' hids' n hn
  obtain ⟨m, hm, hmatch'⟩ :=
    hruns.covers_of_not_drops hs hall hdrops hlimit hids hids' hpath.of_withVisits
  have hpoint' : m.point = f.location.point :=
    (hmatch'.point_eq.symm.trans hmatch.point_eq).trans hpoint
  refine hnone m (hall ▸ hm) hpoint' ⟨hdecides.rule, ?_, ?_⟩
  · rw [hpoint', ← hpoint₀]
    exact hdecides.literal
  · rw [← Plan.admits_eq_of_matches hmatch', Plan.admits_eq_of_matches hmatch]
    exact hadmits

end Walk

/-- A method that tests a variable which was set to null right before. -/
def nullTest : Graph where
  method := "test"
  blocks :=
    [⟨[⟨.literal .null, none⟩, ⟨.declaration ⟨0⟩ true, none⟩, ⟨.read ⟨0⟩ false, none⟩,
       ⟨.literal .null, none⟩, ⟨.binary (.equals .reference), none⟩], .branch .condition ⟨1⟩ ⟨2⟩⟩,
     ⟨[], .jump ⟨2⟩ .plain⟩, Draft.exitBlock]
  entry := ⟨0⟩
  exit := ⟨2⟩
  parameters := []
  symbols := ⟨[⟨"x", .localVariable, ⟨"T", .reference, false, false⟩, false⟩]⟩

/-- The test is reported, and however often loops may be followed it does not fail. -/
theorem Walk.constant_nullTest :
    (∃ f ∈ (Walk.new (.of nullTest .default [.constantCondition]) .lazy .odd).run.1.findings,
      f.rule = ConstantCondition.rule true ∧ f.location.point = ⟨⟨0⟩, 5⟩) ∧
    ∀ limit, ∀ n ∈ (Walk.new ((Plan.of nullTest .default [.constantCondition]).withVisits limit)
        .lazy .odd).run.1.exploration.processed,
      n.point = ⟨⟨0⟩, 5⟩ →
        (Plan.of nullTest .default [.constantCondition]).admits n false = false := by
  have hodd : Supply.odd.draw.Injective := fun i j (h : 2 * i + 1 = 2 * j + 1) => by omega
  have hbuilt : nullTest.Built :=
    ⟨.ofBlocks "test" nullTest.symbols.symbols (nullTest.blocks.take 2), ⟨0⟩,
      Draft.made_ofBlocks _ _ _, rfl⟩
  have hfinding : ∃ f ∈ (Walk.new (.of nullTest .default [.constantCondition]) .lazy
      .odd).run.1.findings, f.rule = ConstantCondition.rule true ∧ f.location.point = ⟨⟨0⟩, 5⟩ := by
    decide +kernel
  have hvisits : ∀ n ∈ (Walk.new (.of nullTest .default [.constantCondition]) .lazy
      .odd).run.1.exploration.processed, ∀ q ∈ nullTest.points, n.state.visitCount q < 2 := by
    decide +kernel
  refine ⟨hfinding, fun limit => ?_⟩
  obtain ⟨f, hf, hrule, hpoint⟩ := hfinding
  rw [← hpoint]
  exact Walk.constant_of_not_drops hodd hodd (by decide +kernel)
    (fun n hn => Plan.not_drops_of_visitCount_lt hbuilt.closed (hvisits n hn)) hf hrule limit

/-- A method whose loop is left in the third round: the variable it tests is null at first, then
holds what another variable held at first, which is null as well, and only then an object. -/
def lateExit : Graph where
  method := "late"
  blocks :=
    [⟨[⟨.literal .null, none⟩, ⟨.declaration ⟨0⟩ true, none⟩, ⟨.literal .null, none⟩,
       ⟨.declaration ⟨1⟩ true, none⟩], .jump ⟨1⟩ .plain⟩,
     ⟨[⟨.read ⟨0⟩ false, none⟩, ⟨.literal .null, none⟩, ⟨.binary (.equals .reference), none⟩],
       .branch .condition ⟨2⟩ ⟨3⟩⟩,
     ⟨[⟨.read ⟨1⟩ false, none⟩, ⟨.assignment (.symbol ⟨0⟩) .simple, none⟩, ⟨.discard, none⟩,
       ⟨.self, none⟩, ⟨.assignment (.symbol ⟨1⟩) .simple, none⟩, ⟨.discard, none⟩],
       .jump ⟨1⟩ .plain⟩,
     Draft.exitBlock]
  entry := ⟨0⟩
  exit := ⟨3⟩
  parameters := []
  symbols :=
    ⟨[⟨"x", .localVariable, ⟨"T", .reference, false, false⟩, false⟩,
      ⟨"y", .localVariable, ⟨"T", .reference, false, false⟩, false⟩]⟩

/-- A complete walk may report that a condition is always true although a complete walk with a
higher limit on visits comes to a node at which it can be false. -/
theorem constant_refuted_by_more_visits :
    let p : Plan := .of lateExit .default [.constantCondition]
    p.config.maxVisits ≤ 3 ∧ (Walk.new p .lazy .odd).run.2 = .ok .complete ∧
      (Walk.new (p.withVisits 3) .lazy .odd).run.2 = .ok .complete ∧
      ∃ f ∈ (Walk.new p .lazy .odd).run.1.findings, f.rule = ConstantCondition.rule true ∧
        ∃ n ∈ (Walk.new (p.withVisits 3) .lazy .odd).run.1.exploration.processed,
          n.point = f.location.point ∧ p.admits n false := by
  decide +kernel

end Pathwise
