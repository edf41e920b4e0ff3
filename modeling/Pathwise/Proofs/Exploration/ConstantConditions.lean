import Pathwise.Proofs.Exploration.Conditions
import Pathwise.Proofs.Exploration.Truncation
import Pathwise.Proofs.Rule.Log

/-!
Which conditions are reported as constant. A complete walk reports that a condition always goes one
way exactly if it could go that way at some of the nodes that were processed, and could go the other
way at none of them. A walk that was stopped, or has failed, reports nothing of the kind.

The reports come after all other findings, one for each point at most and in the order of the
points.
-/

namespace Pathwise

variable {p : Plan} {n : ExplodedNode} {outcome : Bool}

/-! ### Where conditions are tested -/

/-- At the point a block branches on a condition that is not written as a literal. -/
def Graph.BranchesAt (g : Graph) (point : ProgramPoint) : Prop :=
  ∃ block onTrue onFalse, g.block? point.block = some block ∧
    point.offset = block.nodes.length ∧ block.terminator = .branch .condition onTrue onFalse ∧
    ∀ node, block.nodes.getLast? = some node → ∀ truth, node.instruction ≠ .literal (.boolean truth)

namespace Plan

theorem isLiteralCondition_eq_false_iff {block : Block} :
    isLiteralCondition block = false ↔ ∀ node, block.nodes.getLast? = some node →
      ∀ truth, node.instruction ≠ .literal (.boolean truth) := by
  unfold isLiteralCondition
  constructor
  · intro h node hnode truth hliteral
    obtain ⟨i, span⟩ := node
    dsimp only at hliteral
    subst hliteral
    simp [hnode] at h
  · intro h
    split
    · next truth span hlast => exact absurd rfl (h _ hlast truth)
    · rfl

/-- Only conditions go one way or the other. -/
theorem exists_block_of_admits (h : p.admits n outcome) :
    ∃ block onTrue onFalse, p.graph.block? n.point.block = some block ∧
      n.point.offset = block.nodes.length ∧
      block.terminator = .branch .condition onTrue onFalse := by
  unfold admits Graph.tested? at h
  cases hblock : p.graph.block? n.point.block with
  | none => simp [hblock] at h
  | some block =>
    simp only [hblock] at h
    split at h
    · next onTrue onFalse hterminator =>
      split at h
      · next hoffset => exact ⟨block, onTrue, onFalse, rfl, hoffset, hterminator⟩
      · simp at h
    · simp at h

/-- Note is taken of all conditions but literals. -/
theorem decides_iff (hrule : .constantCondition ∈ p.rules) :
    p.Decides n outcome ↔ p.graph.BranchesAt n.point ∧ p.admits n outcome := by
  constructor
  · intro h
    obtain ⟨block, onTrue, onFalse, hblock, hoffset, hterminator⟩ := exists_block_of_admits h.admits
    have hliteral : isLiteralCondition block = false := by
      simpa [Graph.testsLiteral, hblock] using h.literal
    exact ⟨⟨block, onTrue, onFalse, hblock, hoffset, hterminator,
      isLiteralCondition_eq_false_iff.1 hliteral⟩, h.admits⟩
  · rintro ⟨⟨block, -, -, hblock, -, -, hliteral⟩, hadmits⟩
    refine ⟨hrule, ?_, hadmits⟩
    simpa [Graph.testsLiteral, hblock] using isLiteralCondition_eq_false_iff.2 hliteral

end Plan

/-! ### What walks report -/

namespace Plan.Records

variable {done : List ExplodedNode} {l : Ledger}

/-- While an exploration goes on, nothing is said about conditions. -/
theorem rule_ne (h : p.Records done l) :
    ∀ f ∈ l.findings, ∀ outcome, f.rule ≠ ConstantCondition.rule outcome := by
  intro f hf outcome heq
  obtain ⟨x, hx, rfl⟩ := List.mem_map.1 hf
  have hnames := h.rule_of_mem_entries x hx
  rw [heq] at hnames
  cases outcome <;> exact absurd hnames (by decide)

/-- What the ledger has to say about conditions once all nodes were processed. -/
theorem exists_constant_iff (h : p.Records done l) (hrule : .constantCondition ∈ p.rules)
    (outcome : Bool) (point : ProgramPoint) :
    (∃ f ∈ l.constantConditions,
      f.rule = ConstantCondition.rule outcome ∧ f.location.point = point) ↔
    p.graph.BranchesAt point ∧ (∃ n ∈ done, n.point = point ∧ p.admits n outcome) ∧
      ∀ n ∈ done, n.point = point → p.admits n (!outcome) = false := by
  constructor
  · rintro ⟨f, hf, hname, rfl⟩
    obtain ⟨way, hway, hseen, hunseen⟩ := Ledger.mem_constantConditions hf
    obtain rfl := ConstantCondition.rule_inj (hname.symm.trans hway)
    obtain ⟨n, hn, hpoint, hdecides⟩ := (h.seen_iff _ _).1 hseen
    obtain ⟨hbranches, hadmits⟩ := (decides_iff hrule).1 hdecides
    rw [hpoint] at hbranches
    refine ⟨hbranches, ⟨n, hn, hpoint, hadmits⟩, fun m hm hpoint' => ?_⟩
    rw [Bool.eq_false_iff]
    intro hadmits'
    refine hunseen ((h.seen_iff _ _).2 ⟨m, hm, hpoint', ?_⟩)
    exact (decides_iff hrule).2 ⟨hpoint' ▸ hbranches, hadmits'⟩
  · rintro ⟨hbranches, ⟨n, hn, hpoint, hadmits⟩, hnone⟩
    refine Ledger.exists_mem_constantConditions ?_ ?_
    · refine (h.seen_iff _ _).2 ⟨n, hn, hpoint, ?_⟩
      exact (decides_iff hrule).2 ⟨hpoint ▸ hbranches, hadmits⟩
    · intro hseen
      obtain ⟨m, hm, hpoint', hdecides⟩ := (h.seen_iff _ _).1 hseen
      exact absurd hdecides.admits (Bool.eq_false_iff.1 (hnone m hm hpoint'))

end Plan.Records

namespace Walk

/-- If a walk is complete, the conditions that have always gone the same way are reported last. -/
theorem exists_findings_eq (hrule : .constantCondition ∈ p.rules) (w : Watchdog) (ids : Supply) :
    ∃ l : Ledger, p.Records (new p w ids).run.1.exploration.processed l ∧
      ((new p w ids).run.2 = .ok .complete →
        (new p w ids).run.1.findings = l.findings ++ l.constantConditions) ∧
      ((new p w ids).run.2 ≠ .ok .complete → (new p w ids).run.1.findings = l.findings) := by
  obtain ⟨e, hrecords, hledger⟩ := exists_records p w ids
  refine ⟨e.ledger, hrecords, fun hcomplete => ?_, fun hother => ?_⟩
  · have hnew : ∀ f ∈ e.ledger.constantConditions, ¬ e.ledger.log.covers f none := by
      intro f hf hcovers
      obtain ⟨outcome, hname, -⟩ := Ledger.mem_constantConditions hf
      obtain ⟨x, hx, hkey⟩ := FindingLog.covers_iff (x := (f, none)).1 hcovers
      exact hrecords.rule_ne x.1 (List.mem_map_of_mem hx) outcome (hkey.1.trans hname)
    rw [findings, hledger, hcomplete, Ledger.findings, FindingLog.findings, closingLedger,
      Ledger.entries_finish_complete hrule _ _ hnew, List.map_append, List.map_map]
    exact congrArg _ (List.map_id _)
  · rw [findings, hledger]
    cases hresult : (new p w ids).run.2 with
    | error fault => rfl
    | ok completion =>
      rw [hresult] at hother
      have hstopped : completion ≠ .complete := fun h => hother (congrArg _ h)
      exact congrArg (List.map Prod.fst) (Ledger.entries_finish hstopped _ _ _)

/-- That a condition always goes one way is reported at a point if and only if the walk was
complete, a block branches there on a condition that is not a literal, the condition could go this
way at some processed node, and could go the other way at none. No two such findings are at one
point, and they come after all others in the order of their points. -/
theorem constantConditions_exact (hrule : .constantCondition ∈ p.rules) (w : Watchdog)
    (ids : Supply) :
    let walk := (new p w ids).run
    (∀ outcome point, (∃ f ∈ walk.1.findings,
        f.rule = ConstantCondition.rule outcome ∧ f.location.point = point) ↔
      walk.2 = .ok .complete ∧ p.graph.BranchesAt point ∧
      (∃ n ∈ walk.1.exploration.processed, n.point = point ∧ p.admits n outcome) ∧
      ∀ n ∈ walk.1.exploration.processed, n.point = point → p.admits n (!outcome) = false) ∧
    (walk.1.findings.Pairwise fun f g => ∀ outcome outcome',
      f.rule = ConstantCondition.rule outcome → g.rule = ConstantCondition.rule outcome' →
        f.location.point ≠ g.location.point) ∧
    ∃ others constants, walk.1.findings = others ++ constants ∧
      (∀ f ∈ others, ∀ outcome, f.rule ≠ ConstantCondition.rule outcome) ∧
      (∀ f ∈ constants, ∃ outcome, f.rule = ConstantCondition.rule outcome) ∧
      constants.Pairwise fun f g => f.location.point.Before g.location.point := by
  intro walk
  obtain ⟨l, hrecords, hcomplete, hother⟩ := exists_findings_eq hrule w ids
  have hnames := hrecords.rule_ne
  have hlast : ∃ others constants, walk.1.findings = others ++ constants ∧
      (∀ f ∈ others, ∀ outcome, f.rule ≠ ConstantCondition.rule outcome) ∧
      (∀ f ∈ constants, ∃ outcome, f.rule = ConstantCondition.rule outcome) ∧
      constants.Pairwise fun f g => f.location.point.Before g.location.point := by
    by_cases hend : walk.2 = .ok .complete
    · exact ⟨_, _, hcomplete hend, hnames,
        fun f hf => (Ledger.mem_constantConditions hf).imp fun _ h => h.1,
        l.pairwise_constantConditions⟩
    · exact ⟨_, [], (hother hend).trans (List.append_nil _).symm, hnames, by simp, .nil⟩
  refine ⟨fun outcome point => ?_, ?_, hlast⟩
  · rw [← hrecords.exists_constant_iff hrule]
    constructor
    · rintro ⟨f, hf, hname, hat⟩
      have hend : walk.2 = .ok .complete := by
        by_contra hend
        rw [hother hend] at hf
        exact hnames f hf outcome hname
      rw [hcomplete hend] at hf
      refine ⟨hend, f, ?_, hname, hat⟩
      exact (List.mem_append.1 hf).resolve_left fun hf => hnames f hf outcome hname
    · rintro ⟨hend, f, hf, hname, hat⟩
      refine ⟨f, ?_, hname, hat⟩
      rw [hcomplete hend]
      exact List.mem_append_right _ hf
  · obtain ⟨others, constants, heq, hothers, -, hordered⟩ := hlast
    rw [heq]
    refine List.pairwise_append.2 ⟨?_, ?_, ?_⟩
    · refine List.pairwise_of_forall_mem_list fun f hf g _ outcome _ hname => ?_
      exact absurd hname (hothers f hf outcome)
    · exact hordered.imp fun hbefore _ _ _ _ => hbefore.ne
    · intro f hf g _ outcome _ hname
      exact absurd hname (hothers f hf outcome)

/-- The test of a variable that was set to null is reported to be always true, and at no node that
was processed could it have been false. -/
theorem constantConditions_exact_nullTest :
    let p := Plan.of nullTest .default Rule.defaults
    let walk := (new p .lazy .odd).run
    let point : ProgramPoint := ⟨⟨0⟩, 5⟩
    .constantCondition ∈ p.rules ∧
    (∃ f ∈ walk.1.findings,
      f.rule = ConstantCondition.rule true ∧ f.location.point = point) ∧
    walk.2 = .ok .complete ∧ p.graph.BranchesAt point ∧
    (∃ n ∈ walk.1.exploration.processed, n.point = point ∧ p.admits n true) ∧
    ∀ n ∈ walk.1.exploration.processed, n.point = point → p.admits n false = false := by
  intro p walk point
  have hrule : .constantCondition ∈ p.rules := by decide
  have hfound : ∃ f ∈ walk.1.findings,
      f.rule = ConstantCondition.rule true ∧ f.location.point = point := by
    decide +kernel
  obtain ⟨hreported, -⟩ := constantConditions_exact hrule .lazy .odd
  exact ⟨hrule, hfound, (hreported true point).1 hfound⟩

end Walk

end Pathwise
