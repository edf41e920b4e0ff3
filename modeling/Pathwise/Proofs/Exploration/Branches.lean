import Pathwise.Program.Draft
import Pathwise.Proofs.Exploration.Step
import Pathwise.Proofs.Solver.Exactness
import Pathwise.Proofs.Transfer.Locks

/-!
Branches lose no run. A run that a state admits, and that reaches a branch in this state, is
admitted by some state that leaves the branch along the way that the run takes. Which way that is
depends on what the tested value stands for in the run (`BranchKind.Takes`).

The converse holds for the states that leave the branch: a way on which the run does not go has no
state that admits it. It need not hold for the nodes that the states end up in. Facts about a value
that is of no use any more are dropped on the way, and the fact that tells the two ways apart may be
one of them.
-/

namespace Pathwise

/-! ### The ways of a branch -/

/-- Does the branch ask for the truth of the tested value? -/
def BranchKind.testsTruth : BranchKind → Bool
  | .condition | .catchFilter | .logicalAnd _ | .logicalOr _ => true
  | .coalesce _ | .conditionalAccess _ | .caseLabel _ | .forEach => false

/-- The way of the outcome is open to a run. A label that tests for a type or a constant may fail
for any value, and a loop may end after any number of rounds, so these leave both ways open. -/
def BranchKind.Takes (ρ : Valuation) (s : State) (v : Value) : BranchKind → Bool → Prop
  | .condition, outcome | .catchFilter, outcome | .logicalAnd _, outcome
  | .logicalOr _, outcome => ρ.truth v = some outcome
  | .coalesce _, outcome | .conditionalAccess _, outcome
  | .caseLabel .null, outcome => ρ.isNull v = outcome
  | .caseLabel (.type ..), outcome
  | .caseLabel .constant, outcome => outcome = true → ρ.isNull v = false
  | .caseLabel (.var _), outcome | .caseLabel .discard, outcome => outcome = true
  | .forEach, outcome => outcome = true → s.has v .emptyCollection = false

/-- Some way is open to every run in which the tested value is as the branch expects. -/
theorem BranchKind.exists_takes {ρ : Valuation} {v : Value} {kind : BranchKind}
    (htruth : kind.testsTruth = true → ∃ truth, ρ.truth v = some truth) (s : State) :
    ∃ outcome, kind.Takes ρ s v outcome := by
  cases kind with
  | condition | catchFilter | logicalAnd _ | logicalOr _ => exact htruth rfl
  | coalesce _ | conditionalAccess _ => exact ⟨_, rfl⟩
  | forEach => exact ⟨false, nofun⟩
  | caseLabel pattern =>
    cases pattern with
    | null => exact ⟨_, rfl⟩
    | type _ _ | constant => exact ⟨false, nofun⟩
    | var _ | discard => exact ⟨true, rfl⟩

/-! ### The runs that states admit -/

namespace Valuation

variable {ρ : Valuation} {s t : State}

/-- Only facts restrict the runs of a state. -/
theorem satisfies_congr (h : t.facts = s.facts) : ρ.Satisfies t ↔ ρ.Satisfies s := by
  simp only [Satisfies, State.factsOf, h]

/-- States that have the same facts in pairs admit the same runs. -/
theorem lives_congr {states states' : List State}
    (h : List.Forall₂ (fun s t => t.facts = s.facts) states states') :
    ρ.Lives states' ↔ ρ.Lives states := by
  induction h with
  | nil => rfl
  | cons hfacts _ ih =>
    simp only [Lives, List.exists_mem_cons_iff] at ih ⊢
    rw [satisfies_congr hfacts, ih]

/-- Dropping facts loses no run. -/
theorem satisfies_collectGarbage (hs : ρ.Satisfies s) : ρ.Satisfies s.collectGarbage := by
  intro v
  rw [State.factsOf_collectGarbage]
  split
  · exact hs v
  · rfl

end Valuation

/-! ### The guards of the ways -/

/-- The run passes the guard. -/
def Guard.Opens (ρ : Valuation) (s : State) (v : Value) : Guard → Prop
  | .nothing => True
  | .holds c => ρ.Holds v c
  | .notKnown c => s.has v c = false

/-- A guard admits the runs that pass it. -/
theorem Guard.lives_admitted {ρ : Valuation} (hρ : ρ.Coherent) {s : State} (hs : ρ.Satisfies s)
    (guard : Guard) (solver : Solver) (v : Value) :
    ρ.Lives (guard.admitted solver v s) ↔ guard.Opens ρ s v := by
  have hstays : ρ.Lives [s] := Valuation.lives_singleton.2 hs
  cases guard with
  | nothing => exact iff_true_intro hstays
  | holds c => exact (Valuation.lives_assume hρ solver s v c).trans (and_iff_right hs)
  | notKnown c =>
    simp only [admitted, Opens]
    cases s.has v c with
    | true => exact iff_of_false Valuation.not_lives_nil (by decide)
    | false => exact iff_of_true hstays rfl

namespace BranchKind

variable {ρ : Valuation} {s : State} {v : Value} {kind : BranchKind} {onTrue onFalse : BlockId}

theorem target_eq :
    ∀ way ∈ kind.ways onTrue onFalse, way.target = if way.outcome then onTrue else onFalse := by
  cases kind with
  | caseLabel pattern => cases pattern <;> simp [ways, Pattern.ways, Way.fork]
  | _ => simp [ways, Way.fork]

/-- A way is open to the runs that pass its guard. -/
theorem opens_iff_takes :
    ∀ way ∈ kind.ways onTrue onFalse, way.guard.Opens ρ s v ↔ kind.Takes ρ s v way.outcome := by
  cases kind with
  | caseLabel pattern =>
    cases pattern <;>
      simp [ways, Pattern.ways, Way.fork, Guard.Opens, Takes, Valuation.holds_null,
        Valuation.holds_notNull]
  | forEach => simp [ways, Guard.Opens, Takes]
  | _ =>
    simp [ways, Way.fork, Guard.Opens, Takes, Valuation.holds_bool, Valuation.holds_null,
      Valuation.holds_notNull]

/-- Every outcome with which a run goes on has its way. -/
theorem exists_way {outcome : Bool} (h : kind.Takes ρ s v outcome) (onTrue onFalse : BlockId) :
    ∃ way ∈ kind.ways onTrue onFalse, way.outcome = outcome := by
  cases kind with
  | caseLabel pattern =>
    cases pattern <;> cases outcome <;> simp_all [ways, Pattern.ways, Way.fork, Takes]
  | _ => cases outcome <;> simp [ways, Way.fork]

end BranchKind

/-! ### Leaving a block -/

namespace Plan

variable {p : Plan} {ρ : Valuation} {s : State} {v : Value}

/-- No run is lost between two blocks. -/
theorem satisfies_enter (p : Plan) (source target : BlockId) (hs : ρ.Satisfies s) :
    ρ.Satisfies (p.enter source target s).state := by
  unfold enter
  dsimp only
  split
  · have hunbound : ρ.Satisfies (s.unbindWhere fun id _ =>
        p.graph.symbols.isLocalOrParameter id && !p.liveness.isLiveOut source id) :=
      (Valuation.satisfies_congr rfl).2 hs
    exact Valuation.satisfies_collectGarbage hunbound
  · exact hs

/-- Unless dead bindings are dropped, a state is handed on as it is. -/
theorem state_enter_of_keep (hkeep : p.config.pruneDeadBindings = false) (source target : BlockId)
    (s : State) : (p.enter source target s).state = s := by
  simp [enter, hkeep]

/-- The states that leave along a way admit the runs that pass its guard. -/
theorem Departs.lives_iff {way : Way} {left : Way × List State} (h : p.Departs s v way left)
    (hρ : ρ.Coherent) (hs : ρ.Satisfies s) : ρ.Lives left.2 ↔ way.guard.Opens ρ s v :=
  (Valuation.lives_congr (h.states.imp fun _ _ hleaves => hleaves.facts)).trans
    (way.guard.lives_admitted hρ hs p.solver v)

/-- A branch whose variables are declared lets states leave along each of its ways. -/
theorem exists_departs {kind : BranchKind} {onTrue onFalse : BlockId}
    (hdeclared : ∀ id ∈ (Terminator.branch kind onTrue onFalse).defines,
      ∃ symbol, p.graph.symbols.get? id = some symbol) (s : State) (v : Value) (ids : Supply) :
    ∃ left ids', p.depart s v (kind.ways onTrue onFalse) ids = .ok (left, ids') ∧
      List.Forall₂ (p.Departs s v) (kind.ways onTrue onFalse) left := by
  have hmeets := p.depart_meets s v (kind.mem_defines onTrue onFalse) ids
  cases hdepart : p.depart s v (kind.ways onTrue onFalse) ids with
  | ok r =>
    rw [hdepart] at hmeets
    exact ⟨r.1, r.2, rfl, hmeets⟩
  | error fault =>
    rw [hdepart] at hmeets
    obtain ⟨id, hid, -, hnone⟩ := hmeets
    obtain ⟨symbol, hsymbol⟩ := hdeclared id hid
    exact absurd (hsymbol.symm.trans hnone) (by simp)

end Plan

/-! ### All branches -/

/-- The states that leave a branch with declared variables are handed to the blocks at the ends of
its ways. A run that reaches the branch goes on along every way that is open to it, also after dead
bindings and facts of no use were dropped. The states that leave the branch along any other way do
not admit the run, and neither do the nodes there if nothing is dropped. -/
theorem Plan.branch_follows_run (p : Plan) (point : ProgramPoint) (block : Block)
    (kind : BranchKind) (onTrue onFalse : BlockId) {s : State} {v : Value} {rest : List Value}
    (hs : s.stack = v :: rest)
    (hdeclared : ∀ id ∈ (Terminator.branch kind onTrue onFalse).defines,
      ∃ symbol, p.graph.symbols.get? id = some symbol) (ids : Supply) :
    ∃ (left : List (Way × List State)) (ids' : Supply),
      p.depart { s with stack := rest } v (kind.ways onTrue onFalse) ids = .ok (left, ids') ∧
      (p.processBranch point block kind onTrue onFalse s ids).result =
        .ok (p.arrive point.block left, ids') ∧
      (∀ x ∈ left, x.1.target = if x.1.outcome then onTrue else onFalse) ∧
      ∀ ρ : Valuation, ρ.Coherent → ρ.Satisfies s →
        (kind.testsTruth = true → ∃ truth, ρ.truth v = some truth) →
        (∃ outcome, kind.Takes ρ s v outcome) ∧
        (∀ outcome, kind.Takes ρ s v outcome → ∃ x ∈ left, x.1.outcome = outcome ∧
          ∃ t ∈ x.2, ρ.Satisfies (p.enter point.block x.1.target t).state) ∧
        ∀ x ∈ left, ¬kind.Takes ρ s v x.1.outcome → ∀ t ∈ x.2, ¬ρ.Satisfies t ∧
          (p.config.pruneDeadBindings = false →
            ¬ρ.Satisfies (p.enter point.block x.1.target t).state) := by
  obtain ⟨left, ids', hdepart, hleft⟩ :=
    exists_departs hdeclared { s with stack := rest } v ids
  have hway : ∀ x ∈ left, ∃ way ∈ kind.ways onTrue onFalse,
      p.Departs { s with stack := rest } v way x :=
    fun x hx => exists_of_forall₂ hleft.flip hx
  refine ⟨left, ids', hdepart, ?_, ?_, ?_⟩
  · rw [result_processBranch, State.pop_of_stack hs]
    dsimp only [bind, Except.bind]
    rw [hdepart]
    rfl
  · intro x hx
    obtain ⟨way, hmem, hdeparts⟩ := hway x hx
    rw [hdeparts.along]
    exact BranchKind.target_eq way hmem
  · intro ρ hρ hsat htruth
    have hsat : ρ.Satisfies { s with stack := rest } := (Valuation.satisfies_congr rfl).2 hsat
    refine ⟨kind.exists_takes htruth s, ?_, ?_⟩
    · intro outcome htakes
      obtain ⟨way, hmem, rfl⟩ := BranchKind.exists_way htakes onTrue onFalse
      obtain ⟨x, hx, hdeparts⟩ := exists_of_forall₂ hleft hmem
      obtain ⟨t, ht, hlives⟩ :=
        (hdeparts.lives_iff hρ hsat).2 ((BranchKind.opens_iff_takes way hmem).2 htakes)
      exact ⟨x, hx, by rw [hdeparts.along], t, ht, p.satisfies_enter _ _ hlives⟩
    · intro x hx hclosed t ht
      obtain ⟨way, hmem, hdeparts⟩ := hway x hx
      rw [hdeparts.along] at hclosed
      have hnot : ¬ρ.Satisfies t := fun hlives => hclosed
        ((BranchKind.opens_iff_takes way hmem).1 ((hdeparts.lives_iff hρ hsat).1 ⟨t, ht, hlives⟩))
      exact ⟨hnot, fun hkeep => by rwa [state_enter_of_keep hkeep]⟩

/-- A method that tests whether its parameter is null, and has no use for it afterwards. -/
def testOnce : Graph where
  method := "test"
  blocks :=
    [⟨[⟨.read ⟨0⟩ false, none⟩], .branch (.coalesce false) ⟨1⟩ ⟨2⟩⟩,
     ⟨[⟨.self, none⟩, ⟨.discard, none⟩], .jump ⟨3⟩ .plain⟩,
     ⟨[⟨.self, none⟩, ⟨.discard, none⟩], .jump ⟨3⟩ .plain⟩,
     Draft.exitBlock]
  entry := ⟨0⟩
  exit := ⟨3⟩
  parameters := [⟨0⟩]
  symbols := ⟨[⟨"s", .parameter, ⟨"T", .reference, false, false⟩, false⟩]⟩

/-- A run in which the parameter is true goes past a disjunction, and it goes on where a type
pattern may match. -/
theorem Plan.branch_follows_run_testOnce :
    let p := Plan.of testOnce .default []
    let s := (State.initial.assign ⟨0⟩ (.unknown 0)).push (.unknown 0)
    let ρ := Valuation.extend fun _ => some (.ofTruth true)
    ρ.Coherent ∧ ρ.Satisfies s ∧ ρ.truth (.unknown 0) = some true ∧
    ∀ kind ∈ [BranchKind.logicalOr true,
        .caseLabel (.type ⟨"T", .reference, false, false⟩ (.single ⟨0⟩))],
      (∀ id ∈ (Terminator.branch kind ⟨1⟩ ⟨2⟩).defines,
        ∃ symbol, p.graph.symbols.get? id = some symbol) ∧
      ∃ next ids',
        (p.processBranch ⟨⟨0⟩, 1⟩ Draft.exitBlock kind ⟨1⟩ ⟨2⟩ s .odd).result = .ok (next, ids') ∧
        ∃ n ∈ next, n.point = .start ⟨1⟩ ∧ ρ.Satisfies n.state := by
  intro p s ρ
  have hstack : s.stack = [.unknown 0] := rfl
  have hρ : ρ.Coherent := Valuation.extend_coherent _
  have hsat : ρ.Satisfies s := (Valuation.satisfies_congr rfl).2 hρ.satisfies_initial
  have hgoes : ∀ kind : BranchKind, kind.Takes ρ s (.unknown 0) true →
      (∀ id ∈ (Terminator.branch kind ⟨1⟩ ⟨2⟩).defines,
        ∃ symbol, p.graph.symbols.get? id = some symbol) →
      ∃ next ids',
        (p.processBranch ⟨⟨0⟩, 1⟩ Draft.exitBlock kind ⟨1⟩ ⟨2⟩ s .odd).result = .ok (next, ids') ∧
        ∃ n ∈ next, n.point = .start ⟨1⟩ ∧ ρ.Satisfies n.state := by
    intro kind htakes hdeclared
    obtain ⟨left, ids', -, hresult, htarget, hruns⟩ := branch_follows_run p ⟨⟨0⟩, 1⟩
      Draft.exitBlock kind ⟨1⟩ ⟨2⟩ hstack hdeclared .odd
    obtain ⟨-, hopen, -⟩ := hruns ρ hρ hsat fun _ => ⟨true, rfl⟩
    obtain ⟨x, hx, houtcome, t, ht, hlives⟩ := hopen true htakes
    have harrives : p.enter ⟨0⟩ x.1.target t ∈ p.arrive ⟨0⟩ left :=
      List.mem_flatMap.2 ⟨x, hx, List.mem_map_of_mem ht⟩
    refine ⟨_, ids', hresult, _, harrives, ?_, hlives⟩
    rw [htarget x hx, houtcome]
    rfl
  have hnone : ∀ id ∈ (Terminator.branch (.logicalOr true) ⟨1⟩ ⟨2⟩).defines,
      ∃ symbol, p.graph.symbols.get? id = some symbol := by simp [Terminator.defines]
  have hone : ∀ id ∈ [(⟨0⟩ : SymbolId)], ∃ symbol, p.graph.symbols.get? id = some symbol :=
    List.forall_mem_singleton.2 ⟨_, rfl⟩
  refine ⟨hρ, hsat, rfl, List.forall_mem_cons.2 ⟨?_, List.forall_mem_singleton.2 ?_⟩⟩
  · exact ⟨hnone, hgoes _ rfl hnone⟩
  · exact ⟨hone, hgoes _ (fun _ => rfl) hone⟩

/-- A run in which the parameter is null is admitted by both nodes that the test leads to, also by
the one on the way on which the parameter is known not to be null: this is forgotten at once. -/
theorem pruned_branch_admits_run :
    let p := Plan.of testOnce .default []
    let s := (State.initial.assign ⟨0⟩ (.unknown 0)).push (.unknown 0)
    let ρ := Valuation.extend fun _ => none
    ρ.Coherent ∧ ρ.Satisfies s ∧ ρ.isNull (.unknown 0) = true ∧
    ¬(BranchKind.coalesce false).Takes ρ s (.unknown 0) false ∧
    ∃ next ids',
      (p.processBranch ⟨⟨0⟩, 1⟩ Draft.exitBlock (.coalesce false) ⟨1⟩ ⟨2⟩ s .odd).result =
        .ok (next, ids') ∧
      ∃ n ∈ next, n.point = .start ⟨2⟩ ∧ ρ.Satisfies n.state := by
  intro p s ρ
  have hρ : ρ.Coherent := Valuation.extend_coherent _
  have hsat : ρ.Satisfies s := (Valuation.satisfies_congr rfl).2 hρ.satisfies_initial
  let notNull : Facts := { Facts.nothing with object := some .notNull }
  let t : State := { State.initial.assign ⟨0⟩ (.unknown 0) with
    facts := State.initial.facts.insert (.unknown 0) notNull }
  have hleft : t ∈ p.solver.assume (State.initial.assign ⟨0⟩ (.unknown 0)) (.unknown 0) .notNull :=
    List.mem_singleton.2 rfl
  have hfacts : (p.enter ⟨0⟩ ⟨2⟩ t).state.facts = State.initial.facts :=
    eq_of_beq (by decide +kernel)
  have hnull : ¬(BranchKind.coalesce false).Takes ρ s (.unknown 0) false := by
    simp only [BranchKind.Takes]
    exact nofun
  refine ⟨hρ, hsat, rfl, hnull, _, .odd, rfl, p.enter ⟨0⟩ ⟨2⟩ t, ?_, rfl, ?_⟩
  · exact List.mem_append_right _ (List.mem_map_of_mem hleft)
  · exact (Valuation.satisfies_congr hfacts).2 hρ.satisfies_initial

end Pathwise
