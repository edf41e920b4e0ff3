import Pathwise.Program.Draft
import Pathwise.Proofs.Exploration.Step
import Pathwise.Proofs.Program.Liveness
import Pathwise.Proofs.Transfer.Agreement

/-!
What a dead variable holds does not matter, as long as patterns do not fail. States that differ in
variables that are dead on entry to a block are led through the block to states that differ in
variables that are dead on exit, with the same outcome on the way.

Liveness takes the variables of a pattern to be written wherever the pattern is tested. Where a type
pattern is known to fail, and where control goes past a case label, they keep what they hold. Such a
variable may be read later, and there `Plan.agree_of_dead` asks for states that do not differ in it.
Without that they may come to differ in live variables.
-/

namespace Pathwise

/-! ### Running through a block -/

namespace Transfer

variable {D : SymbolId → Prop} {s t : State} {ids : Supply}

/-- The effect of the instructions of a list of nodes, one after the other. -/
def visitAll (tr : Transfer) : List Node → State → Supply → Transition
  | [], s, ids => .ok (some (s, ids))
  | node :: rest, s, ids => do
    match ← tr.visit node.instruction s ids with
    | some (s, ids) => tr.visitAll rest s ids
    | none => return none

/-- The variables that are missed along the way. -/
def missed (tr : Transfer) : List Node → State → Supply → List SymbolId
  | [], _, _ => []
  | node :: rest, s, ids =>
    node.instruction.missed s ++
      match tr.visit node.instruction s ids with
      | .ok (some (s, ids)) => tr.missed rest s ids
      | _ => []

/-- Instructions that write the symbols in which two states differ before they read them do the same
in both. -/
theorem visitAll_agree (tr : Transfer) (hD : ∀ id, D id → tr.symbols.isLocalOrParameter id)
    {nodes : List Node} (hreads : ∀ id, D id → Block.readsFirst id nodes = false)
    (hmissed : ∀ id ∈ tr.missed nodes s ids, ¬ D id) (h : s.AgreeExcept D t) :
    Agree (Option.Rel (SameBut fun id =>
        D id ∧ nodes.any (fun node => node.instruction.defines.contains id) = false))
      (tr.visitAll nodes s ids) (tr.visitAll nodes t ids) := by
  induction nodes generalizing D s t ids with
  | nil => exact .ok (.some ⟨h.mono fun id hid => ⟨hid, rfl⟩, rfl⟩)
  | cons node rest ih =>
    unfold visitAll
    unfold missed at hmissed
    have huses : ∀ id ∈ node.instruction.uses, ¬ D id := by
      intro id hid hD
      simpa [Block.readsFirst, hid] using hreads id hD
    obtain ⟨fault, hs, ht⟩ | ⟨x, y, hs, ht, hxy⟩ :=
      (tr.visit_agree node.instruction hD huses h ids).cases
    · rw [hs, ht]
      exact .error fault
    · rw [hs] at hmissed
      rw [hs, ht]
      obtain ⟨rfl, rfl⟩ | ⟨⟨u, ids⟩, ⟨w, _⟩, rfl, rfl, hu, rfl⟩ := optionRel_cases hxy
      · exact .ok .none
      · have hu : u.AgreeExcept (fun id => D id ∧ id ∉ node.instruction.defines) w :=
          hu.mono fun id hid => ⟨hid.1, fun hmem =>
            hmissed id (List.mem_append_left _ (hid.2 hmem)) hid.1⟩
        refine (ih (fun id hid => hD id hid.1) ?_ ?_ hu).imp fun _ _ =>
          optionRel_imp fun _ _ hxy => ⟨hxy.1.mono ?_, hxy.2⟩
        · intro id hid
          have hfirst := hreads id hid.1
          simp_all [Block.readsFirst]
        · exact fun id hid hD => hmissed id (List.mem_append_right _ hid) hD.1
        · rintro id ⟨⟨hid, hdefines⟩, hrest⟩
          exact ⟨hid, by simp_all⟩

end Transfer

/-! ### Leaving a block by a case label -/

namespace Plan

variable {p : Plan} {source : BlockId} {D : SymbolId → Prop} {s t : State} {ids : Supply}

/-- Leaves a block along a way out of its branch. -/
def cross (p : Plan) (source : BlockId) (way : Way) (s : State) (ids : Supply) :
    Except Fault (List ExplodedNode × Supply) := do
  let (s, v) ← s.pop
  let (states, ids) ← p.follow s v way ids
  return (states.map (p.enter source way.target), ids)

theorem collect_cross {v : Value} (hpop : s.pop = .ok (t, v)) (source : BlockId) (ways : List Way)
    (ids : Supply) :
    Supply.collect (fun way => p.cross source way s) ways ids = (do
      let (left, ids) ← p.depart t v ways ids
      return (left.map fun x => x.2.map (p.enter source x.1.target), ids)) := by
  rw [depart, ← Supply.collect_map]
  congr 1
  funext way ids
  simp only [cross, hpop, bind, Except.bind]
  cases p.follow t v way ids <;> rfl

/-- A branch leaves the block along its ways, one after the other. -/
theorem processBranch_eq_cross (p : Plan) (point : ProgramPoint) (block : Block)
    (kind : BranchKind) (onTrue onFalse : BlockId) (s : State) (ids : Supply) :
    (p.processBranch point block kind onTrue onFalse s ids).result = (do
      let (nodes, ids) ←
        Supply.collect (fun way => p.cross point.block way s) (kind.ways onTrue onFalse) ids
      return (nodes.flatten, ids)) := by
  rw [result_processBranch]
  cases hpop : s.pop with
  | error fault =>
    -- every branch has a way, and already on the first one the tested value is missing
    obtain ⟨way, ways, hways⟩ : ∃ way ways, kind.ways onTrue onFalse = way :: ways := by
      cases kind with
      | caseLabel pattern => cases pattern <;> exact ⟨_, _, rfl⟩
      | _ => exact ⟨_, _, rfl⟩
    simp only [hways, Supply.collect, cross, hpop, bind, Except.bind]
  | ok r =>
    rw [collect_cross hpop]
    dsimp only [bind, Except.bind]
    cases p.depart r.1 r.2 (kind.ways onTrue onFalse) ids with
    | error fault => rfl
    | ok left => simp [arrive, List.flatMap, pure, Except.pure]

/-! ### Leaving a block side by side -/

/-- The nodes stand at the same points and their states agree, and as much is left of the supply. -/
def HandOn (D : SymbolId → Prop) (x y : List ExplodedNode × Supply) : Prop :=
  List.Forall₂ (fun m n => m.point = n.point ∧ m.state.AgreeExcept D n.state) x.1 y.1 ∧ x.2 = y.2

/-- States that differ in symbols that are dead on exit from a block still do after the block was
left. If dead bindings are dropped on the way, they do not differ any more. -/
theorem enter_agree (htracked : ∀ id ∈ p.liveness.tracked, p.graph.symbols.isLocalOrParameter id)
    (h : s.AgreeExcept (fun id => p.liveness.isLiveOut source id = false) t) (target : BlockId) :
    (p.enter source target s).state.AgreeExcept (fun id => p.liveness.isLiveOut source id = false)
      (p.enter source target t).state := by
  unfold enter
  dsimp only
  split
  · refine (h.unbindAll fun id hdead => ?_).collectGarbage.mono nofun
    have hlocal := htracked id (by simp_all [Liveness.isLiveOut])
    simp [hlocal, hdead]
  · exact h

theorem follow_agree (p : Plan) {way : Way}
    (hbound : ∀ id, D id → id ∉ way.bound.symbols → p.liveness.isLiveOut source id = false)
    (h : s.AgreeExcept D t) (v : Value) (ids : Supply) :
    Agree (fun x y => List.Forall₂
        (State.AgreeExcept fun id => p.liveness.isLiveOut source id = false) x.1 y.1 ∧ x.2 = y.2)
      (p.follow s v way ids) (p.follow t v way ids) := by
  have hadmitted := (State.AgreeExcept.knowAlike D).admitted biUnique_eq p.solver h (.refl v)
    way.guard
  refine Agree.collect (fun s t ids h => ?_) hadmitted ids
  refine (p.transfer.bindDesignation_agree h way.bound v ids).bind ?_
  rintro ⟨s, ids⟩ ⟨t, _⟩ ⟨h, rfl⟩
  have h := h.mono fun id hid => hbound id hid.1 hid.2
  refine .ok ⟨?_, rfl⟩
  cases way.residue with
  | nothing => exact h
  | tested => exact h.push v
  | constant c => exact h.push _

/-- Along a way on which a case label binds the symbols in which two states differ, or which are
dead on exit, the states come to differ in symbols that are dead on exit. -/
theorem cross_agree (htracked : ∀ id ∈ p.liveness.tracked, p.graph.symbols.isLocalOrParameter id)
    {way : Way}
    (hbound : ∀ id, D id → id ∉ way.bound.symbols → p.liveness.isLiveOut source id = false)
    (h : s.AgreeExcept D t) (ids : Supply) :
    Agree (HandOn fun id => p.liveness.isLiveOut source id = false)
      (p.cross source way s ids) (p.cross source way t ids) := by
  refine h.pop.bind ?_
  rintro ⟨s, v⟩ ⟨t, _⟩ ⟨h, rfl⟩
  refine (p.follow_agree hbound h v ids).bind ?_
  rintro ⟨states, ids⟩ ⟨states', _⟩ ⟨hstates, rfl⟩
  exact .ok ⟨List.rel_map (fun _ _ h => ⟨rfl, enter_agree htracked h _⟩) hstates, rfl⟩

end Plan

/-! ### Liveness -/

theorem Graph.isLocalOrParameter_of_mem {g : Graph} {id : SymbolId} (h : id ∈ g.trackedSymbols) :
    g.symbols.isLocalOrParameter id := by
  have hany := (List.mem_filter.1 h).2
  unfold SymbolTable.isLocalOrParameter
  cases hs : g.symbols.get? id with
  | none => simp [hs] at hany
  | some symbol => simp_all

/-- States that differ in symbols that are dead on entry to a block have the same outcome in the
block, and come to differ in symbols that are dead on exit. Variables of a case label are taken care
of along each of its ways. None of the symbols may be one that is missed, by a pattern in the block
or along the way. -/
theorem Plan.agree_of_dead {g : Graph} {config : Config} {rules : List Rule} {b : BlockId}
    {block : Block} (hblock : g.block? b = some block) {D : SymbolId → Prop}
    (hdead : ∀ id, D id → (Plan.of g config rules).liveness.isLiveIn b id = false) {s t : State}
    (h : s.AgreeExcept D t) {ids : Supply}
    (hmissed : ∀ id ∈ (Plan.of g config rules).transfer.missed block.nodes s ids, ¬ D id) :
    let p := Plan.of g config rules
    Agree
      (Option.Rel fun x y =>
        x.2 = y.2 ∧
        x.1.AgreeExcept (fun id => p.liveness.isLiveOut b id = false ∨
          D id ∧ id ∈ block.terminator.defines) y.1 ∧
        ∀ pattern onTrue onFalse, block.terminator = .branch (.caseLabel pattern) onTrue onFalse →
          ∀ way ∈ pattern.ways onTrue onFalse,
            (∀ id ∈ pattern.designatedSymbols, id ∈ way.bound.symbols ∨ ¬ D id) →
            Agree (HandOn fun id => p.liveness.isLiveOut b id = false)
              (p.cross b way x.1 x.2) (p.cross b way y.1 y.2))
      (p.transfer.visitAll block.nodes s ids) (p.transfer.visitAll block.nodes t ids) := by
  intro p
  have hlive := fun id hid => Liveness.of_isLiveIn_eq_false hblock (hdead id hid)
  have htracked : ∀ id ∈ p.liveness.tracked, p.graph.symbols.isLocalOrParameter id :=
    fun _ hid => Graph.isLocalOrParameter_of_mem hid
  refine (p.transfer.visitAll_agree (fun id hid => htracked id (hlive id hid).1)
    (fun id hid => (hlive id hid).2.1) hmissed h).imp fun _ _ => optionRel_imp ?_
  rintro ⟨u, ids⟩ ⟨w, _⟩ ⟨hu, rfl⟩
  -- what the block does not write is dead on exit, but for variables of its case label
  have hexit : ∀ id, D id →
      (block.nodes.any fun node => node.instruction.defines.contains id) = false →
      id ∉ block.terminator.defines → p.liveness.isLiveOut b id = false := by
    intro id hid hnodes hlabel
    refine (hlive id hid).2.2 ?_
    rw [Block.defines, hnodes]
    simpa using hlabel
  refine ⟨rfl, hu.mono fun id hid => ?_, fun pattern onTrue onFalse hterminator way _ hbound => ?_⟩
  · by_cases hlabel : id ∈ block.terminator.defines
    · exact .inr ⟨hid.1, hlabel⟩
    · exact .inl (hexit id hid.1 hid.2 hlabel)
  · refine cross_agree htracked (fun id hid hnot => hexit id hid.1 hid.2 fun hlabel => ?_) hu ids
    rw [hterminator] at hlabel
    exact (hbound id hlabel).elim hnot fun hD => hD hid.1

/-- Matches a variable against two type patterns, the second as a case label. -/
def matchBlock : Block where
  nodes :=
    [⟨.read ⟨0⟩ false, none⟩,
     ⟨.isPattern (.type ⟨"T", .reference, false, false⟩ (.single ⟨1⟩)), none⟩, ⟨.discard, none⟩,
     ⟨.read ⟨0⟩ false, none⟩]
  terminator :=
    .branch (.caseLabel (.type ⟨"T", .reference, false, false⟩ (.single ⟨2⟩))) ⟨1⟩ ⟨2⟩

/-- A method in which the variables of both patterns are read later, one on each branch. -/
def matchTwice : Graph where
  method := "match"
  blocks :=
    [matchBlock,
     ⟨[⟨.read ⟨1⟩ false, none⟩, ⟨.discard, none⟩], .jump ⟨3⟩ .plain⟩,
     ⟨[⟨.discard, none⟩, ⟨.read ⟨1⟩ false, none⟩, ⟨.read ⟨2⟩ false, none⟩, ⟨.discard, none⟩,
        ⟨.discard, none⟩], .jump ⟨3⟩ .plain⟩,
     Draft.exitBlock]
  entry := ⟨0⟩
  exit := ⟨3⟩
  parameters := [⟨0⟩]
  symbols :=
    ⟨[⟨"o", .parameter, ⟨"T", .reference, false, false⟩, false⟩,
      ⟨"x", .localVariable, ⟨"T", .reference, false, false⟩, false⟩,
      ⟨"y", .localVariable, ⟨"T", .reference, false, false⟩, false⟩]⟩

/-- If the patterns may match, it does not matter what their variables held before. -/
theorem Plan.agree_matchTwice :
    let p := Plan.of matchTwice .default []
    let matched : Way := ⟨⟨1⟩, true, .holds .notNull, .single ⟨2⟩, .nothing⟩
    let t := State.initial.assign ⟨0⟩ (.unknown 0)
    let s := (t.assign ⟨1⟩ .null).assign ⟨2⟩ .null
    (∀ id, id = ⟨1⟩ ∨ id = ⟨2⟩ → p.liveness.isLiveIn ⟨0⟩ id = false) ∧
    s.AgreeExcept (fun id => id = ⟨1⟩ ∨ id = ⟨2⟩) t ∧
    (∀ id ∈ p.transfer.missed matchBlock.nodes s .odd, ¬ (id = ⟨1⟩ ∨ id = ⟨2⟩)) ∧
    Agree
      (Option.Rel fun x y => x.2 = y.2 ∧
        Agree (HandOn fun id => p.liveness.isLiveOut ⟨0⟩ id = false) (p.cross ⟨0⟩ matched x.1 x.2)
          (p.cross ⟨0⟩ matched y.1 y.2))
      (p.transfer.visitAll matchBlock.nodes s .odd)
      (p.transfer.visitAll matchBlock.nodes t .odd) := by
  intro p matched t s
  have hdead : ∀ id, id = ⟨1⟩ ∨ id = ⟨2⟩ → p.liveness.isLiveIn ⟨0⟩ id = false := by
    rintro _ (rfl | rfl) <;> decide +kernel
  have hagree : s.AgreeExcept (fun id => id = ⟨1⟩ ∨ id = ⟨2⟩) t :=
    (((State.AgreeExcept.refl t).assign_left ⟨1⟩ .null).assign_left ⟨2⟩ .null).mono (by simp)
  have hmissed : ∀ id ∈ p.transfer.missed matchBlock.nodes s .odd, ¬ (id = ⟨1⟩ ∨ id = ⟨2⟩) := by
    decide +kernel
  have hblock : matchTwice.block? ⟨0⟩ = some matchBlock := rfl
  refine ⟨hdead, hagree, hmissed, ?_⟩
  refine (agree_of_dead hblock hdead hagree hmissed).imp fun _ _ => optionRel_imp fun x y hxy => ?_
  exact ⟨hxy.1, hxy.2.2 _ _ _ rfl matched List.mem_cons_self (by decide)⟩

/-- What a symbol holds in the states that come out of a block along a way of its case label. -/
def Plan.outcomes (p : Plan) (b : BlockId) (block : Block) (way : Way) (id : SymbolId)
    (s : State) (ids : Supply) : List (Option Value) :=
  match p.transfer.visitAll block.nodes s ids with
  | .ok (some (s, ids)) =>
    match p.cross b way s ids with
    | .ok (nodes, _) => nodes.map fun n => n.state.lookup id
    | .error _ => []
  | _ => []

theorem Plan.outcomes_eq {p : Plan} {b : BlockId} {block : Block} {D : SymbolId → Prop}
    {s t : State} {ids : Supply}
    (h : Agree
      (Option.Rel fun x y => ∀ pattern onTrue onFalse,
        block.terminator = .branch (.caseLabel pattern) onTrue onFalse →
        ∀ way ∈ pattern.ways onTrue onFalse,
          Agree (HandOn D) (p.cross b way x.1 x.2) (p.cross b way y.1 y.2))
      (p.transfer.visitAll block.nodes s ids) (p.transfer.visitAll block.nodes t ids))
    {pattern : Pattern} {onTrue onFalse : BlockId}
    (hterminator : block.terminator = .branch (.caseLabel pattern) onTrue onFalse)
    {way : Way} (hway : way ∈ pattern.ways onTrue onFalse) {id : SymbolId} (hid : ¬ D id) :
    p.outcomes b block way id s ids = p.outcomes b block way id t ids := by
  unfold outcomes
  obtain ⟨fault, hs, ht⟩ | ⟨x, y, hs, ht, hxy⟩ := h.cases
  · rw [hs, ht]
  · rw [hs, ht]
    obtain ⟨rfl, rfl⟩ | ⟨⟨u, ids⟩, ⟨w, ids'⟩, rfl, rfl, hways⟩ := optionRel_cases hxy
    · rfl
    · obtain ⟨fault, hs, ht⟩ | ⟨⟨nodes, _⟩, ⟨nodes', _⟩, hs, ht, hnodes, -⟩ :=
        (hways _ _ _ hterminator way hway).cases
      · simp only [hs, ht]
      · simp only [hs, ht]
        dsimp only at hnodes
        clear hs ht
        induction hnodes with
        | nil => rfl
        | cons hmn _ ih => rw [List.map_cons, List.map_cons, hmn.2.lookup id hid, ih]

/-- Where a pattern is known to fail, what its variable held before comes out of the block, and so
does what the variable of the case label held along the way past the label. Both are live there. -/
theorem missed_differ_in_live :
    let p := Plan.of matchTwice .default []
    let null := State.initial.assign ⟨0⟩ .null
    let unknown := State.initial.assign ⟨0⟩ (.unknown 0)
    ∀ x ∈ [(null.assign ⟨1⟩ .null, null), (unknown.assign ⟨2⟩ .null, unknown)],
      x.1.AgreeExcept (fun id => p.liveness.isLiveIn ⟨0⟩ id = false) x.2 ∧
      ¬ Agree
        (Option.Rel fun y z => ∀ pattern onTrue onFalse,
          matchBlock.terminator = .branch (.caseLabel pattern) onTrue onFalse →
          ∀ way ∈ pattern.ways onTrue onFalse,
            Agree (Plan.HandOn fun id => p.liveness.isLiveOut ⟨0⟩ id = false)
              (p.cross ⟨0⟩ way y.1 y.2) (p.cross ⟨0⟩ way z.1 z.2))
        (p.transfer.visitAll matchBlock.nodes x.1 .odd)
        (p.transfer.visitAll matchBlock.nodes x.2 .odd) := by
  intro p null unknown
  let past : Way := ⟨⟨2⟩, false, .nothing, .none, .tested⟩
  have hdead : p.liveness.isLiveIn ⟨0⟩ ⟨1⟩ = false ∧ p.liveness.isLiveIn ⟨0⟩ ⟨2⟩ = false := by
    decide +kernel
  have hlive : p.liveness.isLiveOut ⟨0⟩ ⟨1⟩ ∧ p.liveness.isLiveOut ⟨0⟩ ⟨2⟩ := by decide +kernel
  have hdiffer :
      p.outcomes ⟨0⟩ matchBlock past ⟨1⟩ (null.assign ⟨1⟩ .null) .odd ≠
        p.outcomes ⟨0⟩ matchBlock past ⟨1⟩ null .odd ∧
      p.outcomes ⟨0⟩ matchBlock past ⟨2⟩ (unknown.assign ⟨2⟩ .null) .odd ≠
        p.outcomes ⟨0⟩ matchBlock past ⟨2⟩ unknown .odd := by decide +kernel
  have hagree : ∀ (t : State) (id : SymbolId), p.liveness.isLiveIn ⟨0⟩ id = false →
      (t.assign id .null).AgreeExcept (fun id => p.liveness.isLiveIn ⟨0⟩ id = false) t :=
    fun t id hid => ((State.AgreeExcept.refl t).assign_left id .null).mono (by simp [hid])
  have hpast : past ∈ Pattern.ways ⟨1⟩ ⟨2⟩
      (.type ⟨"T", .reference, false, false⟩ (.single ⟨2⟩)) :=
    List.mem_cons_of_mem _ List.mem_cons_self
  intro x hx
  rcases List.mem_cons.1 hx with rfl | hx
  · refine ⟨hagree null ⟨1⟩ hdead.1, fun h => hdiffer.1 ?_⟩
    exact Plan.outcomes_eq h rfl hpast (by simp [hlive])
  · obtain rfl := List.mem_singleton.1 hx
    refine ⟨hagree unknown ⟨2⟩ hdead.2, fun h => hdiffer.2 ?_⟩
    exact Plan.outcomes_eq h rfl hpast (by simp [hlive])

end Pathwise
