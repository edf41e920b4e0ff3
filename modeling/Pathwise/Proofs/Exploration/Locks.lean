import Pathwise.Proofs.Exploration.Changes
import Pathwise.Proofs.Exploration.Observed
import Pathwise.Proofs.Exploration.Termination
import Pathwise.Proofs.Rule.Locks

/-!
Reports about locks, and the paths that leak them. A lock is known to be held at a node exactly if
the chain that leads to the node has taken it, and has neither released it since nor overwritten the
member that it was read from. A lock is reported if some chain leads to where the method is left
while the lock is known to be held.

The report stands where the lock was first taken in the course of the walk. Walks have one record of
this for all paths, so the place may lie on a path that does release the lock.
-/

namespace Pathwise

/-- The value that is no longer known to be a held lock after an instruction. -/
def Instruction.lost? (symbols : SymbolTable) (i : Instruction) (s : State) : Option Value :=
  (i.lock? .lockRelease s).or (i.overwritten? symbols s)

/-- First the rules take and give up locks, then the instruction makes a member void. No instruction
does both, as a call is no assignment. -/
theorem Instruction.relocks_trans {symbols : SymbolTable} {i : Instruction} {s t u : State}
    (h : s.Relocks (i.lock? .lockAcquire s) (i.lock? .lockRelease s) t)
    (h' : t.Relocks none (i.overwritten? symbols s) u) :
    s.Relocks (i.lock? .lockAcquire s) (i.lost? symbols s) u := by
  cases i with
  | invocation method argCount =>
    have hnone : (Instruction.invocation method argCount).overwritten? symbols s = none := rfl
    rw [hnone] at h'
    rw [lost?, hnone, Option.or_none]
    exact h.trans_right h'
  | _ => exact State.Relocks.trans_left h h'

namespace Plan

variable {p : Plan} {m n : ExplodedNode} {ids ids' : Supply} {v : Value}
  {next : List ExplodedNode}

/-- The member that the assignment at a node makes void, if there is such an assignment. -/
def overwritten? (p : Plan) (n : ExplodedNode) : Option Value :=
  (p.graph.node? n.point).bind fun node => node.instruction.overwritten? p.graph.symbols n.state

/-- A step from the first node to the second takes a lock and loses one as its instruction says. -/
structure Relocks (p : Plan) (m n : ExplodedNode) : Prop where
  locks : m.state.Relocks (p.lock? .lockAcquire m)
    ((p.lock? .lockRelease m).or (p.overwritten? m)) n.state
  noticed : ∀ v, p.lock? .lockAcquire m = some v → p.Acquires m v

/-- The first of the nodes at which a lock is taken stands at the point. -/
def FirstAcquires (p : Plan) (nodes : List ExplodedNode) (v : Value) (point : ProgramPoint) :
    Prop :=
  ∃ before n after, nodes = before ++ n :: after ∧ n.point = point ∧ p.Acquires n v ∧
    ∀ a ∈ before, ¬ p.Acquires a v

/-! ### Steps -/

/-- Nothing that a terminator may do to a state takes or loses a lock. -/
theorem outlives_relocks (p : Plan) (s : State) : p.Outlives (s.Relocks none none) where
  restack _ h := h.congr rfl
  record hc ht h := h.trans_right (State.relocks_of_record? hc ht)
  assign _ _ h := h.congr rfl
  unbindWhere _ h := h.congr rfl
  collectGarbage h := h.trans_right (State.relocks_collectGarbage _)

/-- An instruction takes and loses locks, and the rules have let the path go on. -/
theorem processNode_relocks (hrule : .lockRelease ∈ p.rules) (point : ProgramPoint) (node : Node)
    (s : State) (ids : Supply) :
    Meets (fun _ => True)
      (fun r => ∀ n ∈ r.1, s.Relocks (node.instruction.lock? .lockAcquire s)
          (node.instruction.lost? p.graph.symbols s) n.state ∧
        (Rule.before p.rules (p.site point node.span) node.instruction s).state.isSome)
      (p.processNode point node s ids).result := by
  refine (p.processNode_follows point node s ids).mono (fun _ h => h) fun r hr n hn => ?_
  obtain ⟨t, u, ids', ht, hvisit, hstate⟩ := hr n hn
  have hstack := (Rule.factsOnly_before _ _ node.instruction s t ht).stack
  have hseen := Rule.relocks_before hrule (p.site point node.span) node.instruction s
  have hkeeps := p.transfer.visit_keepsLocks node.instruction t ids u ids' hvisit
  rw [show p.transfer.symbols = p.graph.symbols from rfl,
    Instruction.overwritten?_congr hstack] at hkeeps
  refine ⟨Instruction.relocks_trans (hseen t ht) ?_, Option.isSome_iff_exists.2 ⟨t, ht⟩⟩
  rcases hstate with hstate | ⟨type, argCount, v, hstate⟩
  · rw [hstate]
    exact hkeeps
  · rw [hstate]
    exact hkeeps.trans_right (Rule.relocks_created _ _ _ _ _ _)

/-- What a step does to held locks can be read off its node. -/
theorem relocks_of_process (hrule : .lockRelease ∈ p.rules)
    (h : (p.process m ids).result = .ok (next, ids')) (hn : n ∈ next) : p.Relocks m n := by
  unfold process at h
  cases hblock : p.graph.block? m.point.block with
  | none => simp [hblock, Step.quiet] at h
  | some block =>
    simp only [hblock] at h
    cases hat : block.nodes[m.point.offset]? with
    | some node =>
      simp only [hat] at h
      have hnode : p.graph.node? m.point = some node := by simp [Graph.node?, hblock, hat]
      have hmeets := processNode_relocks hrule m.point node m.state ids
      rw [h] at hmeets
      obtain ⟨hlocks, hstate⟩ := hmeets n hn
      refine ⟨?_, fun v hv => ⟨hv, node, hnode, Rule.showLocks_of_isSome hrule hstate⟩⟩
      simpa [lock?, overwritten?, hnode, Instruction.lost?] using hlocks
    | none =>
      -- at the end of a block no lock is taken or lost
      have hnode : p.graph.node? m.point = none := by simp [Graph.node?, hblock, hat]
      have hnone : p.lock? .lockAcquire m = none := by simp [lock?, hnode]
      simp only [hat] at h
      split at h
      · have hmeets := processTerminator_keeps (p.outlives_relocks m.state) (.refl m.state) m.point
          block ids
        rw [h] at hmeets
        refine ⟨?_, fun v hv => by simp [hnone] at hv⟩
        simpa [lock?, overwritten?, hnode] using hmeets n hn
      · cases h

end Plan

/-! ### Chains -/

theorem State.not_has_held_initial (v : Value) : ¬ State.initial.has v .held := by
  rw [State.has_held, State.factsOf_initial, Bool.not_eq_true]
  cases v with
  | constant c => cases c <;> rfl
  | _ => rfl

/-- No lock is held when the method is entered. -/
theorem Plan.not_has_held_of_entryState {p : Plan} {ids ids' : Supply} {s : State}
    (h : p.entryState ids = .ok (s, ids')) (v : Value) : ¬ s.has v .held := by
  have hmeets : Meets (fun _ => True) (fun r => State.Relocks none none .initial r.1)
      (p.entryState ids) := by
    refine Meets.foldlM ?_ (.refl _)
    rintro id - ⟨s, ids⟩ hs
    refine ((p.transfer.symbol_meets id).weaken fun _ _ => trivial).bind fun symbol _ => ?_
    refine State.Relocks.congr (t := if symbol.type.isValueType then
      (s.record? ids.fresh.1 .notNull).getD s else s) ?_ rfl
    split
    · cases hrecord : s.record? ids.fresh.1 .notNull with
      | none => exact hs
      | some t => exact State.Relocks.trans_right hs (State.relocks_of_record? (by simp) hrecord)
    · exact hs
  rw [h] at hmeets
  rw [hmeets v]
  simp [State.not_has_held_initial]

namespace Exploration

variable {p : Plan} {ids : Supply} {s : State} {m n : ExplodedNode} {v : Value}
  {next added later earlier : List ExplodedNode} {e₀ e e' : Exploration}

theorem Progress.relocks (hrule : .lockRelease ∈ p.rules) (h : Progress p m next added e e')
    (hn : n ∈ added) : p.Relocks m n := by
  obtain ⟨n₀, hn₀, -, rfl⟩ := h.reaches.joined n hn
  have hlocks := Plan.relocks_of_process hrule h.process hn₀
  exact ⟨hlocks.locks.congr rfl, hlocks.noticed⟩

theorem Links.relocks (hrule : .lockRelease ∈ p.rules) (h : Links p e₀ m n) : p.Relocks m n := by
  obtain ⟨count, e, e', next, added, -, hstep, hn⟩ := h
  exact hstep.relocks hrule hn

/-- A lock that is held at the end of a chain was taken on it, and was not released after that. -/
theorem Chain.exists_acquired (hrule : .lockRelease ∈ p.rules) (hs : Started p ids s e₀)
    {rest : List ExplodedNode} (h : Chain p e₀ (n :: rest)) (hheld : n.state.has v .held) :
    ∃ later m earlier, rest = later ++ m :: earlier ∧ p.lock? .lockAcquire m = some v ∧
      ∀ a ∈ later, p.lock? .lockRelease a ≠ some v := by
  generalize hwhole : n :: rest = whole at h
  induction h generalizing n rest with
  | @start n hn =>
    cases hwhole
    obtain ⟨n₀, hn₀, -, rfl⟩ := hs.reaches.joined n hn
    obtain rfl := List.mem_singleton.1 hn₀
    exact absurd hheld (Plan.not_has_held_of_entryState hs.entry v)
  | @link m n rest _ hlink ih =>
    cases hwhole
    rcases ((hlink.relocks hrule).locks v).1 hheld with htaken | ⟨hheld, hlost⟩
    · exact ⟨[], m, rest, rfl, htaken, by simp⟩
    · obtain ⟨later, m', earlier, rfl, htaken, hlater⟩ := ih hheld rfl
      refine ⟨m :: later, m', earlier, rfl, htaken, fun a ha => ?_⟩
      rcases List.mem_cons.1 ha with rfl | ha
      · exact fun hrelease => hlost (by rw [hrelease]; rfl)
      · exact hlater a ha

/-- A lock that was taken on a chain is held at its end, unless it was released or overwritten after
that. -/
theorem Chain.held (hrule : .lockRelease ∈ p.rules)
    (h : Chain p e₀ (n :: (later ++ m :: earlier))) (hm : p.lock? .lockAcquire m = some v)
    (hlater : ∀ a ∈ later, p.lock? .lockRelease a ≠ some v ∧ p.overwritten? a ≠ some v) :
    n.state.has v .held := by
  induction later generalizing n with
  | nil =>
    cases h with
    | link _ hlink => exact ((hlink.relocks hrule).locks v).2 (.inl hm)
  | cons a later ih =>
    cases h with
    | link hchain hlink =>
      obtain ⟨hrelease, hoverwritten⟩ := hlater a List.mem_cons_self
      have hheld := ih hchain fun b hb => hlater b (List.mem_cons_of_mem _ hb)
      refine ((hlink.relocks hrule).locks v).2 (.inr ⟨hheld, fun hlost => ?_⟩)
      rcases Option.or_eq_some_iff.1 hlost with h | ⟨-, h⟩
      · exact hrelease h
      · exact hoverwritten h

/-! ### What the ledger knows about locks -/

/-- The ledger knows where locks were taken first, and reports those that are held at an exit. -/
structure LocksKnown (p : Plan) (e : Exploration) : Prop where
  first : ∀ v a, e.ledger.acquisitions[v]? = some a →
    p.FirstAcquires e.processed v a.location.point
  untaken : ∀ v, e.ledger.acquisitions[v]? = none → ∀ n ∈ e.processed, ¬ p.Acquires n v
  held : ∀ n ∈ e.nodes.toList, ∀ v, n.state.has v .held →
    ∃ a, e.ledger.acquisitions[v]? = some a
  reported : ∀ x ∈ e.ledger.log.entries, x.1.rule = LockRelease.rule →
    ∃ v a, x.2 = some v ∧ e.ledger.acquisitions[v]? = some a ∧ x.1.location = a.location ∧
      ∃ n ∈ e.processed, p.graph.Exits n.point ∧ n.state.has v .held
  leaks : ∀ n ∈ e.processed, p.graph.Exits n.point → ∀ v, n.state.has v .held →
    ∃ x ∈ e.ledger.log.entries, x.1.rule = LockRelease.rule ∧ x.2 = some v

theorem LocksKnown.of_started (hs : Started p ids s e) (hfresh : e.Fresh) : e.LocksKnown p := by
  have hnone : ∀ v : Value, e.ledger.acquisitions[v]? = none := by
    simp [hfresh.ledger, Ledger.empty]
  have hentries : e.ledger.log.entries = [] := by
    simp [hfresh.ledger, Ledger.empty, FindingLog.empty]
  constructor
  · intro v a ha
    simp [hnone] at ha
  · simp [hfresh.processed]
  · intro n hn v hheld
    obtain ⟨n₀, hn₀, -, rfl⟩ := hs.reaches.joined n hn
    obtain rfl := List.mem_singleton.1 hn₀
    exact absurd hheld (Plan.not_has_held_of_entryState hs.entry v)
  · simp [hentries]
  · simp [hfresh.processed]

section

variable (h : Progress p m next added e e')

include h

theorem Progress.acquisitions (v : Value) : e'.ledger.acquisitions[v]? =
    e.ledger.acquisitions[v]?.or
      ((p.process m e.ids).observations.findSome? fun o => o.acquisition? v) := by
  rw [h.ledger, Ledger.acquisitions_noteAll]

theorem Progress.acquisitions_of_some {a : Acquisition} (ha : e.ledger.acquisitions[v]? = some a) :
    e'.ledger.acquisitions[v]? = some a := by
  rw [h.acquisitions, ha]
  rfl

theorem Progress.mem_processed (hn : n ∈ e.processed) : n ∈ e'.processed := by
  rw [h.processed]
  exact List.mem_append_left _ hn

theorem Progress.entries : e'.ledger.log.entries =
    e.ledger.log.entries ++ e.ledger.published (p.process m e.ids).observations := by
  rw [h.ledger, Ledger.entries_noteAll]

end

/-- The first acquisition is the one that is written down. -/
theorem LocksKnown.first_step (he : e.LocksKnown p) (h : Progress p m next added e e')
    {a : Acquisition} (ha : e'.ledger.acquisitions[v]? = some a) :
    p.FirstAcquires e'.processed v a.location.point := by
  rw [h.acquisitions] at ha
  rw [h.processed]
  cases hold : e.ledger.acquisitions[v]? with
  | some a' =>
    rw [hold] at ha
    obtain rfl : a' = a := Option.some.inj ha
    obtain ⟨before, n, after, hnodes, hpoint, hacquires, hbefore⟩ := he.first v a' hold
    exact ⟨before, n, after ++ [m], by simp [hnodes], hpoint, hacquires, hbefore⟩
  | none =>
    rw [hold] at ha
    obtain ⟨hacquires, hpoint⟩ := Plan.acquires_of_findSome? ha
    exact ⟨e.processed, m, [], rfl, hpoint.symm, hacquires, he.untaken v hold⟩

theorem LocksKnown.untaken_step (he : e.LocksKnown p) (h : Progress p m next added e e')
    (hnone : e'.ledger.acquisitions[v]? = none) : ∀ n ∈ e'.processed, ¬ p.Acquires n v := by
  rw [h.acquisitions, Option.or_eq_none_iff] at hnone
  obtain ⟨hold, hnew⟩ := hnone
  intro n hn hacquires
  rw [h.processed] at hn
  rcases List.mem_append.1 hn with hn | hn
  · exact he.untaken v hold n hn hacquires
  · obtain rfl := List.mem_singleton.1 hn
    have hsome := Plan.isSome_findSome?_of_acquires hacquires e.ids
    rw [hnew] at hsome
    cases hsome

/-- Where a lock is held, it is known where it was taken. -/
theorem LocksKnown.held_step (hrule : .lockRelease ∈ p.rules) (he : e.LocksKnown p)
    (h : Progress p m next added e e') (hn : n ∈ e'.nodes.toList) (hheld : n.state.has v .held) :
    ∃ a, e'.ledger.acquisitions[v]? = some a := by
  have hkept : (∃ a, e.ledger.acquisitions[v]? = some a) →
      ∃ a, e'.ledger.acquisitions[v]? = some a := fun ⟨a, ha⟩ => ⟨a, h.acquisitions_of_some ha⟩
  rw [h.nodes] at hn
  rcases List.mem_append.1 hn with hn | hn
  · exact hkept (he.held n hn v hheld)
  · have hlocks := h.relocks hrule hn
    rcases (hlocks.locks v).1 hheld with htaken | ⟨hheld, -⟩
    · have hsome := Plan.isSome_findSome?_of_acquires (hlocks.noticed v htaken) e.ids
      rw [h.acquisitions]
      exact Option.isSome_iff_exists.1 (by simp [Option.isSome_or, hsome])
    · exact hkept (he.held m h.head_mem v hheld)

end Exploration

/-- Where the method is left, nothing is noticed but held locks. -/
theorem Plan.atExit_of_exits {p : Plan} {m : ExplodedNode} (hexit : p.graph.Exits m.point)
    (ids : Supply) :
    ∃ name exit, ∀ o ∈ (p.process m ids).observations, o.AtExit name exit := by
  obtain ⟨span, hprocess⟩ := p.process_of_exits hexit
  rw [show p.process m ids = _ from hprocess m.state ids]
  exact ⟨_, _, fun o ho => Rule.atExit_of_mem_exit ho⟩

namespace Exploration

variable {p : Plan} {ids : Supply} {s : State} {m n : ExplodedNode} {v : Value} {x : LogEntry}
  {next added : List ExplodedNode} {e e' : Exploration}

/-- What is reported about locks is reported where they were taken first, at exits where they are
held. -/
theorem LocksKnown.reported_step (he : e.LocksKnown p) (h : Progress p m next added e e')
    (hx : x ∈ e'.ledger.log.entries) (hrule : x.1.rule = LockRelease.rule) :
    ∃ v a, x.2 = some v ∧ e'.ledger.acquisitions[v]? = some a ∧ x.1.location = a.location ∧
      ∃ n ∈ e'.processed, p.graph.Exits n.point ∧ n.state.has v .held := by
  rw [h.entries] at hx
  rcases List.mem_append.1 hx with hx | hx
  · obtain ⟨v, a, hv, ha, hlocation, n, hn, hleak⟩ := he.reported x hx hrule
    exact ⟨v, a, hv, h.acquisitions_of_some ha, hlocation, n, h.mem_processed hn, hleak⟩
  · by_cases hexit : p.graph.Exits m.point
    · obtain ⟨name, exit, hobservations⟩ := Plan.atExit_of_exits hexit e.ids
      obtain ⟨⟨v, hv, a, ha, rfl⟩, -⟩ :=
        ((Ledger.published_leaks hobservations e.ledger).2 x).1 hx
      refine ⟨v, a, rfl, h.acquisitions_of_some ha, rfl, m, ?_, hexit, ?_⟩
      · rw [h.processed]
        exact List.mem_append_right _ (List.mem_singleton.2 rfl)
      · cases Plan.notices_of_mem hv with
        | plain hplain => exact hplain.elim
        | heldAtExit _ _ hheld => exact hheld
    · -- elsewhere only defects are reported, under other names
      obtain ⟨l, o, ho, hrequest⟩ := Ledger.exists_of_mem_published hx
      cases Plan.notices_of_mem ho with
      | plain hplain =>
        cases o with
        | defect finding value =>
          cases hrequest
          replace hplain : finding.rule ∈ Rule.defectNames := hplain
          rw [hrule] at hplain
          exact absurd hplain (by decide)
        | journal => cases hrequest
        | _ => exact hplain.elim
      | acquired | decided => cases hrequest
      | heldAtExit hexit' => exact absurd hexit' hexit

/-- No lock that is held at an exit goes unreported. -/
theorem LocksKnown.leaks_step (hrule : .lockRelease ∈ p.rules) (he : e.LocksKnown p)
    (h : Progress p m next added e e') (hn : n ∈ e'.processed) (hexit : p.graph.Exits n.point)
    (hheld : n.state.has v .held) :
    ∃ x ∈ e'.ledger.log.entries, x.1.rule = LockRelease.rule ∧ x.2 = some v := by
  rw [h.entries]
  rw [h.processed] at hn
  rcases List.mem_append.1 hn with hn | hn
  · obtain ⟨x, hx, hleak⟩ := he.leaks n hn hexit v hheld
    exact ⟨x, List.mem_append_left _ hx, hleak⟩
  · obtain rfl := List.mem_singleton.1 hn
    obtain ⟨a, ha⟩ := he.held n h.head_mem v hheld
    obtain ⟨name, exit, hobservations⟩ := Plan.atExit_of_exits hexit e.ids
    obtain ⟨name', exit', hmem⟩ := Plan.exists_heldAtExit_mem hexit hrule hheld e.ids
    have hat : name' = name v ∧ exit' = exit := by
      rcases hobservations _ hmem with ⟨w, hw⟩ | ⟨event, hevent⟩
      · cases hw
        exact ⟨rfl, rfl⟩
      · cases hevent
    obtain ⟨rfl, rfl⟩ := hat
    by_cases hcovers : e.ledger.log.covers (Ledger.leak a (name v) exit') (some v)
    · obtain ⟨y, hy, hyrule, -, hyvalue⟩ :=
        (FindingLog.covers_iff (x := (Ledger.leak a (name v) exit', some v))).1 hcovers
      exact ⟨y, List.mem_append_left _ hy, hyrule, hyvalue⟩
    · refine ⟨(Ledger.leak a (name v) exit', some v), List.mem_append_right _ ?_, rfl, rfl⟩
      exact ((Ledger.published_leaks hobservations e.ledger).2 _).2
        ⟨⟨v, hmem, a, ha, rfl⟩, hcovers⟩

theorem Runs.locksKnown (hrule : .lockRelease ∈ p.rules) {count : Nat} (h : Runs p count e e')
    (hs : Started p ids s e) (hfresh : e.Fresh) : e'.LocksKnown p := by
  refine h.invariant (P := fun e => e.LocksKnown p) ?_ (.of_started hs hfresh)
  intro m next added e e' hstep he
  exact ⟨fun v a => he.first_step hstep, fun v => he.untaken_step hstep,
    fun n hn v => he.held_step hrule hstep hn, fun x => he.reported_step hstep,
    fun n hn hexit v => he.leaks_step hrule hstep hn hexit⟩

end Exploration

/-! ### Leaking paths -/

/-- The chain takes the lock at a point and goes on to where the method is left, through later nodes
none of which releases the lock. -/
def Plan.Leaks (p : Plan) (v : Value) (point : ProgramPoint) (later chain : List ExplodedNode) :
    Prop :=
  ∃ n m earlier, chain = n :: (later ++ m :: earlier) ∧ p.graph.Exits n.point ∧ m.point = point ∧
    p.lock? .lockAcquire m = some v ∧ ∀ a ∈ later, p.lock? .lockRelease a ≠ some v

namespace Walk

variable {p : Plan} {w : Watchdog} {ids : Supply} {completion : Completion} {v : Value}
  {n : ExplodedNode} {chain : List ExplodedNode}

/-- A chain of processed nodes, the last one first, each of which was reached when the one before it
was processed. -/
def Explored (p : Plan) (w : Watchdog) (ids : Supply) (chain : List ExplodedNode) : Prop :=
  ∃ e, (new p w ids).start = .ok e ∧ Exploration.Chain p e chain ∧
    ∀ n ∈ chain, n ∈ (new p w ids).run.1.exploration.processed

/-- Every processed node is the last node of an explored chain. -/
theorem exists_explored (hok : (new p w ids).run.2 = .ok completion)
    (hn : n ∈ (new p w ids).run.1.exploration.processed) :
    ∃ rest, Explored p w ids (n :: rest) := by
  obtain ⟨e, e', hmade⟩ := exists_made hok
  obtain ⟨count, hruns⟩ := hmade.runs
  have hmem : n ∈ e'.nodes.toList := by
    rw [hmade.processed] at hn
    exact List.mem_of_mem_take hn
  obtain ⟨rest, hchain, hrest⟩ := hruns.exists_chain_processed n hmem
  refine ⟨rest, e, hmade.start, hchain, fun a ha => ?_⟩
  rcases List.mem_cons.1 ha with rfl | ha
  · exact hn
  · rw [hmade.processed]
    exact hrest a ha

/-- The last node of an explored chain has counted where the chain came by. -/
theorem Explored.visitCount (hg : p.graph.Closed) {rest : List ExplodedNode}
    (h : Explored p w ids (n :: rest)) (q : ProgramPoint) :
    n.state.visitCount q = ((n :: rest).map ExplodedNode.point).count q := by
  obtain ⟨e, hstart, hchain, -⟩ := h
  obtain ⟨s, hs⟩ := started_of_start hstart
  obtain ⟨n', rest', heq, -, -, hcounts⟩ := hchain.counts hg hs
  cases heq
  exact hcounts q

theorem Made.locksKnown {e e' : Exploration} (h : Made p w ids completion e e')
    (hrule : .lockRelease ∈ p.rules) : e'.LocksKnown p := by
  obtain ⟨s, hs⟩ := started_of_start h.start
  obtain ⟨count, hruns⟩ := h.runs
  exact hruns.locksKnown hrule hs (fresh_of_start h.start)

/-- Reports about locks are written down step by step, none at the end. -/
theorem Made.mem_entries_iff {e e' : Exploration} (h : Made p w ids completion e e') {x : LogEntry}
    (hx : x.1.rule = LockRelease.rule) :
    x ∈ (new p w ids).run.1.exploration.ledger.log.entries ↔ x ∈ e'.ledger.log.entries := by
  obtain ⟨new, hnew, hconstant⟩ := Ledger.exists_extends_finish p.rules (.start p.graph.entry)
    completion e'.ledger
  rw [h.ledger, hnew.entries, List.mem_append]
  refine ⟨fun hmem => hmem.resolve_right fun hmem => ?_, .inl⟩
  obtain ⟨outcome, hrule, -⟩ := Ledger.mem_constantConditions (hconstant x hmem)
  rw [hx] at hrule
  cases outcome <;> exact absurd hrule (by decide)

/-- Where there is a report about a lock, a chain leaks the lock. Where a chain leaks a lock that
was not overwritten after it was taken, there is a report about it. Reports stand where the lock
was first taken in the course of the walk. -/
theorem reports_leaks (hrule : .lockRelease ∈ p.rules)
    (hok : (new p w ids).run.2 = .ok completion) :
    (∀ x ∈ (new p w ids).run.1.exploration.ledger.log.entries, x.1.rule = LockRelease.rule →
      ∃ v, x.2 = some v ∧
        p.FirstAcquires (new p w ids).run.1.exploration.processed v x.1.location.point ∧
        ∃ point later chain, Explored p w ids chain ∧ p.Leaks v point later chain) ∧
    ∀ v point later chain, Explored p w ids chain → p.Leaks v point later chain →
      (∀ a ∈ later, p.overwritten? a ≠ some v) →
      ∃ x ∈ (new p w ids).run.1.exploration.ledger.log.entries,
        x.1.rule = LockRelease.rule ∧ x.2 = some v ∧
        p.FirstAcquires (new p w ids).run.1.exploration.processed v x.1.location.point := by
  obtain ⟨e, e', hmade⟩ := exists_made hok
  obtain ⟨s, hs⟩ := started_of_start hmade.start
  have hknown := hmade.locksKnown hrule
  constructor
  · intro x hx hlock
    rw [hmade.mem_entries_iff hlock] at hx
    obtain ⟨v, a, hv, ha, hlocation, n, hn, hexit, hheld⟩ := hknown.reported x hx hlock
    refine ⟨v, hv, ?_, ?_⟩
    · rw [hlocation, hmade.processed]
      exact hknown.first v a ha
    · rw [← hmade.processed] at hn
      obtain ⟨rest, e₁, hstart, hchain, hprocessed⟩ := exists_explored hok hn
      obtain rfl : e₁ = e := Except.ok.inj (hstart.symm.trans hmade.start)
      obtain ⟨later, m, earlier, rfl, htaken, hlater⟩ := hchain.exists_acquired hrule hs hheld
      exact ⟨m.point, later, _, ⟨_, hstart, hchain, hprocessed⟩,
        n, m, earlier, rfl, hexit, rfl, htaken, hlater⟩
  · rintro v point later chain ⟨e₁, hstart, hchain, hprocessed⟩
      ⟨n, m, earlier, rfl, hexit, -, htaken, hreleased⟩ hoverwritten
    have hheld := hchain.held hrule htaken fun a ha => ⟨hreleased a ha, hoverwritten a ha⟩
    have hn := hprocessed n List.mem_cons_self
    rw [hmade.processed] at hn ⊢
    obtain ⟨x, hx, hlock, hvalue⟩ := hknown.leaks n hn hexit v hheld
    obtain ⟨v', a, hv', ha, hlocation, -⟩ := hknown.reported x hx hlock
    obtain rfl : v = v' := Option.some.inj (hvalue.symm.trans hv')
    refine ⟨x, (hmade.mem_entries_iff hlock).2 hx, hlock, hvalue, ?_⟩
    rw [hlocation]
    exact hknown.first v a ha

end Walk

/-- A call of a method on what a variable holds. -/
def callOn (id : SymbolId) (known : KnownMethod) : List Node :=
  [⟨.read id false, none⟩, ⟨.methodGroup "Call" .receiver, none⟩,
   ⟨.invocation ⟨"Call", known, false, ⟨"void", .reference, false, false⟩, [], false, []⟩ 0, none⟩,
   ⟨.discard, none⟩]

/-- A method that takes a lock on two paths and releases it on the first. -/
def eitherPath : Graph where
  method := "either"
  blocks :=
    [⟨[], .fork [⟨1⟩, ⟨2⟩]⟩,
     ⟨callOn ⟨0⟩ .lockAcquire ++ callOn ⟨0⟩ .lockRelease, .jump ⟨3⟩ .plain⟩,
     ⟨callOn ⟨0⟩ .lockAcquire, .jump ⟨3⟩ .plain⟩, Draft.exitBlock]
  entry := ⟨0⟩
  exit := ⟨3⟩
  parameters := [⟨0⟩]
  symbols := ⟨[⟨"l", .parameter, ⟨"L", .reference, false, false⟩, false⟩]⟩

/-- The lock is reported where the first path takes it, and a chain leaks it that takes the second
path. -/
theorem Walk.reports_leaks_eitherPath :
    let p : Plan := .of eitherPath .default [.lockRelease]
    ∃ v, p.FirstAcquires (Walk.new p .lazy .odd).run.1.exploration.processed v ⟨⟨1⟩, 2⟩ ∧
      ∃ point later chain, Walk.Explored p .lazy .odd chain ∧ p.Leaks v point later chain ∧
        ∃ x ∈ (Walk.new p .lazy .odd).run.1.exploration.ledger.log.entries,
          x.1.rule = LockRelease.rule ∧ x.2 = some v := by
  intro p
  have hrule : .lockRelease ∈ p.rules := List.mem_singleton.2 rfl
  have hok : (Walk.new p .lazy .odd).run.2 = .ok .complete := by decide +kernel
  have hreport : ∃ x ∈ (Walk.new p .lazy .odd).run.1.exploration.ledger.log.entries,
      x.1.rule = LockRelease.rule ∧ x.1.location.point = ⟨⟨1⟩, 2⟩ := by decide +kernel
  have hmembers : ∀ n ∈ (Walk.new p .lazy .odd).run.1.exploration.processed,
      p.overwritten? n = none := by decide +kernel
  obtain ⟨hreported, hleaking⟩ := Walk.reports_leaks hrule hok
  obtain ⟨x, hx, hlock, hpoint⟩ := hreport
  obtain ⟨v, -, hfirst, point, later, chain, hexplored, hleaks⟩ := hreported x hx hlock
  rw [hpoint] at hfirst
  refine ⟨v, hfirst, point, later, chain, hexplored, hleaks, ?_⟩
  have hlater : ∀ a ∈ later, p.overwritten? a ≠ some v := by
    obtain ⟨e, -, -, hprocessed⟩ := hexplored
    obtain ⟨n, m, earlier, rfl, -⟩ := hleaks
    intro a ha
    rw [hmembers a (hprocessed a (by simp [ha]))]
    simp
  obtain ⟨y, hy, hlock', hvalue, -⟩ := hleaking v point later chain hexplored hleaks hlater
  exact ⟨y, hy, hlock', hvalue⟩

/-- Every chain that takes the lock where it is reported releases it. -/
theorem eitherPath_reported_elsewhere :
    let p : Plan := .of eitherPath .default [.lockRelease]
    ∃ f v, (f, some v) ∈ (Walk.new p .lazy .odd).run.1.exploration.ledger.log.entries ∧
      f.rule = LockRelease.rule ∧
      ¬ ∃ later chain, Walk.Explored p .lazy .odd chain ∧
        p.Leaks v f.location.point later chain := by
  intro p
  have hrule : .lockRelease ∈ p.rules := List.mem_singleton.2 rfl
  have hbuilt : eitherPath.Built :=
    ⟨.ofBlocks "either" eitherPath.symbols.symbols (eitherPath.blocks.take 3), ⟨0⟩,
      Draft.made_ofBlocks _ _ _, rfl⟩
  have hreport : ∃ x ∈ (Walk.new p .lazy .odd).run.1.exploration.ledger.log.entries,
      x.1.rule = LockRelease.rule ∧ x.1.location.point = ⟨⟨1⟩, 2⟩ ∧ x.2 = some (.unknown 1) := by
    decide +kernel
  -- where the lock is held at the exit, the path has not come by the reported point
  have hexits : ∀ n ∈ (Walk.new p .lazy .odd).run.1.exploration.processed,
      p.overwritten? n = none ∧
      ((eitherPath.block? n.point.block).any (fun b => b.terminator = .exit) →
        n.state.has (.unknown 1) .held → n.state.visitCount ⟨⟨1⟩, 2⟩ = 0) := by decide +kernel
  obtain ⟨⟨f, v⟩, hx, hlock, hpoint, hvalue⟩ := hreport
  dsimp only at hlock hpoint hvalue
  subst hvalue
  refine ⟨f, .unknown 1, hx, hlock, ?_⟩
  rintro ⟨later, chain, hexplored, n, m, earlier, rfl, ⟨block, hblock, -, hterminator⟩, hm, htaken,
    hreleased⟩
  have hcount := hexplored.visitCount hbuilt.closed ⟨⟨1⟩, 2⟩
  obtain ⟨e, -, hchain, hprocessed⟩ := hexplored
  have hheld := hchain.held hrule htaken fun a ha => ⟨hreleased a ha, by
    rw [(hexits a (hprocessed a (by simp [ha]))).1]
    simp⟩
  have hblock : eitherPath.block? n.point.block = some block := hblock
  rw [(hexits n (hprocessed n List.mem_cons_self)).2 (by simp [hblock, hterminator]) hheld, eq_comm,
    List.count_eq_zero] at hcount
  exact hcount (List.mem_map.2 ⟨m, by simp, hm.trans hpoint⟩)

/-- A method that takes the lock in a field of its parameter and then assigns to the field. -/
def overwrittenLock : Graph where
  method := "overwrite"
  blocks :=
    [⟨⟨.read ⟨0⟩ false, none⟩ :: ⟨.memberAccess ⟨1⟩ .receiver, none⟩ ::
        (callOn ⟨0⟩ .lockAcquire).tail ++
        [⟨.read ⟨0⟩ false, none⟩, ⟨.read ⟨0⟩ false, none⟩,
         ⟨.assignment (.member ⟨1⟩ .receiver) .simple, none⟩, ⟨.discard, none⟩],
       .jump ⟨1⟩ .plain⟩,
     Draft.exitBlock]
  entry := ⟨0⟩
  exit := ⟨1⟩
  parameters := [⟨0⟩]
  symbols :=
    ⟨[⟨"o", .parameter, ⟨"L", .reference, false, false⟩, false⟩,
      ⟨"f", .field false false, ⟨"L", .reference, false, false⟩, false⟩]⟩

/-- The chain through the method leaks the lock. -/
theorem exists_leaks_overwrittenLock :
    let p : Plan := .of overwrittenLock .default [.lockRelease]
    ∃ v point later chain, Walk.Explored p .lazy .odd chain ∧ p.Leaks v point later chain := by
  intro p
  have hbuilt : overwrittenLock.Built :=
    ⟨.ofBlocks "overwrite" overwrittenLock.symbols.symbols (overwrittenLock.blocks.take 1), ⟨0⟩,
      Draft.made_ofBlocks _ _ _, rfl⟩
  have hok : (Walk.new p .lazy .odd).run.2 = .ok .complete := by decide +kernel
  have hexit : ∃ n ∈ (Walk.new p .lazy .odd).run.1.exploration.processed,
      n.point = ⟨⟨1⟩, 0⟩ ∧ n.state.visitCount ⟨⟨0⟩, 3⟩ = 1 := by decide +kernel
  have hcalls : ∀ n ∈ (Walk.new p .lazy .odd).run.1.exploration.processed,
      p.lock? .lockRelease n = none ∧ (n.point = ⟨⟨0⟩, 3⟩ →
        p.lock? .lockAcquire n = some (.member (.unknown 1) ⟨1⟩)) := by decide +kernel
  obtain ⟨n, hn, hpoint, hvisited⟩ := hexit
  obtain ⟨rest, hexplored⟩ := Walk.exists_explored hok hn
  rw [hexplored.visitCount hbuilt.closed] at hvisited
  obtain ⟨m, hm, hmpoint⟩ := List.mem_map.1 (List.count_pos_iff.1 (hvisited ▸ Nat.one_pos))
  have hrest : m ∈ rest := by
    refine (List.mem_cons.1 hm).resolve_left ?_
    rintro rfl
    rw [hmpoint] at hpoint
    exact absurd hpoint (by decide)
  obtain ⟨later, earlier, rfl⟩ := List.append_of_mem hrest
  obtain ⟨e, hstart, hchain, hprocessed⟩ := hexplored
  refine ⟨_, ⟨⟨0⟩, 3⟩, later, _, ⟨e, hstart, hchain, hprocessed⟩, n, m, earlier, rfl, ?_, hmpoint,
    (hcalls m (hprocessed m hm)).2 hmpoint, fun a ha => ?_⟩
  · rw [hpoint]
    exact ⟨Draft.exitBlock, rfl, rfl, rfl⟩
  · rw [(hcalls a (hprocessed a (by simp [ha]))).1]
    simp

/-- There may be a report about a lock at a point where every chain that takes it there releases it,
and none about a lock that a chain does leak. -/
theorem leaks_misreported :
    (let p : Plan := .of eitherPath .default [.lockRelease]
     (Walk.new p .lazy .odd).run.2 = .ok .complete ∧
      ∃ f v, (f, some v) ∈ (Walk.new p .lazy .odd).run.1.exploration.ledger.log.entries ∧
        f.rule = LockRelease.rule ∧
        ¬ ∃ later chain, Walk.Explored p .lazy .odd chain ∧
          p.Leaks v f.location.point later chain) ∧
    (let p : Plan := .of overwrittenLock .default [.lockRelease]
     (Walk.new p .lazy .odd).run.2 = .ok .complete ∧
      (∃ v point later chain, Walk.Explored p .lazy .odd chain ∧ p.Leaks v point later chain) ∧
      (Walk.new p .lazy .odd).run.1.exploration.ledger.log.entries = []) :=
  ⟨⟨by decide +kernel, eitherPath_reported_elsewhere⟩, by decide +kernel,
    exists_leaks_overwrittenLock, by decide +kernel⟩

end Pathwise
