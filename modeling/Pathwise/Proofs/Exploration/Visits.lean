import Pathwise.Proofs.Alike.Step
import Pathwise.Proofs.Exploration.Run

/-!
What the visits of a path are for. An exploration takes two nodes for the same if they differ in the
visits of their paths only, and goes on from the one that it has reached first. Nothing is lost by
this: from either of them a step fails with the same fault, or leads to the same nodes but for their
visits, and the rules write down the same.

Visits are looked at in one place, where a node is refused because its path came by its point too
often. Two explorations that refuse the same nodes therefore stay the same but for visits.
-/

namespace Pathwise

/-! ### The same state -/

theorem State.same_iff {s t : State} :
    s.same t ↔ s.stack = t.stack ∧ s.bindings = t.bindings ∧ s.facts = t.facts := by
  simp only [same, Bool.and_eq_true, beq_iff_eq, and_assoc]

theorem State.Like.refl (s : State) : s.Like (· = ·) s where
  stack := List.forall₂_same.2 fun v _ => .refl v
  bindings id := by
    cases s.lookup id with
    | none => exact .none
    | some v => exact .some (.refl v)
  facts v f hv := ⟨v, .refl v, hv⟩
  back v f hv := ⟨v, (Value.Like.refl v).mono fun _ _ h => h.symm, hv⟩

/-- States are the same if they are alike with every unknown standing for itself. -/
theorem State.same_iff_like {s t : State} : s.same t ↔ s.Like (· = ·) t := by
  constructor
  · exact (State.Like.refl s).of_same
  · intro h
    rw [h.same_eq biUnique_eq (State.Like.refl t)]
    exact State.same_iff.2 ⟨rfl, rfl, rfl⟩

namespace ExplodedNode

variable {n m n' m' : ExplodedNode}

theorem same_iff : n.same m ↔ n.point = m.point ∧ n.state.same m.state := by
  simp only [same, Bool.and_eq_true, beq_iff_eq]

theorem same_marked (h : n.same m) : n.marked.same m.marked := h

/-- Nodes that are the same are told apart from the same nodes. -/
theorem same_congr (h : n.same m) (h' : n'.same m') : n.same n' = m.same m' := by
  simp only [same_iff, State.same_iff] at h h'
  rw [Bool.eq_iff_iff]
  simp only [same_iff, State.same_iff, h, h']

end ExplodedNode

/-! ### The same records -/

/-- What the rules have written down, the journal apart, is the same. -/
structure Ledger.SameRecords (l l' : Ledger) : Prop where
  acquisitions : l.acquisitions = l'.acquisitions
  outcomes : l.outcomes = l'.outcomes
  log : l.log = l'.log

namespace Ledger.SameRecords

variable {l l' : Ledger} {o o' : Observation}

theorem refl (l : Ledger) : l.SameRecords l := ⟨rfl, rfl, rfl⟩

theorem publish (h : l.SameRecords l') (f : Finding) (v : Option Value) :
    (l.publish f v).SameRecords (l'.publish f v) :=
  ⟨h.acquisitions, h.outcomes, congrArg (fun log => log.publish f v) h.log⟩

theorem note (h : l.SameRecords l') (ho : o.Like (· = ·) o') :
    (l.note o).SameRecords (l'.note o') := by
  cases ho with
  | defect finding hv =>
    obtain rfl := hv.eq_of_like
    exact h.publish finding _
  | acquired hv location name =>
    obtain rfl := hv.eq_of_like
    exact ⟨by simp only [Ledger.note, h.acquisitions], h.outcomes, h.log⟩
  | @heldAtExit v _ hv name exit =>
    obtain rfl := hv.eq_of_like
    simp only [Ledger.note, h.acquisitions]
    cases l'.acquisitions[v]? with
    | none => exact h
    | some a => exact h.publish _ _
  | decided location outcome =>
    exact ⟨h.acquisitions, by simp only [Ledger.note, h.outcomes], h.log⟩
  | journal event event' => exact ⟨h.acquisitions, h.outcomes, h.log⟩

theorem noteAll (h : l.SameRecords l') {os os' : List Observation}
    (hos : List.Forall₂ (Observation.Like (· = ·)) os os') :
    (l.noteAll os).SameRecords (l'.noteAll os') :=
  List.rel_foldl (fun _ _ h _ _ ho => h.note ho) h hos

end Ledger.SameRecords

/-! ### Steps from the same node -/

/-- A supply beside itself, with every identity paired with itself. -/
def Pairing.same (ids : Supply) : Pairing where
  left := ids
  right := ids
  known := (· = ·)
  unique := by
    have heq : ∀ x y, (x = y ∨ ∃ i, x = ids.upcoming i ∧ y = ids.upcoming i) → x = y := by
      rintro x y (rfl | ⟨i, rfl, rfl⟩)
      · rfl
      · rfl
    exact ⟨fun x y z h h' => (heq x z h).trans (heq y z h').symm,
      fun x y z h h' => (heq x y h).symm.trans (heq x z h')⟩

theorem Pairing.pairs_same (ids : Supply) (k : Nat) : (same ids).Pairs k = (· = ·) := by
  funext x y
  refine propext ⟨?_, .inl⟩
  rintro (h | ⟨i, -, rfl, rfl⟩)
  · exact h
  · rfl

namespace Plan

variable {n m : ExplodedNode}

theorem like_of_same (h : n.same m) (ids : Supply) : n.Like ((Pairing.same ids).Pairs 0) m := by
  obtain ⟨hpoint, hstate⟩ := ExplodedNode.same_iff.1 h
  rw [Pairing.pairs_same]
  exact ⟨hpoint, State.same_iff_like.1 hstate⟩

/-- A step from the same node fails with the same fault, or leads to the same nodes. -/
theorem process_same (p : Plan) (h : n.same m) (ids : Supply) :
    Agree (fun r r' => List.Forall₂ (fun a b => a.same b) r.1 r'.1 ∧ r.2 = r'.2)
      (p.process n ids).result (p.process m ids).result := by
  refine (p.process_alike (P := .same ids) (k := 0) (like_of_same h ids)).imp ?_
  rintro ⟨next, ids₁⟩ ⟨next', ids₂⟩ ⟨k, -, hids, hids', hnext⟩
  rw [Pairing.pairs_same] at hnext
  refine ⟨hnext.imp fun a b hab => ?_, hids.trans hids'.symm⟩
  exact ExplodedNode.same_iff.2 ⟨hab.point, State.same_iff_like.2 hab.state⟩

/-- Where the method is left, locks are listed in an order that the facts alone decide. -/
theorem exit_same (rules : List Rule) (site : Site) {s t : State} (h : s.same t) :
    List.Forall₂ (Observation.Like (· = ·)) (Rule.exit rules site s) (Rule.exit rules site t) := by
  obtain ⟨-, hbindings, hfacts⟩ := State.same_iff.1 h
  have hlocks : LockRelease.exit site s = LockRelease.exit site t := by
    simp only [LockRelease.exit, LockRelease.heldLocks, Site.nameOf, State.symbolsBoundTo, hfacts,
      hbindings]
  have hlike : ∀ o ∈ LockRelease.exit site t, o.Like (· = ·) o := by
    intro o ho
    obtain ⟨v, -, rfl⟩ := List.mem_map.1 ho
    exact .heldAtExit (.refl v) _ _
  unfold Rule.exit
  induction rules with
  | nil => exact .nil
  | cons rule rest ih =>
    rw [List.flatMap_cons, List.flatMap_cons]
    refine List.rel_append ?_ ih
    cases rule with
    | lockRelease =>
      show List.Forall₂ _ (LockRelease.exit site s) (LockRelease.exit site t)
      rw [hlocks]
      exact List.forall₂_same.2 hlike
    | journal => exact .cons (.journal _ _) .nil
    | _ => exact .nil

/-- At the same node the rules notice the same, the journal apart. -/
theorem observations_same (p : Plan) (h : n.same m) (ids : Supply) :
    List.Forall₂ (Observation.Like (· = ·)) (p.process n ids).observations
      (p.process m ids).observations := by
  by_cases hexit : p.graph.Exits n.point
  · obtain ⟨point, s⟩ := n
    obtain ⟨point', t⟩ := m
    obtain ⟨hpoint, hstate⟩ := ExplodedNode.same_iff.1 h
    dsimp only at hpoint hstate hexit
    subst hpoint
    obtain ⟨span, hprocess⟩ := p.process_of_exits hexit
    rw [hprocess, hprocess]
    exact exit_same p.rules _ hstate
  · have hstep := p.process_alike_of_not_exits (P := .same ids) (k := 0) hexit (like_of_same h ids)
    have hobservations := hstep.observations
    rw [Pairing.pairs_same] at hobservations
    exact hobservations

end Plan

/-! ### Explorations but for visits -/

/-- The explorations differ at most in the visits of the nodes that they have reached. -/
structure Exploration.SameButVisits (e e' : Exploration) : Prop where
  nodes : List.Forall₂ (fun a b => a.same b) e.nodes.toList e'.nodes.toList
  steps : e.steps = e'.steps
  records : e.ledger.SameRecords e'.ledger
  ids : e.ids = e'.ids
  asked : e.asked = e'.asked

namespace Exploration.SameButVisits

variable {e e' : Exploration} {n m : ExplodedNode} {limit : Nat}

theorem refl (e : Exploration) : e.SameButVisits e :=
  ⟨List.forall₂_same.2 fun n _ => n.same_self, rfl, .refl _, rfl, rfl⟩

/-- The same node is reached, or refused, on both sides. -/
theorem reach (h : e.SameButVisits e') (hn : n.same m)
    (hlimit : n.state.atVisitLimit n.point limit = m.state.atVisitLimit m.point limit) :
    (e.reach limit n).SameButVisits (e'.reach limit m) := by
  have hmarked := ExplodedNode.same_marked hn
  have hany : e.nodes.any n.marked.same = e'.nodes.any m.marked.same := by
    rw [← Array.any_toList, ← Array.any_toList]
    exact any_eq_of_forall₂ h.nodes fun _ _ hab => ExplodedNode.same_congr hmarked hab
  unfold Exploration.reach
  rw [hlimit]
  split
  · exact h
  · show SameButVisits (if e.nodes.any n.marked.same then e else _)
      (if e'.nodes.any m.marked.same then e' else _)
    rw [hany]
    split
    · exact h
    · refine ⟨?_, h.steps, h.records, h.ids, h.asked⟩
      rw [Array.toList_push, Array.toList_push]
      exact List.rel_append h.nodes (.cons hmarked .nil)

theorem foldl_reach (h : e.SameButVisits e') {next next' : List ExplodedNode}
    (hnext : List.Forall₂ (fun a b => a.same b ∧
      a.state.atVisitLimit a.point limit = b.state.atVisitLimit b.point limit) next next') :
    (next.foldl (Exploration.reach limit) e).SameButVisits
      (next'.foldl (Exploration.reach limit) e') :=
  List.rel_foldl (fun _ _ h _ _ hn => h.reach hn.1 hn.2) h hnext

/-- From the same node the explorations make the same step, as long as the visits of the two paths
refuse the same points. -/
theorem advance (p : Plan) (h : e.SameButVisits e') (hn : n.same m)
    (hlimit : ∀ q, n.state.atVisitLimit q p.config.maxVisits =
      m.state.atVisitLimit q p.config.maxVisits) :
    (e.advance p n).2 = (e'.advance p m).2 ∧
      (e.advance p n).1.SameButVisits (e'.advance p m).1 := by
  have hnoted : (e.noted p n).SameButVisits (e'.noted p m) := by
    refine ⟨h.nodes, congrArg Nat.succ h.steps, ?_, h.ids, h.asked⟩
    rw [noted, noted, ← h.ids]
    exact h.records.noteAll (p.observations_same hn e.ids)
  have hleft := p.process_meets n e.ids
  have hright := p.process_meets m e.ids
  obtain ⟨fault, hs, ht⟩ | ⟨⟨next, ids⟩, ⟨next', ids'⟩, hs, ht, hnext, hids⟩ :=
    (p.process_same hn e.ids).cases
  · rw [advance_of_error hs, advance_of_error (h.ids ▸ ht)]
    exact ⟨rfl, hnoted⟩
  · rw [hs] at hleft
    rw [ht] at hright
    have hdrawn : ({ e.noted p n with ids } : Exploration).SameButVisits
        { e'.noted p m with ids := ids' } :=
      ⟨hnoted.nodes, hnoted.steps, hnoted.records, hids, hnoted.asked⟩
    rw [advance_of_ok hs, advance_of_ok (h.ids ▸ ht)]
    refine ⟨rfl, hdrawn.foldl_reach ?_⟩
    -- the nodes that come next have the visits of the nodes that they come from
    refine forall₂_imp_of_mem hnext fun a ha b hb hab => ⟨hab, ?_⟩
    have hpoint := (ExplodedNode.same_iff.1 hab).1
    have hlimit := hlimit a.point
    simp only [State.atVisitLimit] at hlimit ⊢
    rw [State.visitCount_congr (hleft.1 a ha).visits, State.visitCount_congr (hright.1 b hb).visits,
      ← hpoint, hlimit]

end Exploration.SameButVisits

/-- Two nodes at one point whose states differ in their visits only are processed alike. Both steps
fail with the same fault, or they lead to nodes that are the same one by one, with the same unknowns
drawn. Whatever the rules have written down before, they publish the same findings in the same order
and write down the same. And if the visits of the two paths refuse the same points, any exploration
that goes on from the one node stays the same, but for visits, as if it went on from the other. -/
theorem Plan.visits_only_refuse (p : Plan) (point : ProgramPoint) {s t : State} (h : s.same t)
    (ids : Supply) :
    let step := p.process ⟨point, s⟩ ids
    let step' := p.process ⟨point, t⟩ ids
    Agree (fun r r' => List.Forall₂ (fun n m => n.point = m.point ∧ n.state.same m.state) r.1 r'.1 ∧
      r.2 = r'.2) step.result step'.result ∧
    (∀ l : Ledger, (l.noteAll step.observations).SameRecords (l.noteAll step'.observations)) ∧
    ((∀ q, s.atVisitLimit q p.config.maxVisits = t.atVisitLimit q p.config.maxVisits) →
      ∀ e : Exploration, (e.advance p ⟨point, s⟩).2 = (e.advance p ⟨point, t⟩).2 ∧
        (e.advance p ⟨point, s⟩).1.SameButVisits (e.advance p ⟨point, t⟩).1) := by
  intro step step'
  have hsame : (⟨point, s⟩ : ExplodedNode).same ⟨point, t⟩ := ExplodedNode.same_iff.2 ⟨rfl, h⟩
  refine ⟨?_, ?_, ?_⟩
  · refine (p.process_same hsame ids).imp fun r r' hr => ⟨hr.1.imp fun n m hnm => ?_, hr.2⟩
    exact ExplodedNode.same_iff.1 hnm
  · intro l
    exact (Ledger.SameRecords.refl l).noteAll (p.observations_same hsame ids)
  · intro hlimit e
    exact (Exploration.SameButVisits.refl e).advance p hsame hlimit

/-- A method that uses a member of its parameter. -/
def useParameter : Graph where
  method := "use"
  blocks :=
    [⟨[⟨.read ⟨0⟩ false, none⟩, ⟨.methodGroup "M" .receiver, none⟩, ⟨.discard, none⟩],
       .jump ⟨1⟩ .plain⟩,
     Draft.exitBlock]
  entry := ⟨0⟩
  exit := ⟨1⟩
  parameters := [⟨0⟩]
  symbols := ⟨[⟨"x", .parameter, ⟨"T", .reference, false, false⟩, false⟩]⟩

/-- A path that has come by the use of the member before goes on like one that has not. -/
theorem Plan.visits_only_refuse_useParameter :
    let p := Plan.of useParameter .default [.nullDereference]
    let point : ProgramPoint := ⟨⟨0⟩, 1⟩
    let s := State.initial.push (.unknown 0)
    let t := s.markVisited point
    s.same t ∧ s.visitCount point ≠ t.visitCount point ∧
    (∀ q, s.atVisitLimit q p.config.maxVisits = t.atVisitLimit q p.config.maxVisits) ∧
    ((p.process ⟨point, s⟩ .odd).result.toOption.map fun r => r.1.length) = some 1 ∧
    (Agree (fun r r' => List.Forall₂ (fun n m => n.point = m.point ∧ n.state.same m.state)
        r.1 r'.1 ∧ r.2 = r'.2)
      (p.process ⟨point, s⟩ .odd).result (p.process ⟨point, t⟩ .odd).result) ∧
    ∀ e : Exploration, (e.advance p ⟨point, s⟩).1.SameButVisits (e.advance p ⟨point, t⟩).1 := by
  intro p point s t
  have hsame : s.same t := State.same_markVisited _ _
  have hlimit : ∀ q, s.atVisitLimit q p.config.maxVisits =
      t.atVisitLimit q p.config.maxVisits := by
    intro q
    simp only [State.atVisitLimit, t, State.visitCount_markVisited]
    split
    · rfl
    · rfl
  obtain ⟨hresult, -, hadvance⟩ := p.visits_only_refuse point hsame .odd
  refine ⟨hsame, ?_, hlimit, ?_, hresult, fun e => (hadvance hlimit e).2⟩
  · decide +kernel
  · decide +kernel

end Pathwise
