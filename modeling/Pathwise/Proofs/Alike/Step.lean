import Pathwise.Proofs.Alike.Rule
import Pathwise.Proofs.Alike.Transfer
import Pathwise.Proofs.Exploration.Step

/-!
Steps of an exploration do not depend on the identities of unknowns. From nodes that are alike a
step leads to nodes that are alike, in the same order and by the same number of draws, or fails
with the same fault on both sides. The visits of the two paths play no part in it. The rules make
the same observations at both nodes, in the same order unless the method is left there.
-/

namespace Pathwise

open Relator (BiUnique)

/-- Two nodes at one point, in states that are alike. -/
structure ExplodedNode.Like (R : Identity → Identity → Prop) (n m : ExplodedNode) : Prop where
  point : n.point = m.point
  state : n.state.Like R m.state

theorem ExplodedNode.Like.mono {R S : Identity → Identity → Prop} {n m : ExplodedNode}
    (hsub : ∀ x y, R x y → S x y) (h : n.Like R m) : n.Like S m :=
  ⟨h.point, h.state.mono hsub⟩

namespace Pairing

variable {P : Pairing} {k k' : Nat} {ns ms : List ExplodedNode}

/-- Nodes that are alike, in order, after the same number of further draws. -/
def Nodes (P : Pairing) (k : Nat) :
    List ExplodedNode × Supply → List ExplodedNode × Supply → Prop :=
  P.Drawn k fun k' => List.Forall₂ (ExplodedNode.Like (P.Pairs k'))

theorem nodes_here (h : List.Forall₂ (ExplodedNode.Like (P.Pairs k)) ns ms) :
    P.Nodes k (ns, P.left.after k) (ms, P.right.after k) :=
  ⟨k, Nat.le_refl k, rfl, rfl, h⟩

theorem node_here {n m : ExplodedNode} (h : n.Like (P.Pairs k) m) :
    P.Nodes k ([n], P.left.after k) ([m], P.right.after k) :=
  nodes_here (.cons h .nil)

theorem Nodes.earlier (hk : k ≤ k') {r r' : List ExplodedNode × Supply} :
    P.Nodes k' r r' → P.Nodes k r r'
  | ⟨k'', hk'', h⟩ => ⟨k'', Nat.le_trans hk hk'', h⟩

end Pairing

/-- The two steps notice the same and lead to the same, but for the identities of unknowns. -/
structure Step.Alike (P : Pairing) (k : Nat) (step step' : Step) : Prop where
  observations : List.Forall₂ (Observation.Like (P.Pairs k)) step.observations step'.observations
  result : Agree (P.Nodes k) step.result step'.result

theorem Step.alike_quiet {P : Pairing} {k : Nat}
    {result result' : Except Fault (List ExplodedNode × Supply)}
    (h : Agree (P.Nodes k) result result') : Step.Alike P k (.quiet result) (.quiet result') :=
  ⟨.nil, h⟩

theorem Residue.leave_alike {R : Identity → Identity → Prop} {s t : State} {v w : Value}
    (residue : Residue) (h : s.Like R t) (hvw : v.Like R w) :
    (residue.leave v s).Like R (residue.leave w t) := by
  cases residue with
  | nothing => exact h
  | tested => exact h.push hvw
  | constant c => exact h.push (.constant c)

/-- The same way, with states that are alike. -/
def Way.Left (R : Identity → Identity → Prop) (x y : Way × List State) : Prop :=
  x.1 = y.1 ∧ List.Forall₂ (State.Like R) x.2 y.2

namespace Plan

open Pairing

variable {R : Identity → Identity → Prop} {P : Pairing} {k : Nat} {s t : State} {v w : Value}

/-! ### Terminators -/

theorem enter_alike (p : Plan) (hR : BiUnique R) (source target : BlockId) (h : s.Like R t) :
    (p.enter source target s).Like R (p.enter source target t) := by
  unfold enter
  refine ⟨rfl, ?_⟩
  dsimp only
  split
  · exact (h.unbindWhere _).collectGarbage hR
  · exact h

theorem follow_alike (p : Plan) (way : Way) (h : s.Like (P.Pairs k) t)
    (hvw : v.Like (P.Pairs k) w) :
    Agree (P.Drawn k fun k' => List.Forall₂ (State.Like (P.Pairs k')))
      (p.follow s v way (P.left.after k)) (p.follow t w way (P.right.after k)) := by
  have hadmitted := (State.Like.knowAlike (P.pairs_biUnique k)).admitted (P.pairs_biUnique k)
    p.solver h hvw way.guard
  have hmono : ∀ k k' s t, k ≤ k' → State.Like (P.Pairs k) s t → State.Like (P.Pairs k') s t :=
    fun _ _ _ _ hk => lift hk
  refine collect_drawn hmono hmono (fun k' s t hk h => ?_) hadmitted
  have hvw : v.Like (P.Pairs k') w := hvw.mono (pairs_mono hk)
  refine bind_alike (p.transfer.bindDesignation_alike h way.bound hvw) fun k'' s t hk' h => ?_
  exact .ok ⟨k'', hk', rfl, rfl, way.residue.leave_alike h (hvw.mono (pairs_mono hk'))⟩

theorem depart_alike (p : Plan) (ways : List Way) (h : s.Like (P.Pairs k) t)
    (hvw : v.Like (P.Pairs k) w) :
    Agree (P.Drawn k fun k' => List.Forall₂ (Way.Left (P.Pairs k')))
      (p.depart s v ways (P.left.after k)) (p.depart t w ways (P.right.after k)) := by
  refine collect_drawn (Q := fun _ way way' => way = way') (fun _ _ _ _ _ heq => heq)
    (fun _ _ _ _ hk hleft => ⟨hleft.1, hleft.2.imp fun _ _ => lift hk⟩) ?_
    (List.forall₂_same.2 fun _ _ => rfl)
  rintro k' way _ hk rfl
  refine bind_drawn (p.follow_alike way (lift hk h) (hvw.mono (pairs_mono hk)))
    fun k'' ss ts hk' hstates => ?_
  exact .ok ⟨k'', hk', rfl, rfl, rfl, hstates⟩

theorem arrive_alike (p : Plan) (hR : BiUnique R) (source : BlockId)
    {left left' : List (Way × List State)} (h : List.Forall₂ (Way.Left R) left left') :
    List.Forall₂ (ExplodedNode.Like R) (p.arrive source left) (p.arrive source left') := by
  refine List.rel_flatMap h ?_
  rintro ⟨way, states⟩ ⟨_, states'⟩ ⟨rfl, hstates⟩
  exact List.rel_map (fun _ _ h => p.enter_alike hR source way.target h) hstates

theorem noticed_alike (p : Plan) (point : ProgramPoint) (block : Block) (kind : BranchKind)
    {left left' : List (Way × List State)} (h : List.Forall₂ (Way.Left R) left left')
    {R' : Identity → Identity → Prop} :
    List.Forall₂ (Observation.Like R') (p.noticed point block kind v left)
      (p.noticed point block kind w left') := by
  unfold noticed
  split
  · refine List.rel_flatMap h ?_
    rintro ⟨way, states⟩ ⟨_, states'⟩ ⟨rfl, hstates⟩
    exact List.rel_flatMap hstates fun _ _ _ => Rule.condition_alike _ _ _ _
  · exact .nil

theorem processBranch_alike (p : Plan) (point : ProgramPoint) (block : Block) (kind : BranchKind)
    (onTrue onFalse : BlockId) (h : s.Like (P.Pairs k) t) :
    Step.Alike P k
      (p.processBranch point block kind onTrue onFalse s (P.left.after k))
      (p.processBranch point block kind onTrue onFalse t (P.right.after k)) := by
  unfold processBranch
  obtain ⟨fault, hs, ht⟩ | ⟨⟨s', v⟩, ⟨t', w⟩, hs, ht, h, hvw⟩ := h.pop.cases
  · rw [hs, ht]
    exact Step.alike_quiet (.error fault)
  rw [hs, ht]
  dsimp only
  obtain ⟨fault, hs, ht⟩ | ⟨⟨left, _⟩, ⟨left', _⟩, hs, ht, k', hk, hids, hids', hleft⟩ :=
    (p.depart_alike (kind.ways onTrue onFalse) h hvw).cases
  · rw [hs, ht]
    exact Step.alike_quiet (.error fault)
  · rw [hs, ht]
    refine ⟨p.noticed_alike point block kind hleft, .ok ⟨k', hk, hids, hids', ?_⟩⟩
    exact p.arrive_alike (P.pairs_biUnique k') point.block hleft

theorem processJump_alike (p : Plan) (point : ProgramPoint) (block : Block) (target : BlockId)
    (kind : JumpKind) (h : s.Like (P.Pairs k) t) :
    Step.Alike P k (p.processJump point block target kind s (P.left.after k))
      (p.processJump point block target kind t (P.right.after k)) := by
  have hR := P.pairs_biUnique k
  have hleave : ∀ {observations observations' : List Observation} {s t : State},
      List.Forall₂ (Observation.Like (P.Pairs k)) observations observations' →
      s.Like (P.Pairs k) t →
      Step.Alike P k ⟨observations, .ok ([p.enter point.block target s], P.left.after k)⟩
        ⟨observations', .ok ([p.enter point.block target t], P.right.after k)⟩ :=
    fun hseen h => ⟨hseen, .ok (node_here (p.enter_alike hR point.block target h))⟩
  have hpop := h.pop.cases
  unfold processJump
  cases kind with
  | plain => exact hleave .nil h
  | returns hasValue | throws hasValue =>
    cases hasValue with
    | false => exact hleave .nil h
    | true =>
      obtain ⟨fault, hs, ht⟩ | ⟨⟨s', v⟩, ⟨t', w⟩, hs, ht, h, hvw⟩ := hpop
      · rw [hs, ht]
        exact Step.alike_quiet (.error fault)
      · rw [hs, ht]
        exact hleave .nil h
  | usingScope hasResource =>
    cases hasResource with
    | false => exact hleave .nil h
    | true =>
      obtain ⟨fault, hs, ht⟩ | ⟨⟨s', v⟩, ⟨t', w⟩, hs, ht, h, hvw⟩ := hpop
      · rw [hs, ht]
        exact Step.alike_quiet (.error fault)
      · rw [hs, ht]
        dsimp only
        obtain ⟨hseen, hstate⟩ :=
          Rule.usingScope_alike hR p.rules (p.site point block.lastSpan) hvw h
        obtain ⟨hs, ht⟩ | ⟨s'', t'', hs, ht, h⟩ := optionRel_cases hstate
        · rw [hs, ht]
          exact ⟨hseen, .ok (nodes_here .nil)⟩
        · rw [hs, ht]
          exact hleave hseen (p.transfer.clearFields_alike h)
  | lockScope =>
    obtain ⟨fault, hs, ht⟩ | ⟨⟨s', v⟩, ⟨t', w⟩, hs, ht, h, hvw⟩ := hpop
    · rw [hs, ht]
      exact Step.alike_quiet (.error fault)
    · rw [hs, ht]
      exact hleave .nil (p.transfer.clearFields_alike h)

theorem processTerminator_alike (p : Plan) (point : ProgramPoint) {block : Block}
    (hexit : block.terminator ≠ .exit) (h : s.Like (P.Pairs k) t) :
    Step.Alike P k (p.processTerminator point block s (P.left.after k))
      (p.processTerminator point block t (P.right.after k)) := by
  unfold processTerminator
  cases hterminator : block.terminator with
  | jump target kind => exact p.processJump_alike point block target kind h
  | branch kind onTrue onFalse => exact p.processBranch_alike point block kind onTrue onFalse h
  | fork targets =>
    exact Step.alike_quiet (.ok (nodes_here (forall₂_map_pointwise
      (fun target => p.enter_alike (P.pairs_biUnique k) point.block target h) targets)))
  | exit => exact absurd hterminator hexit

/-! ### Instructions -/

theorem processNode_alike (p : Plan) (point : ProgramPoint) (node : Node)
    (h : s.Like (P.Pairs k) t) :
    Step.Alike P k (p.processNode point node s (P.left.after k))
      (p.processNode point node t (P.right.after k)) := by
  have hR := P.pairs_biUnique k
  unfold processNode
  dsimp only
  split
  · split
    · exact Step.alike_quiet (.error _)
    · exact Step.alike_quiet (.error _)
  next effect _ =>
  obtain ⟨hseen, hstate⟩ :=
    Rule.before_alike hR p.rules (p.site point node.span) node.instruction h
  obtain ⟨hs, ht⟩ | ⟨s₁, t₁, hs, ht, h₁⟩ := optionRel_cases hstate
  · rw [hs, ht]
    exact ⟨hseen, .ok (nodes_here .nil)⟩
  rw [hs, ht]
  dsimp only
  have hseen := List.rel_append hseen
    (Rule.creating_alike p.rules (p.site point node.span) node.instruction)
  obtain ⟨fault, hs, ht⟩ | ⟨r, r', hs, ht, hr⟩ := (p.transfer.visit_alike node.instruction h₁).cases
  · rw [hs, ht]
    dsimp only
    exact ⟨hseen, .error fault⟩
  obtain ⟨rfl, rfl⟩ | ⟨⟨s₂, ids⟩, ⟨t₂, ids'⟩, rfl, rfl, k', hk, hids, hids', h₂⟩ :=
    optionRel_cases hr
  · rw [hs, ht]
    dsimp only
    exact ⟨hseen, .ok (nodes_here .nil)⟩
  dsimp only at hids hids' h₂
  subst hids hids'
  rw [hs, ht]
  dsimp only
  rw [h₁.stack.length_eq, h₂.stack.length_eq]
  split
  · exact ⟨hseen, .error _⟩
  split
  · next type argCount hi =>
    simp only [hi] at hseen ⊢
    obtain ⟨fault, hs, ht⟩ | ⟨v, w, hs, ht, hvw⟩ := (h₂.peek 0).cases
    · rw [hs, ht]
      dsimp only
      exact ⟨hseen, .error fault⟩
    · rw [hs, ht]
      dsimp only
      refine ⟨List.rel_append (List.rel_append hseen ?_) (Rule.noted_alike p.rules _ _), ?_⟩
      · exact Rule.noted_alike p.rules _ _
      · exact .ok (Nodes.earlier hk (node_here ⟨rfl, Rule.created_alike (P.pairs_biUnique k')
          p.rules (p.site point node.span) type argCount hvw h₂⟩))
  · refine ⟨List.rel_append (List.rel_append hseen .nil) (Rule.noted_alike p.rules _ _), ?_⟩
    exact .ok (Nodes.earlier hk (node_here ⟨rfl, h₂⟩))

/-! ### Steps -/

/-- From nodes that are alike, the same is noticed and steps lead to the same, unless the method is
left. -/
theorem process_alike_of_not_exits (p : Plan) {n m : ExplodedNode}
    (hexit : ¬ p.graph.Exits n.point) (h : n.Like (P.Pairs k) m) :
    Step.Alike P k (p.process n (P.left.after k)) (p.process m (P.right.after k)) := by
  obtain ⟨point, s⟩ := n
  obtain ⟨point', t⟩ := m
  obtain ⟨hpoint, h⟩ := h
  dsimp only at hpoint h hexit
  subst hpoint
  unfold process
  dsimp only
  split
  · exact Step.alike_quiet (.error _)
  next block hblock =>
  split
  · exact p.processNode_alike point _ h
  split
  · next hoffset =>
    exact p.processTerminator_alike point (fun hterminator => hexit ⟨block, hblock, hoffset,
      hterminator⟩) h
  · exact Step.alike_quiet (.error _)

/-- A step leads to the same from nodes that are alike. -/
theorem process_alike (p : Plan) {n m : ExplodedNode} (h : n.Like (P.Pairs k) m) :
    Agree (P.Nodes k) (p.process n (P.left.after k)).result
      (p.process m (P.right.after k)).result := by
  by_cases hexit : p.graph.Exits n.point
  · obtain ⟨point, s⟩ := n
    obtain ⟨point', t⟩ := m
    obtain ⟨hpoint, h⟩ := h
    dsimp only at hpoint h hexit
    subst hpoint
    obtain ⟨span, hprocess⟩ := p.process_of_exits hexit
    rw [hprocess, hprocess]
    exact .ok (nodes_here .nil)
  · exact (p.process_alike_of_not_exits hexit h).result

/-- Methods are entered alike. -/
theorem entryState_alike (p : Plan) :
    Agree (P.Alike 0) (p.entryState (P.left.after 0)) (p.entryState (P.right.after 0)) := by
  refine foldlM_alike (fun k s t id h => .bind_same fun symbol => .ok ?_) _ (.initial _)
  have hk := lift (Nat.le_succ k) h
  refine (alike_here (State.Like.assign ?_ id (P.like_fresh k))).earlier (Nat.le_succ k)
  split
  · exact optionRel_getD (hk.record? (P.pairs_biUnique (k + 1)) (P.like_fresh k) .notNull) hk
  · exact hk

end Plan

/-! ### Nodes up to renaming -/

/-- The nodes differ in the names of unknowns at most, and different unknowns have different
names. -/
def ExplodedNode.Matches (n m : ExplodedNode) : Prop := ∃ R, BiUnique R ∧ n.Like R m

/-- The identity was drawn from the supply. -/
def Supply.Given (ids : Supply) (x : Identity) : Prop := ∃ i < ids.used, x = ids.draw i

theorem Supply.Given.after {ids : Supply} {x : Identity} (k : Nat) :
    ids.Given x → (ids.after k).Given x
  | ⟨i, hi, hx⟩ => ⟨i, Nat.lt_add_right k hi, hx⟩

/-- All unknowns of the state were drawn from the supply. -/
def State.Within (s : State) (ids : Supply) : Prop := s.Like (fun x y => x = y ∧ ids.Given x) s

namespace Pairing

variable {ids ids' : Supply}

/-- Any pairs of identities that were drawn before can be gone on with. -/
def ofKnown (hids : ids.draw.Injective) (hids' : ids'.draw.Injective)
    (known : Identity → Identity → Prop) (hknown : BiUnique known)
    (hgiven : ∀ x y, known x y → ids.Given x ∧ ids'.Given y) : Pairing where
  left := ids
  right := ids'
  known := known
  unique := by
    have hleft : ∀ x y i, known x y → x ≠ ids.upcoming i := by
      intro x y i hxy hx
      obtain ⟨j, hj, rfl⟩ := (hgiven x y hxy).1
      have := hids hx
      omega
    have hright : ∀ x y i, known x y → y ≠ ids'.upcoming i := by
      intro x y i hxy hy
      obtain ⟨j, hj, rfl⟩ := (hgiven x y hxy).2
      have := hids' hy
      omega
    constructor
    · rintro x y z (hx | ⟨i, rfl, rfl⟩) (hy | ⟨j, rfl, hz⟩)
      · exact hknown.1 hx hy
      · exact absurd hz (hright x z j hx)
      · exact absurd rfl (hright y _ i hy)
      · have := hids' hz
        rw [show i = j by omega]
    · rintro x y z (hx | ⟨i, rfl, rfl⟩) (hy | ⟨j, hz, rfl⟩)
      · exact hknown.2 hx hy
      · exact absurd hz (hleft x y j hx)
      · exact absurd rfl (hleft _ z i hy)
      · have := hids hz
        rw [show i = j by omega]

/-- A supply beside itself. -/
def diagonal (ids : Supply) : Pairing where
  left := ids
  right := ids
  known x y := x = y ∧ ids.Given x
  unique := by
    have heq : ∀ x y, (x = y ∧ ids.Given x) ∨ (∃ i, x = ids.upcoming i ∧ y = ids.upcoming i) →
        x = y := by
      rintro x y (⟨rfl, -⟩ | ⟨i, rfl, rfl⟩)
      · rfl
      · rfl
    exact ⟨fun x y z h h' => (heq x z h).trans (heq y z h').symm,
      fun x y z h h' => (heq x y h).symm.trans (heq x z h')⟩

theorem within_of_diagonal {k : Nat} {s t : State} (h : s.Like ((diagonal ids).Pairs k) t) :
    s.Within (ids.after k) := by
  refine (h.comp h.symm).mono ?_
  rintro x z ⟨y, hxy, hzy⟩
  have hdiagonal : ∀ x y, (diagonal ids).Pairs k x y → x = y ∧ (ids.after k).Given x := by
    rintro x y (⟨rfl, hgiven⟩ | ⟨i, hi, rfl, rfl⟩)
    · exact ⟨rfl, hgiven.after k⟩
    · exact ⟨rfl, ids.used + i, Nat.add_lt_add_left hi _, rfl⟩
  exact ⟨(hdiagonal x y hxy).1.trans (hdiagonal z y hzy).1.symm, (hdiagonal x y hxy).2⟩

end Pairing

theorem State.Within.after {s : State} {ids : Supply} (h : s.Within ids) (k : Nat) :
    s.Within (ids.after k) :=
  h.mono fun _ _ hxy => ⟨hxy.1, hxy.2.after k⟩

namespace Plan

open Pairing

variable {p : Plan} {ids ids' ids₁ ids₁' : Supply}

/-- Steps draw all new unknowns from the supply. -/
theorem within_of_process {m : ExplodedNode} {next : List ExplodedNode} (h : m.state.Within ids)
    (hprocess : (p.process m ids).result = .ok (next, ids')) :
    ∃ k, ids' = ids.after k ∧ ∀ n ∈ next, n.state.Within ids' := by
  have hlike : m.Like ((diagonal ids).Pairs 0) m := ⟨rfl, h.mono fun _ _ => .inl⟩
  have hagree := p.process_alike hlike
  obtain ⟨fault, hs, -⟩ | ⟨r, r', hs, ht, k, -, hids, -, hnodes⟩ := hagree.cases
  · cases hprocess.symm.trans hs
  · cases hprocess.symm.trans hs
    cases hprocess.symm.trans ht
    obtain rfl : ids' = ids.after k := hids
    refine ⟨k, rfl, fun n hn => ?_⟩
    obtain ⟨n', -, hlike⟩ := exists_of_forall₂ hnodes hn
    exact within_of_diagonal hlike.state

theorem within_of_entryState {s : State} (h : p.entryState ids = .ok (s, ids')) :
    ∃ k, ids' = ids.after k ∧ s.Within ids' := by
  have hagree := p.entryState_alike (P := diagonal ids)
  obtain ⟨fault, hs, -⟩ | ⟨r, r', hs, -, k, -, hids, -, hlike⟩ := hagree.cases
  · cases h.symm.trans hs
  · cases h.symm.trans hs
    obtain rfl : ids' = ids.after k := hids
    exact ⟨k, rfl, within_of_diagonal hlike⟩

/-- Steps from matching nodes lead to matching nodes, in order, or to the same fault. -/
theorem process_matches (p : Plan) {n m : ExplodedNode} (hids : ids.draw.Injective)
    (hids' : ids'.draw.Injective) (hn : n.state.Within ids) (hm : m.state.Within ids')
    (h : n.Matches m) :
    Agree (fun r r' => List.Forall₂ ExplodedNode.Matches r.1 r'.1) (p.process n ids).result
      (p.process m ids').result := by
  obtain ⟨R, hR, hlike⟩ := h
  -- only the identities that occur in the two states matter
  have hknown : n.state.Like (fun x y => R x y ∧ ids.Given x ∧ ids'.Given y) m.state := by
    refine ((hn.comp hlike.state).comp hm).mono ?_
    rintro x y ⟨y, ⟨x, ⟨rfl, hx⟩, hxy⟩, rfl, hy⟩
    exact ⟨hxy, hx, hy⟩
  let P := ofKnown hids hids' (fun x y => R x y ∧ ids.Given x ∧ ids'.Given y)
    ⟨fun _ _ _ h h' => hR.1 h.1 h'.1, fun _ _ _ h h' => hR.2 h.1 h'.1⟩ fun _ _ h => h.2
  have hlike : n.Like (P.Pairs 0) m := ⟨hlike.point, hknown.mono fun _ _ => .inl⟩
  refine (p.process_alike hlike).imp ?_
  rintro r r' ⟨k, -, -, -, hnodes⟩
  exact hnodes.imp fun _ _ hab => ⟨P.Pairs k, P.pairs_biUnique k, hab⟩

/-- Whatever a step leads to from a node, a step from a matching node leads to as well. -/
theorem matches_of_process {n m a : ExplodedNode} {next next' : List ExplodedNode}
    (hids : ids.draw.Injective) (hids' : ids'.draw.Injective) (hn : n.state.Within ids)
    (hm : m.state.Within ids') (h : n.Matches m)
    (hprocess : (p.process n ids).result = .ok (next, ids₁))
    (hprocess' : (p.process m ids').result = .ok (next', ids₁')) (ha : a ∈ next) :
    ∃ b ∈ next', a.Matches b := by
  obtain ⟨fault, hs, -⟩ | ⟨r, r', hs, ht, hnodes⟩ :=
    (p.process_matches hids hids' hn hm h).cases
  · cases hprocess.symm.trans hs
  · cases hprocess.symm.trans hs
    cases hprocess'.symm.trans ht
    exact exists_of_forall₂ hnodes ha

/-- A step that leads somewhere from a node leads somewhere from a matching node. -/
theorem exists_process_of_matches {n m b : ExplodedNode} {next' : List ExplodedNode}
    (hids : ids.draw.Injective) (hids' : ids'.draw.Injective) (hn : n.state.Within ids)
    (hm : m.state.Within ids') (h : n.Matches m)
    (hprocess' : (p.process m ids').result = .ok (next', ids₁')) (hb : b ∈ next') :
    ∃ next ids₁ a, (p.process n ids).result = .ok (next, ids₁) ∧ a ∈ next ∧ a.Matches b := by
  obtain ⟨fault, -, ht⟩ | ⟨r, r', hs, ht, hnodes⟩ :=
    (p.process_matches hids hids' hn hm h).cases
  · cases hprocess'.symm.trans ht
  · cases hprocess'.symm.trans ht
    obtain ⟨a, ha, hab⟩ := exists_of_forall₂ hnodes.flip hb
    exact ⟨r.1, r.2, a, hs, ha, hab⟩

theorem matches_of_entryState {s t : State} (hids : ids.draw.Injective)
    (hids' : ids'.draw.Injective) (hs : p.entryState ids = .ok (s, ids₁))
    (ht : p.entryState ids' = .ok (t, ids₁')) (point : ProgramPoint) :
    ExplodedNode.Matches ⟨point, s⟩ ⟨point, t⟩ := by
  let P := ofKnown hids hids' (fun _ _ => False) ⟨fun _ _ _ h => h.elim, fun _ _ _ h => h.elim⟩
    fun _ _ h => h.elim
  obtain ⟨fault, hs', -⟩ | ⟨r, r', hs', ht', k, -, -, -, hlike⟩ :=
    (p.entryState_alike (P := P)).cases
  · cases hs.symm.trans hs'
  · cases hs.symm.trans hs'
    cases ht.symm.trans ht'
    exact ⟨P.Pairs k, P.pairs_biUnique k, rfl, hlike⟩

end Plan

end Pathwise
