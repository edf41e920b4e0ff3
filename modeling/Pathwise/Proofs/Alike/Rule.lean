import Pathwise.Proofs.Alike.Solver
import Pathwise.Rule.Basic

/-!
Neither what rules do to a state nor what they say about it depends on the identities of unknowns.
Rules that look at states that are alike make the same observations about values that are alike, in
the same order.

There is one exception to the order. The locks that are held where the method is left are reported
in the order of values, and that is an order of identities.
-/

namespace Pathwise

open Relator (BiUnique)

variable {R : Identity → Identity → Prop} {site : Site} {s t : State} {v w : Value}

/-! ### Names -/

/-- The symbols that hold a value are listed in their own order, so the list is known by its
members. -/
theorem State.symbolsBoundTo_congr {v w : Value}
    (h : ∀ id, s.lookup id = some v ↔ t.lookup id = some w) :
    s.symbolsBoundTo v = t.symbolsBoundTo w := by
  have hordered : ∀ (u : State) (x : Value),
      (u.symbolsBoundTo x).Pairwise fun a b => compare a b = .lt := fun u x =>
    List.pairwise_map.2 (Std.ExtTreeMap.ordered_keys_toList.filter _)
  have hnodup : ∀ (u : State) (x : Value), (u.symbolsBoundTo x).Nodup := fun u x =>
    (hordered u x).imp fun hlt heq => by
      subst heq
      rw [Std.compare_self] at hlt
      cases hlt
  refine List.Perm.eq_of_pairwise (fun a b _ _ hab hba => ?_) (hordered s v) (hordered t w) ?_
  · cases hab.symm.trans (Std.OrientedCmp.gt_iff_lt.2 hba)
  · rw [List.perm_ext_iff_of_nodup (hnodup s v) (hnodup t w)]
    intro id
    rw [mem_symbolsBoundTo, mem_symbolsBoundTo]
    exact h id

theorem State.Like.lookup_eq_some_iff (hR : BiUnique R) (h : s.Like R t) (hvw : v.Like R w)
    (id : SymbolId) : s.lookup id = some v ↔ t.lookup id = some w := by
  obtain ⟨hs, ht⟩ | ⟨v', w', hs, ht, hvw'⟩ := optionRel_cases (h.bindings id)
  · simp [hs, ht]
  · simp [hs, ht, hvw'.eq_iff hR hvw]

/-- Values that are alike have the same name. -/
theorem Site.nameOf_eq (hR : BiUnique R) (site : Site) (h : s.Like R t) (hvw : v.Like R w) :
    site.nameOf s v = site.nameOf t w := by
  have hself : v = .self ↔ w = .self := hvw.eq_iff hR (.constant .self)
  unfold nameOf
  simp only [State.symbolsBoundTo_congr (h.lookup_eq_some_iff hR hvw), hself]

/-! ### Observations -/

/-- The same was noticed about values that are alike. What the journal says is not compared. -/
inductive Observation.Like (R : Identity → Identity → Prop) : Observation → Observation → Prop where
  | defect (finding : Finding) {v w : Value} (h : v.Like R w) :
      Like R (.defect finding v) (.defect finding w)
  | acquired {v w : Value} (h : v.Like R w) (location : Location) (name : Option String) :
      Like R (.acquired v location name) (.acquired w location name)
  | heldAtExit {v w : Value} (h : v.Like R w) (name : String) (exit : Location) :
      Like R (.heldAtExit v name exit) (.heldAtExit w name exit)
  | decided (location : Location) (outcome : Bool) :
      Like R (.decided location outcome) (.decided location outcome)
  | journal (event event' : Event) : Like R (.journal event) (.journal event')

/-- The same is noticed, and the path goes on in states that are alike, or ends, on both sides. -/
structure Sighting.Alike (R : Identity → Identity → Prop) (seen seen' : Sighting) : Prop where
  observations : List.Forall₂ (Observation.Like R) seen.observations seen'.observations
  state : Option.Rel (State.Like R) seen.state seen'.state

namespace Sighting

theorem alike_unchanged (h : s.Like R t) : (unchanged s).Alike R (unchanged t) := ⟨.nil, .some h⟩

theorem alike_defect (finding : Finding) (hvw : v.Like R w) {state state' : Option State}
    (h : Option.Rel (State.Like R) state state') :
    Alike R ⟨[.defect finding v], state⟩ ⟨[.defect finding w], state'⟩ :=
  ⟨.cons (.defect finding hvw) .nil, h⟩

/-- The journal looks on. -/
theorem alike_journal (event event' : Event) (h : s.Like R t) :
    Alike R ⟨[.journal event], some s⟩ ⟨[.journal event'], some t⟩ :=
  ⟨.cons (.journal event event') .nil, .some h⟩

theorem inTurn_alike {looks looks' : List (State → Sighting)}
    (hlooks : List.Forall₂ (fun f g => ∀ s t, s.Like R t → (f s).Alike R (g t)) looks looks')
    (h : s.Like R t) : (inTurn looks s).Alike R (inTurn looks' t) := by
  induction hlooks generalizing s t with
  | nil => exact alike_unchanged h
  | @cons look look' _ _ hlook _ ih =>
    obtain ⟨hseen, hstate⟩ := hlook s t h
    rw [inTurn, inTurn]
    cases hs : look s with
    | mk observations state =>
      cases ht : look' t with
      | mk observations' state' =>
        rw [hs, ht] at hseen hstate
        obtain ⟨rfl, rfl⟩ | ⟨s', t', rfl, rfl, h'⟩ := optionRel_cases hstate
        · exact ⟨hseen, .none⟩
        · obtain ⟨hlater, hstate'⟩ := ih h'
          exact ⟨List.rel_append hseen hlater, hstate'⟩

end Sighting

/-! ### The six rules -/

theorem Site.constrain_alike (hR : BiUnique R) (site : Site) (h : s.Like R t) (hvw : v.Like R w)
    (c : Constraint) : Option.Rel (State.Like R) (site.constrain s v c) (site.constrain t w c) :=
  site.solver.narrow?_alike hR h hvw c

theorem Site.demandNotNull_alike (hR : BiUnique R) (site : Site) (h : s.Like R t)
    (depth : Option Nat) (rule : String) (message : String → String) :
    (site.demandNotNull s depth rule message).Alike R
      (site.demandNotNull t depth rule message) := by
  unfold demandNotNull
  split
  · exact Sighting.alike_unchanged h
  next depth =>
  obtain ⟨fault, hs, ht⟩ | ⟨v, w, hs, ht, hvw⟩ := (h.peek depth).cases
  · rw [hs, ht]
    exact Sighting.alike_unchanged h
  · rw [hs, ht]
    dsimp only
    rw [h.has_eq hR hvw, site.nameOf_eq hR h hvw]
    split
    · exact Sighting.alike_defect _ hvw .none
    · exact ⟨.nil, site.constrain_alike hR h hvw .notNull⟩

theorem DisposedTwice.dispose_alike (hR : BiUnique R) (site : Site) (h : s.Like R t)
    (hvw : v.Like R w) (name : Option String) :
    (dispose site v name s).Alike R (dispose site w name t) := by
  unfold dispose
  rw [h.has_eq hR hvw, h.has_eq hR hvw, site.nameOf_eq hR h hvw]
  split
  · exact Sighting.alike_unchanged h
  · split
    · exact Sighting.alike_defect _ hvw (.some h)
    · exact ⟨.nil, site.constrain_alike hR h hvw .disposed⟩

theorem EmptyCollection.access_alike (hR : BiUnique R) (site : Site) (h : s.Like R t)
    (hvw : v.Like R w) (what : String) : (access site v what s).Alike R (access site w what t) := by
  unfold access
  rw [h.has_eq hR hvw]
  split
  · exact Sighting.alike_defect _ hvw (.some h)
  · exact Sighting.alike_unchanged h

theorem foldl_forgetIn_alike (hR : BiUnique R) (d : Domain) {vs ws : List Value}
    (hvs : List.Forall₂ (Value.Like R) vs ws) (h : s.Like R t) :
    (vs.foldl (fun s v => s.forgetIn v d) s).Like R (ws.foldl (fun t w => t.forgetIn w d) t) :=
  List.rel_foldl (fun _ _ h _ _ hvw => h.forgetIn hR hvw d) h hvs

theorem EmptyCollection.call_alike (hR : BiUnique R) (site : Site) (method : Method)
    {operands operands' : CallOperands}
    (hreceiver : Option.Rel (Value.Like R) operands.receiver operands'.receiver)
    (harguments : List.Forall₂ (Value.Like R) operands.arguments operands'.arguments)
    (h : s.Like R t) : (call site method operands s).Alike R (call site method operands' t) := by
  have hsame := Sighting.alike_unchanged h
  have htoList :
      List.Forall₂ (Value.Like R) operands.receiver.toList operands'.receiver.toList := by
    obtain ⟨hs, ht⟩ | ⟨v, w, hs, ht, hvw⟩ := optionRel_cases hreceiver
    · rw [hs, ht]
      exact .nil
    · rw [hs, ht]
      exact .cons hvw .nil
  have hforget := Sighting.alike_unchanged
    (foldl_forgetIn_alike hR .collection (List.rel_append harguments htoList) h)
  unfold call
  obtain ⟨hs, ht⟩ | ⟨v, w, hs, ht, hvw⟩ := optionRel_cases hreceiver
  · rw [hs, ht] at hforget ⊢
    cases method.known with
    | other =>
      dsimp only
      split
      · exact hsame
      · exact hforget
    | _ => exact hsame
  · rw [hs, ht] at hforget ⊢
    have hconstrain := fun c => site.constrain_alike hR (h.forgetIn hR hvw .collection) hvw c
    cases method.known with
    | other =>
      dsimp only
      split
      · exact hsame
      · exact hforget
    | collectionElementAccess => exact access_alike hR site h hvw "call"
    | collectionAdd => exact ⟨.nil, hconstrain .notEmptyCollection⟩
    | collectionClear => exact ⟨.nil, hconstrain .emptyCollection⟩
    | _ => exact hsame

theorem DisposedTwice.before_alike (hR : BiUnique R) (site : Site) (i : Instruction)
    (h : s.Like R t) : (before site i s).Alike R (before site i t) := by
  have hsame := Sighting.alike_unchanged h
  cases i with
  | invocation method argCount =>
    unfold before
    dsimp only
    split
    · obtain ⟨fault, hs, ht⟩ | ⟨c, c', hs, ht, hreceiver, -⟩ := (h.peekCall argCount).cases
      · rw [hs, ht]
        exact hsame
      · rw [hs, ht]
        obtain ⟨receiver, arguments⟩ := c
        obtain ⟨receiver', arguments'⟩ := c'
        cases hreceiver with
        | none => exact hsame
        | some hvw => exact dispose_alike hR site h hvw _
    · exact hsame
  | _ => exact hsame

theorem LockRelease.before_alike (hR : BiUnique R) (site : Site) (i : Instruction)
    (h : s.Like R t) : (before site i s).Alike R (before site i t) := by
  have hsame := Sighting.alike_unchanged h
  cases i with
  | invocation method argCount =>
    have hlock : Option.Rel (Value.Like R) ((s.peekCall argCount).toOption.bind (lockOf method))
        ((t.peekCall argCount).toOption.bind (lockOf method)) := by
      obtain ⟨fault, hs, ht⟩ | ⟨c, c', hs, ht, hreceiver, harguments⟩ := (h.peekCall argCount).cases
      · rw [hs, ht]
        exact .none
      · rw [hs, ht]
        show Option.Rel _ (lockOf method c) (lockOf method c')
        unfold lockOf
        split
        · rw [List.head?_eq_getElem?, List.head?_eq_getElem?]
          exact optionRel_getElem? harguments 0
        · exact hreceiver
    unfold before
    obtain ⟨hs, ht⟩ | ⟨v, w, hs, ht, hvw⟩ := optionRel_cases hlock
    · simp only [hs, ht]
      cases method.known <;> exact hsame
    · simp only [hs, ht]
      cases method.known with
      | lockAcquire => exact ⟨.cons (.acquired hvw _ _) .nil, site.constrain_alike hR h hvw .held⟩
      | lockRelease => exact Sighting.alike_unchanged (h.forgetIn hR hvw .lock)
      | _ => exact hsame
  | _ => exact hsame

theorem EmptyCollection.before_alike (hR : BiUnique R) (site : Site) (i : Instruction)
    (h : s.Like R t) : (before site i s).Alike R (before site i t) := by
  have hsame := Sighting.alike_unchanged h
  cases i with
  | invocation method argCount =>
    unfold before
    obtain ⟨fault, hs, ht⟩ | ⟨c, c', hs, ht, hreceiver, harguments⟩ := (h.peekCall argCount).cases
    · simp only [hs, ht]
      exact hsame
    · simp only [hs, ht]
      exact call_alike hR site method hreceiver harguments h
  | elementAccess argCount =>
    unfold before
    obtain ⟨fault, hs, ht⟩ | ⟨v, w, hs, ht, hvw⟩ := (h.peek argCount).cases
    · simp only [hs, ht]
      exact hsame
    · simp only [hs, ht]
      exact access_alike hR site h hvw "access"
  | _ => exact hsame

/-! ### All rules, in turn -/

namespace Rule

theorem before_alike (hR : BiUnique R) (rules : List Rule) (site : Site) (i : Instruction)
    (h : s.Like R t) : (before rules site i s).Alike R (before rules site i t) := by
  refine Sighting.inTurn_alike (forall₂_map_pointwise (fun rule s t h => ?_) rules) h
  cases rule with
  | nullDereference | emptyNullable => exact site.demandNotNull_alike hR h _ _ _
  | disposedTwice => exact DisposedTwice.before_alike hR site i h
  | lockRelease => exact LockRelease.before_alike hR site i h
  | emptyCollection => exact EmptyCollection.before_alike hR site i h
  | constantCondition => exact Sighting.alike_unchanged h
  | journal => exact Sighting.alike_journal _ _ h

theorem usingScope_alike (hR : BiUnique R) (rules : List Rule) (site : Site) (hvw : v.Like R w)
    (h : s.Like R t) : (usingScope rules site v s).Alike R (usingScope rules site w t) := by
  refine Sighting.inTurn_alike (forall₂_map_pointwise (fun rule s t h => ?_) rules) h
  cases rule with
  | disposedTwice => exact DisposedTwice.dispose_alike hR site h hvw _
  | journal => exact Sighting.alike_journal _ _ h
  | _ => exact Sighting.alike_unchanged h

theorem noted_alike (rules : List Rule) (event event' : Event) :
    List.Forall₂ (Observation.Like R) (noted rules event) (noted rules event') := by
  unfold noted
  split
  · exact .cons (.journal event event') .nil
  · exact .nil

/-- Only the creation of an object is announced, and nothing of the state is told with it. -/
theorem creating_alike (rules : List Rule) (site : Site) (i : Instruction) :
    List.Forall₂ (Observation.Like R)
      (match i with | .objectCreation type _ => creating rules site type | _ => [])
      (match i with | .objectCreation type _ => creating rules site type | _ => []) := by
  split
  · exact noted_alike rules _ _
  · exact .nil

/-- A condition that goes the same way is the same to the rules. -/
theorem condition_alike (rules : List Rule) (site : Site) (isLiteral outcome : Bool) :
    List.Forall₂ (Observation.Like R) (condition rules site v isLiteral outcome s)
      (condition rules site w isLiteral outcome t) := by
  refine List.rel_flatMap (List.forall₂_eq_eq_eq ▸ rfl) ?_
  rintro rule _ rfl
  cases rule with
  | constantCondition =>
    unfold conditionBy
    dsimp only
    split
    · exact .nil
    · exact .cons (.decided _ _) .nil
  | journal => exact .cons (.journal _ _) .nil
  | _ => exact .nil

theorem created_alike (hR : BiUnique R) (rules : List Rule) (site : Site) (type : TypeInfo)
    (argCount : Nat) (hvw : v.Like R w) (h : s.Like R t) :
    (created rules site type argCount v s).2.Like R (created rules site type argCount w t).2 := by
  unfold created EmptyCollection.created
  dsimp only
  split
  · split
    · exact optionRel_getD (site.constrain_alike hR h hvw .emptyCollection) h
    · exact h
  · exact h

end Rule

end Pathwise
