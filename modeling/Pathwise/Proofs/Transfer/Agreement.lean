import Pathwise.Proofs.Alike.Solver
import Pathwise.Transfer.Visit

/-!
States that differ in what some variables hold are followed side by side. An instruction looks up
only what it reads by name, so as long as it reads none of these variables it does the same on both
sides, and where it writes one of them the difference is gone.

A type pattern counts as writing its variables. One that fails does not: its variables are *missed*
and go on to differ.
-/

namespace Pathwise

/-! ### States that differ in a few bindings -/

/-- The states differ in what some symbols hold at most. Where their paths have been does not
matter. -/
structure State.AgreeExcept (D : SymbolId → Prop) (s t : State) : Prop where
  stack : s.stack = t.stack
  facts : s.facts = t.facts
  lookup : ∀ id, ¬ D id → s.lookup id = t.lookup id

namespace State.AgreeExcept

variable {D D' : SymbolId → Prop} {s t : State} {v : Value}

theorem refl (s : State) : s.AgreeExcept (fun _ => False) s := ⟨rfl, rfl, fun _ _ => rfl⟩

theorem mono (h : s.AgreeExcept D t) (hsub : ∀ id, D id → D' id) : s.AgreeExcept D' t :=
  ⟨h.stack, h.facts, fun id hid => h.lookup id fun hD => hid (hsub id hD)⟩

/-! Facts -/

theorem factsOf_eq (h : s.AgreeExcept D t) (v : Value) : s.factsOf v = t.factsOf v := by
  rw [factsOf, factsOf, h.facts]

theorem has_eq (h : s.AgreeExcept D t) (v : Value) (c : Constraint) : s.has v c = t.has v c := by
  rw [has, has, h.factsOf_eq]

theorem record? (h : s.AgreeExcept D t) (v : Value) (c : Constraint) :
    Option.Rel (AgreeExcept D) (s.record? v c) (t.record? v c) := by
  rw [State.record?, State.record?, h.factsOf_eq]
  cases (t.factsOf v).add? c with
  | none => exact .none
  | some facts => exact .some ⟨h.stack, by rw [h.facts], h.lookup⟩

theorem forget (h : s.AgreeExcept D t) (v : Value) : (s.forget v).AgreeExcept D (t.forget v) :=
  ⟨h.stack, by rw [State.forget, State.forget, h.facts], h.lookup⟩

theorem knowAlike (D : SymbolId → Prop) : KnowAlike (· = ·) (AgreeExcept D) where
  factsOf_eq h hvw := hvw.eq_of_like ▸ h.factsOf_eq _
  record? h hvw c := hvw.eq_of_like ▸ h.record? _ c

theorem narrow? (h : s.AgreeExcept D t) (solver : Solver) (v : Value) (c : Constraint) :
    Option.Rel (AgreeExcept D) (solver.narrow? s v c) (solver.narrow? t v c) :=
  (knowAlike D).narrow? biUnique_eq solver h (.refl v) c

theorem equality_eq (h : s.AgreeExcept D t) (kind : EqualityKind) (l r : Value) :
    s.equality kind l r = t.equality kind l r := by
  simp only [equality, h.has_eq]

theorem negate_eq (h : s.AgreeExcept D t) (v : Value) : s.negate v = t.negate v := by
  simp only [negate, h.factsOf_eq]

theorem blankness_eq (h : s.AgreeExcept D t) (v : Value) (whitespace : Bool) :
    s.blankness v whitespace = t.blankness v whitespace := by
  simp only [blankness, h.has_eq]

theorem typeTest_eq (h : s.AgreeExcept D t) (v : Value) : s.typeTest v = t.typeTest v := by
  simp only [typeTest, h.has_eq]

/-! The stack -/

theorem push (h : s.AgreeExcept D t) (v : Value) : (s.push v).AgreeExcept D (t.push v) :=
  ⟨congrArg (v :: ·) h.stack, h.facts, h.lookup⟩

/-- What is taken from the stack is the same on both sides. -/
theorem pop (h : s.AgreeExcept D t) :
    Agree (fun r r' => r.1.AgreeExcept D r'.1 ∧ r.2 = r'.2) s.pop t.pop := by
  unfold State.pop
  rw [h.stack]
  cases t.stack with
  | nil => exact .error _
  | cons v rest => exact .ok ⟨⟨rfl, h.facts, h.lookup⟩, rfl⟩

theorem popMany (h : s.AgreeExcept D t) (count : Nat) :
    Agree (fun r r' => r.1.AgreeExcept D r'.1 ∧ r.2 = r'.2) (s.popMany count)
      (t.popMany count) := by
  unfold State.popMany
  rw [h.stack]
  split
  · exact .error _
  · exact .ok ⟨⟨rfl, h.facts, h.lookup⟩, rfl⟩

theorem peek_eq (h : s.AgreeExcept D t) (depth : Nat) : s.peek depth = t.peek depth := by
  rw [peek, peek, h.stack]

/-! Bindings -/

/-- What is written is the same on both sides afterwards. -/
theorem assign (h : s.AgreeExcept D t) (id : SymbolId) (v : Value) :
    (s.assign id v).AgreeExcept (fun id' => D id' ∧ id' ≠ id) (t.assign id v) := by
  refine ⟨h.stack, h.facts, fun id' hid' => ?_⟩
  rw [lookup_assign, lookup_assign]
  split
  · rfl
  · next hne => exact h.lookup id' fun hD => hid' ⟨hD, fun heq => hne heq.symm⟩

/-- What is written on one side may differ afterwards. -/
theorem assign_left (h : s.AgreeExcept D t) (id : SymbolId) (v : Value) :
    (s.assign id v).AgreeExcept (fun id' => D id' ∨ id' = id) t := by
  refine ⟨h.stack, h.facts, fun id' hid' => ?_⟩
  rw [lookup_assign, if_neg fun heq => hid' (.inr heq.symm)]
  exact h.lookup id' fun hD => hid' (.inl hD)

theorem unbind (h : s.AgreeExcept D t) (id : SymbolId) :
    (s.unbind id).AgreeExcept (fun id' => D id' ∧ id' ≠ id) (t.unbind id) := by
  refine ⟨h.stack, h.facts, fun id' hid' => ?_⟩
  rw [lookup_unbind, lookup_unbind]
  split
  · rfl
  · next hne => exact h.lookup id' fun hD => hid' ⟨hD, fun heq => hne heq.symm⟩

theorem unbindWhere (h : s.AgreeExcept D t) (test : SymbolId → Value → Bool) :
    (s.unbindWhere test).AgreeExcept D (t.unbindWhere test) := by
  refine ⟨h.stack, h.facts, fun id hid => ?_⟩
  rw [lookup_unbindWhere, lookup_unbindWhere, h.lookup id hid]

/-- States do not differ any more once all is forgotten in which they do. -/
theorem unbindAll (h : s.AgreeExcept D t) {test : SymbolId → Bool} (htest : ∀ id, D id → test id) :
    (s.unbindWhere fun id _ => test id).AgreeExcept (fun _ => False)
      (t.unbindWhere fun id _ => test id) := by
  refine ⟨h.stack, h.facts, fun id _ => ?_⟩
  rw [lookup_unbindWhere, lookup_unbindWhere]
  cases hid : test id with
  | true => simp
  | false => rw [h.lookup id fun hD => by simp [htest id hD] at hid]

/-- What can be come across is the same in states that do not differ. -/
theorem collectGarbage (h : s.AgreeExcept (fun _ => False) t) :
    s.collectGarbage.AgreeExcept (fun _ => False) t.collectGarbage := by
  have hbindings : s.bindings = t.bindings :=
    Std.ExtTreeMap.ext_getElem? fun id => h.lookup id not_false
  have hreachable : s.reachable = t.reachable := by
    rw [reachable, reachable, h.stack, hbindings]
  refine ⟨h.stack, ?_, h.lookup⟩
  rw [State.collectGarbage, State.collectGarbage, hreachable, h.facts]

end State.AgreeExcept

/-- Items that go together, each with the same supply, lead to results that go together. -/
theorem Agree.collect {α β α' β' : Type} {P : α → β → Prop} {Q : α' → β' → Prop}
    {f : α → Supply → Except Fault (α' × Supply)}
    {g : β → Supply → Except Fault (β' × Supply)} {xs : List α} {ys : List β}
    (hfg : ∀ a b ids, P a b → Agree (fun x y => Q x.1 y.1 ∧ x.2 = y.2) (f a ids) (g b ids))
    (h : List.Forall₂ P xs ys) (ids : Supply) :
    Agree (fun x y => List.Forall₂ Q x.1 y.1 ∧ x.2 = y.2) (Supply.collect f xs ids)
      (Supply.collect g ys ids) := by
  induction h generalizing ids with
  | nil => exact .ok ⟨.nil, rfl⟩
  | cons hab _ ih =>
    refine (hfg _ _ ids hab).bind ?_
    rintro ⟨a, ids⟩ ⟨b, _⟩ ⟨hab, rfl⟩
    refine (ih ids).bind ?_
    rintro ⟨as, ids⟩ ⟨bs, _⟩ ⟨hrest, rfl⟩
    exact .ok ⟨.cons hab hrest, rfl⟩

/-! ### Instructions, by kind -/

namespace Transfer

variable {D : SymbolId → Prop} {s t : State} {ids : Supply}

/-- The states agree, and as much is left of the supply. -/
def SameBut (D : SymbolId → Prop) (x y : State × Supply) : Prop :=
  x.1.AgreeExcept D y.1 ∧ x.2 = y.2

theorem narrowToType_agree (tr : Transfer) (h : s.AgreeExcept D t) (v : Value) (type : TypeInfo) :
    Option.Rel (State.AgreeExcept D) (tr.narrowToType s v type) (tr.narrowToType t v type) := by
  unfold narrowToType
  split
  · exact h.narrow? tr.solver v .notNull
  · exact .some h

/-- The value is pushed in states that were narrowed, if there are any. -/
theorem map_push_agree {x y : Option State} (h : Option.Rel (State.AgreeExcept D) x y) (v : Value)
    (ids : Supply) :
    Option.Rel (SameBut D) (x.map fun s => (s.push v, ids)) (y.map fun s => (s.push v, ids)) :=
  optionRel_map h fun _ _ h => ⟨h.push v, rfl⟩

theorem push_agree (h : s.AgreeExcept D t) (v : Value) (ids : Supply) :
    Option.Rel (SameBut D) (some (s.push v, ids)) (some (t.push v, ids)) :=
  .some ⟨h.push v, rfl⟩

theorem pushKnown_agree (tr : Transfer) (h : s.AgreeExcept D t) (ids : Supply) (c : Constraint) :
    Option.Rel (SameBut D) (tr.pushKnown s ids c) (tr.pushKnown t ids c) :=
  map_push_agree (h.narrow? tr.solver ids.fresh.1 c) _ _

theorem clearFields_agree (tr : Transfer) (h : s.AgreeExcept D t) :
    (tr.clearFields s).AgreeExcept D (tr.clearFields t) :=
  h.unbindWhere _

/-- The variables of a pattern are the same on both sides once they are bound. -/
theorem bindDesignation_agree (tr : Transfer) (h : s.AgreeExcept D t) (d : Designation) (v : Value)
    (ids : Supply) :
    Agree (SameBut fun id => D id ∧ id ∉ d.symbols) (tr.bindDesignation s d v ids)
      (tr.bindDesignation t d v ids) := by
  cases d with
  | none | discard => exact .ok ⟨h.mono fun id hid => ⟨hid, List.not_mem_nil⟩, rfl⟩
  | single id =>
    refine .bind_same fun _ => .ok ⟨(h.assign id v).mono ?_, rfl⟩
    exact fun id' hid' => ⟨hid'.1, by simpa [Designation.symbols] using hid'.2⟩
  | tuple symbols =>
    unfold bindDesignation
    dsimp only [Designation.symbols]
    induction symbols generalizing D s t ids with
    | nil => exact .ok ⟨h.mono fun id hid => ⟨hid, List.not_mem_nil⟩, rfl⟩
    | cons id rest ih =>
      rw [List.foldlM_cons, List.foldlM_cons]
      refine Agree.bind (P := SameBut fun id' => D id' ∧ id' ≠ id)
        (.bind_same fun _ => .ok ⟨h.assign id _, rfl⟩) ?_
      rintro ⟨s, ids⟩ ⟨t, _⟩ ⟨h, rfl⟩
      refine (ih h ids).imp fun x y hxy => ⟨hxy.1.mono fun id' hid' => ?_, hxy.2⟩
      exact ⟨hid'.1.1, by simp [hid'.1.2, hid'.2]⟩

theorem visitLiteral_agree (tr : Transfer) (l : Literal) (h : s.AgreeExcept D t) (ids : Supply) :
    Option.Rel (SameBut D) (tr.visitLiteral l s ids) (tr.visitLiteral l t ids) := by
  cases l with
  | boolean | null => exact push_agree h _ ids
  | string | numeric | char => exact tr.pushKnown_agree h ids _

/-- A read of a variable that holds the same on both sides. -/
theorem visitRead_agree (tr : Transfer) {id : SymbolId} (hid : ¬ D id) (byReference : Bool)
    (h : s.AgreeExcept D t) (ids : Supply) :
    Agree (Option.Rel (SameBut D)) (tr.visitRead id byReference s ids)
      (tr.visitRead id byReference t ids) := by
  refine .bind_same fun symbol => .ok ?_
  have hfresh : (s.assign id ids.fresh.1).AgreeExcept D (t.assign id ids.fresh.1) :=
    (h.assign id _).mono fun _ hid' => hid'.1
  cases byReference with
  | true => exact map_push_agree (tr.narrowToType_agree hfresh _ _) _ _
  | false =>
    simp only [Bool.false_eq_true, if_false, h.lookup id hid]
    cases t.lookup id with
    | none => exact map_push_agree (tr.narrowToType_agree hfresh _ _) _ _
    | some v => exact map_push_agree (tr.narrowToType_agree h _ _) _ _

theorem popReceiver_agree (access : Access) (h : s.AgreeExcept D t) :
    Agree (fun r r' => r.1.AgreeExcept D r'.1 ∧ r.2 = r'.2) (popReceiver access s)
      (popReceiver access t) := by
  cases access with
  | static => exact .ok ⟨h, rfl⟩
  | receiver => exact h.pop.bind fun r r' hr => .ok ⟨hr.1, congrArg some hr.2⟩

theorem not_of_isBindableMember {tr : Transfer} {id : SymbolId} {symbol : Symbol}
    (hD : ∀ id, D id → tr.symbols.isLocalOrParameter id) (hsymbol : tr.symbol id = .ok symbol)
    {onSelf : Bool} (h : symbol.isBindableMember onSelf) : ¬ D id := by
  intro hid
  have hlocal := hD id hid
  unfold Transfer.symbol at hsymbol
  split at hsymbol
  · next s hs =>
    cases hsymbol
    rw [SymbolTable.isLocalOrParameter, hs] at hlocal
    unfold Symbol.isBindableMember at h
    unfold Symbol.isLocalOrParameter at hlocal
    cases hkind : symbol.kind <;> simp_all
  · cases hsymbol

/-- Members that can be tracked by name are fields, so they hold the same on both sides. -/
theorem visitMember_agree (tr : Transfer) (hD : ∀ id, D id → tr.symbols.isLocalOrParameter id)
    (id : SymbolId) (access : Access) (h : s.AgreeExcept D t) (ids : Supply) :
    Agree (Option.Rel (SameBut D)) (tr.visitMember id access s ids)
      (tr.visitMember id access t ids) := by
  unfold visitMember
  cases hsymbol : tr.symbol id with
  | error fault => exact .error fault
  | ok symbol =>
    refine (popReceiver_agree access h).bind ?_
    rintro ⟨s, receiver⟩ ⟨t, _⟩ ⟨h, rfl⟩
    have hfinish : ∀ {s t : State} (v : Value) (ids : Supply), s.AgreeExcept D t →
        Agree (Option.Rel (SameBut D))
          (pure ((tr.narrowToType s v symbol.type).map fun s => (s.push v, ids)))
          (pure ((tr.narrowToType t v symbol.type).map fun s => (s.push v, ids))) :=
      fun v ids h => .ok (map_push_agree (tr.narrowToType_agree h v _) v ids)
    dsimp only
    split
    · exact hfinish _ _ h
    · exact .ok (optionRel_bind (h.narrow? tr.solver _ .notNull) fun _ _ h =>
        map_push_agree (tr.narrowToType_agree h _ _) _ _)
    · split
      · next hbindable =>
        rw [h.lookup id (not_of_isBindableMember hD hsymbol hbindable)]
        cases t.lookup id with
        | none => exact hfinish _ _ ((h.assign id _).mono fun _ hid => hid.1)
        | some v => exact hfinish v ids h
      · split <;> exact hfinish _ _ h

theorem popTarget_agree (target : AssignmentTarget) (kind : AssignmentKind)
    (h : s.AgreeExcept D t) :
    Agree (fun r r' => r.1.AgreeExcept D r'.1 ∧ r.2 = r'.2) (popTarget target kind s)
      (popTarget target kind t) := by
  unfold popTarget
  split
  · exact .ok ⟨h, rfl⟩
  · exact popReceiver_agree .receiver h
  · exact (h.popMany _).bind fun r r' hr => .ok ⟨hr.1, rfl⟩
  · exact .ok ⟨h, rfl⟩

/-- An assignment to a variable makes it the same on both sides. -/
theorem store_agree (tr : Transfer) (target : AssignmentTarget) (kind : AssignmentKind)
    (receiver : Option Value) (v : Value) (h : s.AgreeExcept D t) :
    Agree (State.AgreeExcept fun id => D id ∧ id ∉ (Instruction.assignment target kind).defines)
      (tr.store target receiver v s) (tr.store target receiver v t) := by
  cases target with
  | symbol id =>
    refine .bind_same fun _ => .ok ((h.assign id v).mono fun id' hid' => ⟨hid'.1, ?_⟩)
    simpa [Instruction.defines] using hid'.2
  | member id access =>
    have hsame : ∀ {s t : State}, s.AgreeExcept D t →
        s.AgreeExcept (fun id' => D id' ∧
          id' ∉ (Instruction.assignment (.member id access) kind).defines) t :=
      fun h => h.mono fun id' hid' => ⟨hid', List.not_mem_nil⟩
    have hassign := hsame ((h.assign id v).mono fun _ hid' => hid'.1)
    refine .bind_same fun symbol => ?_
    cases receiver with
    | some receiver =>
      dsimp only
      split
      · exact .ok hassign
      · exact .ok (hsame (h.forget _))
    | none =>
      cases access with
      | receiver => exact .ok (hsame ((h.unbind id).mono fun _ hid' => hid'.1))
      | static =>
        dsimp only
        split
        · exact .ok hassign
        · exact .ok (hsame h)
  | element | discard => exact .ok (h.mono fun id' hid' => ⟨hid', List.not_mem_nil⟩)

theorem visitAssignment_agree (tr : Transfer) (target : AssignmentTarget) (kind : AssignmentKind)
    (h : s.AgreeExcept D t) (ids : Supply) :
    Agree (Option.Rel (SameBut fun id =>
        D id ∧ id ∉ (Instruction.assignment target kind).defines))
      (tr.visitAssignment target kind s ids) (tr.visitAssignment target kind t ids) := by
  refine h.pop.bind ?_
  rintro ⟨s, operand⟩ ⟨t, _⟩ ⟨h, rfl⟩
  refine (popTarget_agree target kind h).bind ?_
  rintro ⟨s, receiver⟩ ⟨t, _⟩ ⟨h, rfl⟩
  have hfinish : ∀ {s t : State} (v : Value) (ids : Supply), s.AgreeExcept D t →
      Agree (Option.Rel (SameBut fun id =>
          D id ∧ id ∉ (Instruction.assignment target kind).defines))
        (do
          let s ← tr.store target receiver v s
          return some (s.push v, ids))
        (do
          let t ← tr.store target receiver v t
          return some (t.push v, ids)) :=
    fun v ids h => (tr.store_agree target kind receiver v h).bind fun _ _ h =>
      .ok (push_agree h v ids)
  cases kind with
  | simple => exact hfinish operand ids h
  | compound | increment =>
    refine .bind_same fun type => ?_
    cases type with
    | none => exact hfinish _ _ h
    | some type =>
      have hnarrow := tr.narrowToType_agree h ids.fresh.1 type
      dsimp only [Supply.fresh] at hnarrow ⊢
      obtain ⟨hs, ht⟩ | ⟨s', t', hs, ht, h'⟩ := optionRel_cases hnarrow
      · rw [hs, ht]
        exact .ok .none
      · rw [hs, ht]
        exact hfinish _ _ h'

theorem visitBinary_agree (operator : BinaryOperator) (h : s.AgreeExcept D t) (ids : Supply) :
    Agree (Option.Rel (SameBut D)) (visitBinary operator s ids) (visitBinary operator t ids) := by
  refine (h.popMany 2).bind ?_
  rintro ⟨s, operands⟩ ⟨t, _⟩ ⟨h, rfl⟩
  dsimp only
  split
  · cases operator with
    | logic op => exact .ok (push_agree h _ ids)
    | equals kind =>
      dsimp only
      rw [h.equality_eq]
      exact .ok (push_agree h _ ids)
    | notEquals kind =>
      dsimp only
      rw [h.equality_eq, h.negate_eq]
      exact .ok (push_agree h _ ids)
    | relational lifted =>
      dsimp only
      rw [h.has_eq, h.has_eq]
      split <;> exact .ok (push_agree h _ _)
    | arithmetic => exact .ok (push_agree h _ _)
  · exact .error _

/-! ### Calls -/

theorem validate_agree (tr : Transfer) (arguments : List Value) (positions : List Nat)
    (h : s.AgreeExcept D t) :
    Option.Rel (State.AgreeExcept D) (tr.validate arguments positions s)
      (tr.validate arguments positions t) := by
  induction positions generalizing s t with
  | nil => exact .some h
  | cons position rest ih =>
    unfold validate
    split
    · exact optionRel_bind (h.narrow? tr.solver _ .notNull) fun _ _ h => ih h
    · exact ih h

theorem knownResult_eq (method : Method) (arguments : List Value) (receiver : Option Value)
    (h : s.AgreeExcept D t) :
    knownResult method arguments receiver s = knownResult method arguments receiver t := by
  simp only [knownResult, h.equality_eq, h.blankness_eq]

theorem visitInvocation_agree (tr : Transfer) (method : Method) (argCount : Nat)
    (h : s.AgreeExcept D t) (ids : Supply) :
    Agree (Option.Rel (SameBut D)) (tr.visitInvocation method argCount s ids)
      (tr.visitInvocation method argCount t ids) := by
  refine (h.popMany argCount).bind ?_
  rintro ⟨s, arguments⟩ ⟨t, _⟩ ⟨h, rfl⟩
  refine h.pop.bind ?_
  rintro ⟨s, group⟩ ⟨t, _⟩ ⟨h, rfl⟩
  have hfinish : ∀ {s t : State} (v : Value) (ids : Supply), s.AgreeExcept D t →
      SameBut D ((if method.keepsFields then s else tr.clearFields s).push v, ids)
        ((if method.keepsFields then t else tr.clearFields t).push v, ids) := by
    intro s t v ids h
    split
    · exact ⟨h.push v, rfl⟩
    · exact ⟨(tr.clearFields_agree h).push v, rfl⟩
  dsimp only
  obtain ⟨hs, ht⟩ | ⟨s', t', hs, ht, h'⟩ :=
    optionRel_cases (tr.validate_agree arguments method.validatedNotNull h)
  · rw [hs, ht]
    exact .ok .none
  · rw [hs, ht]
    dsimp only
    rw [knownResult_eq method arguments _ h']
    split
    · exact .ok (.some (hfinish _ ids h'))
    · exact .ok (optionRel_map (tr.narrowToType_agree h' _ _) fun _ _ h => hfinish _ _ h)

end Transfer

/-! ### All instructions -/

/-- The variables of a type pattern that keep what they hold, as the tested value is known to be
null. -/
def Instruction.missed (i : Instruction) (s : State) : List SymbolId :=
  match i, s.stack with
  | .isPattern (.type _ designation), operand :: _ =>
    if s.has operand .null then designation.symbols else []
  | _, _ => []

namespace Transfer

variable {D : SymbolId → Prop} {s t : State} {ids : Supply}

theorem missed_type {u : State} {operand : Value} (h : s.pop = .ok (u, operand)) (type : TypeInfo)
    (d : Designation) :
    (Instruction.isPattern (.type type d)).missed s =
      if u.has operand .null then d.symbols else [] := by
  unfold State.pop at h
  split at h
  · next v rest hs =>
    cases h
    simp only [Instruction.missed, hs]
    rfl
  · cases h

theorem visitIsPattern_agree (tr : Transfer) (pattern : Pattern) (h : s.AgreeExcept D t)
    (ids : Supply) :
    Agree (Option.Rel (SameBut fun id => D id ∧ (id ∈ pattern.designatedSymbols →
        id ∈ (Instruction.isPattern pattern).missed s)))
      (tr.visitIsPattern pattern s ids) (tr.visitIsPattern pattern t ids) := by
  unfold visitIsPattern
  obtain ⟨fault, hs, ht⟩ | ⟨⟨u, operand⟩, ⟨w, _⟩, hs, ht, hu, rfl⟩ := h.pop.cases
  · rw [hs, ht]
    exact .error fault
  rw [hs, ht]
  have hbind : ∀ (d : Designation) (result : Value), d.symbols = pattern.designatedSymbols →
      Agree (Option.Rel (SameBut fun id => D id ∧ (id ∈ pattern.designatedSymbols →
          id ∈ (Instruction.isPattern pattern).missed s)))
        (tr.bindDesignation u d operand ids >>= fun r => return some (r.1.push result, r.2))
        (tr.bindDesignation w d operand ids >>= fun r => return some (r.1.push result, r.2)) := by
    intro d result hsymbols
    refine (tr.bindDesignation_agree hu d operand ids).bind ?_
    rintro ⟨u, ids⟩ ⟨w, _⟩ ⟨hu, rfl⟩
    refine .ok (push_agree (hu.mono fun id hid => ⟨hid.1, fun hmem => ?_⟩) result ids)
    exact absurd (hsymbols ▸ hmem) hid.2
  cases pattern with
  | null =>
    have hequality := hu.equality_eq .reference operand .null
    exact .ok (hequality ▸ push_agree (hu.mono fun id hid => ⟨hid, nofun⟩) _ ids)
  | discard | constant => exact .ok (push_agree (hu.mono fun id hid => ⟨hid, nofun⟩) _ _)
  | var d => exact hbind d _ rfl
  | type type d =>
    change Agree _ (if u.has operand .null then _ else _) (if w.has operand .null then _ else _)
    rw [← hu.has_eq]
    split
    · next hnull =>
      rw [missed_type hs, if_pos hnull]
      exact .ok (push_agree (hu.mono fun id hid => ⟨hid, fun hmem => hmem⟩) _ ids)
    · exact hbind d _ rfl

/-- An instruction that does not read any of the symbols in which two states differ does the same in
both. They still differ in what it does not write, and in what it misses. -/
theorem visit_agree (tr : Transfer) (i : Instruction)
    (hD : ∀ id, D id → tr.symbols.isLocalOrParameter id) (huses : ∀ id ∈ i.uses, ¬ D id)
    (h : s.AgreeExcept D t) (ids : Supply) :
    Agree (Option.Rel (SameBut fun id => D id ∧ (id ∈ i.defines → id ∈ i.missed s)))
      (tr.visit i s ids) (tr.visit i t ids) := by
  have hsame : ∀ {x y : Transition}, i.defines = [] → Agree (Option.Rel (SameBut D)) x y →
      Agree (Option.Rel (SameBut fun id => D id ∧ (id ∈ i.defines → id ∈ i.missed s))) x y := by
    intro x y hdefines hxy
    refine hxy.imp fun _ _ => optionRel_imp fun _ _ hxy => ⟨hxy.1.mono fun id hid => ?_, hxy.2⟩
    exact ⟨hid, by simp [hdefines]⟩
  have hpop : ∀ {D'} {f g : State × Value → Transition},
      (∀ s t v, s.AgreeExcept D t → Agree (Option.Rel (SameBut D')) (f (s, v)) (g (t, v))) →
      Agree (Option.Rel (SameBut D')) (s.pop >>= f) (t.pop >>= g) := by
    intro D' f g hfg
    refine h.pop.bind ?_
    rintro ⟨s, v⟩ ⟨t, _⟩ ⟨h, rfl⟩
    exact hfg s t v h
  have hpopMany : ∀ {D'} (count : Nat) {f g : State × List Value → Transition},
      (∀ s t vs, s.AgreeExcept D t → Agree (Option.Rel (SameBut D')) (f (s, vs)) (g (t, vs))) →
      Agree (Option.Rel (SameBut D')) (s.popMany count >>= f) (t.popMany count >>= g) := by
    intro D' count f g hfg
    refine (h.popMany count).bind ?_
    rintro ⟨s, vs⟩ ⟨t, _⟩ ⟨h, rfl⟩
    exact hfg s t vs h
  cases i with
  | literal l => exact hsame rfl (.ok (tr.visitLiteral_agree l h ids))
  | self | base => exact hsame rfl (.ok (push_agree h _ ids))
  | read id byReference =>
    exact hsame rfl (tr.visitRead_agree (huses id (List.mem_singleton.2 rfl)) byReference h ids)
  | declaration id initialized =>
    have hwritten : ∀ id', D id' ∧ id' ≠ id →
        D id' ∧ (id' ∈ (Instruction.declaration id initialized).defines →
          id' ∈ (Instruction.declaration id initialized).missed s) :=
      fun id' hid' => ⟨hid'.1, fun hmem => absurd (List.mem_singleton.1 hmem) hid'.2⟩
    refine .bind_same fun _ => ?_
    cases initialized with
    | true => exact hpop fun s t v h => .ok (.some ⟨(h.assign id v).mono hwritten, rfl⟩)
    | false => exact .ok (.some ⟨(h.unbind id).mono hwritten, rfl⟩)
  | memberAccess id access => exact hsame rfl (tr.visitMember_agree hD id access h ids)
  | methodGroup name access =>
    refine hsame rfl ((popReceiver_agree access h).bind ?_)
    rintro ⟨s, receiver⟩ ⟨t, _⟩ ⟨h, rfl⟩
    cases receiver with
    | some receiver => exact .ok (push_agree h _ ids)
    | none => exact .ok (push_agree h _ _)
  | invocation method argCount => exact hsame rfl (tr.visitInvocation_agree method argCount h ids)
  | assignment target kind =>
    refine (tr.visitAssignment_agree target kind h ids).imp fun _ _ =>
      optionRel_imp fun _ _ hxy => ?_
    exact ⟨hxy.1.mono fun id hid => ⟨hid.1, fun hmem => absurd hmem hid.2⟩, hxy.2⟩
  | binary operator => exact hsame rfl (visitBinary_agree operator h ids)
  | unary operator =>
    refine hsame rfl (hpop fun s t v h => ?_)
    cases operator with
    | not =>
      dsimp only
      rw [h.negate_eq]
      exact .ok (push_agree h _ ids)
    | other => exact .ok (push_agree h _ _)
  | cast kind =>
    unfold visit
    rw [h.peek_eq]
    exact hsame rfl (.bind_same fun _ => .ok (.some ⟨h, rfl⟩))
  | asType type =>
    refine hsame rfl (hpop fun s t v h => ?_)
    dsimp only
    rw [h.has_eq]
    split <;> exact .ok (push_agree h _ _)
  | isType type =>
    refine hsame rfl (hpop fun s t v h => ?_)
    dsimp only
    rw [h.typeTest_eq]
    exact .ok (push_agree h _ ids)
  | isPattern pattern => exact tr.visitIsPattern_agree pattern h ids
  | objectCreation type argCount =>
    exact hsame rfl (hpopMany argCount fun s t _ h => .ok (tr.pushKnown_agree h ids _))
  | arrayCreation count | anonymousObjectCreation count | tuple count =>
    exact hsame rfl (hpopMany count fun s t _ h => .ok (tr.pushKnown_agree h ids _))
  | elementAccess argCount =>
    exact hsame rfl (hpopMany (nextCount argCount) fun s t _ h => .ok (push_agree h _ _))
  | await =>
    exact hsame rfl (hpop fun s t _ h => .ok (push_agree (tr.clearFields_agree h) _ _))
  | defaultValue type =>
    unfold visit
    dsimp only
    split
    · exact hsame rfl (.ok (push_agree h _ ids))
    · exact hsame rfl (.ok (tr.pushKnown_agree h ids _))
  | nameOf | lambda => exact hsame rfl (.ok (tr.pushKnown_agree h ids _))
  | discard => exact hsame rfl (hpop fun s t _ h => .ok (.some ⟨h, rfl⟩))
  | unsupported kind => exact .error _

end Transfer

end Pathwise
