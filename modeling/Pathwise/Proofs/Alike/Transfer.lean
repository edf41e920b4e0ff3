import Pathwise.Proofs.Alike.Solver
import Pathwise.Transfer.Visit

/-!
Instructions do not depend on the identities of unknowns. Two supplies are drawn from side by side;
every draw pairs the two new identities, and as long as neither supply repeats itself or gives an
identity that was paired before, the pairs stay one to one. An instruction that runs in states that
are alike then leads to states that are alike, by the same number of draws, or fails with the same
fault on both sides.
-/

namespace Pathwise

open Relator (BiUnique)

/-! ### Drawing side by side -/

namespace Supply

/-- The identities still to be drawn, in order. -/
def upcoming (ids : Supply) (i : Nat) : Identity := ids.draw (ids.used + i)

/-- The supply after a number of draws. -/
def after (ids : Supply) (count : Nat) : Supply := { ids with used := ids.used + count }

theorem after_after (ids : Supply) (count count' : Nat) :
    (ids.after count).after count' = ids.after (count + count') := by
  simp only [after, Nat.add_assoc]

end Supply

/-- Two supplies, and the identities that are paired before anything is drawn from them. All pairs
that can ever come about are one to one. -/
structure Pairing where
  left : Supply
  right : Supply
  known : Identity → Identity → Prop
  unique : BiUnique fun x y => known x y ∨ ∃ i, x = left.upcoming i ∧ y = right.upcoming i

namespace Pairing

variable {P : Pairing} {k k' : Nat} {s t : State} {v w : Value}

/-- The pairs after a number of draws. -/
def Pairs (P : Pairing) (k : Nat) (x y : Identity) : Prop :=
  P.known x y ∨ ∃ i < k, x = P.left.upcoming i ∧ y = P.right.upcoming i

theorem pairs_mono (h : k ≤ k') (x y : Identity) : P.Pairs k x y → P.Pairs k' x y
  | .inl hknown => .inl hknown
  | .inr ⟨i, hi, hxy⟩ => .inr ⟨i, Nat.lt_of_lt_of_le hi h, hxy⟩

theorem pairs_biUnique (P : Pairing) (k : Nat) : BiUnique (P.Pairs k) := by
  have hall : ∀ x y, P.Pairs k x y →
      P.known x y ∨ ∃ i, x = P.left.upcoming i ∧ y = P.right.upcoming i := by
    rintro x y (hknown | ⟨i, -, hxy⟩)
    · exact .inl hknown
    · exact .inr ⟨i, hxy⟩
  exact ⟨fun x y z h h' => P.unique.1 (hall x z h) (hall y z h'),
    fun x y z h h' => P.unique.2 (hall x y h) (hall x z h')⟩

theorem like_fresh (P : Pairing) (k : Nat) :
    Value.Like (P.Pairs (k + 1)) (.unknown (P.left.upcoming k)) (.unknown (P.right.upcoming k)) :=
  .unknown (.inr ⟨k, Nat.lt_succ_self k, rfl, rfl⟩)

/-- Both results came about by the same number of further draws, and go together after them. -/
def Drawn {α β : Type} (P : Pairing) (k : Nat) (Q : Nat → α → β → Prop) (r : α × Supply)
    (r' : β × Supply) : Prop :=
  ∃ k', k ≤ k' ∧ r.2 = P.left.after k' ∧ r'.2 = P.right.after k' ∧ Q k' r.1 r'.1

/-- States that are alike after the same number of further draws. -/
def Alike (P : Pairing) (k : Nat) : State × Supply → State × Supply → Prop :=
  P.Drawn k fun k' => State.Like (P.Pairs k')

theorem alike_here (h : s.Like (P.Pairs k) t) :
    P.Alike k (s, P.left.after k) (t, P.right.after k) :=
  ⟨k, Nat.le_refl k, rfl, rfl, h⟩

theorem Alike.earlier (hk : k ≤ k') {r r' : State × Supply} : P.Alike k' r r' → P.Alike k r r'
  | ⟨k'', hk'', h⟩ => ⟨k'', Nat.le_trans hk hk'', h⟩

/-- What comes after draws on both sides goes on with the same supplies. -/
theorem bind_drawn {α β γ δ : Type} {Q : Nat → α → β → Prop} {Q' : γ → δ → Prop}
    {x : Except Fault (α × Supply)} {y : Except Fault (β × Supply)}
    {f : α × Supply → Except Fault γ} {g : β × Supply → Except Fault δ}
    (h : Agree (P.Drawn k Q) x y)
    (hfg : ∀ k' a b, k ≤ k' → Q k' a b →
      Agree Q' (f (a, P.left.after k')) (g (b, P.right.after k'))) :
    Agree Q' (x >>= f) (y >>= g) := by
  refine h.bind ?_
  rintro ⟨a, ids⟩ ⟨b, ids'⟩ ⟨k', hk, hids, hids', hab⟩
  dsimp only at hids hids'
  subst hids hids'
  exact hfg k' a b hk hab

theorem bind_alike {α β : Type} {Q : α → β → Prop} {x y : Except Fault (State × Supply)}
    {f : State × Supply → Except Fault α} {g : State × Supply → Except Fault β}
    (h : Agree (P.Alike k) x y)
    (hfg : ∀ k' s t, k ≤ k' → s.Like (P.Pairs k') t →
      Agree Q (f (s, P.left.after k')) (g (t, P.right.after k'))) :
    Agree Q (x >>= f) (y >>= g) :=
  bind_drawn h hfg

/-- Items that go together, one after the other, lead to results that go together after the same
number of draws. -/
theorem collect_drawn {α β γ δ : Type} {Q : Nat → α → β → Prop} {Q' : Nat → γ → δ → Prop}
    {f : α → Supply → Except Fault (γ × Supply)} {g : β → Supply → Except Fault (δ × Supply)}
    (hQ : ∀ k k' a b, k ≤ k' → Q k a b → Q k' a b)
    (hQ' : ∀ k k' c d, k ≤ k' → Q' k c d → Q' k' c d)
    (hfg : ∀ k' a b, k ≤ k' → Q k' a b →
      Agree (P.Drawn k' Q') (f a (P.left.after k')) (g b (P.right.after k')))
    {xs : List α} {ys : List β} (h : List.Forall₂ (Q k) xs ys) :
    Agree (P.Drawn k fun k' => List.Forall₂ (Q' k')) (Supply.collect f xs (P.left.after k))
      (Supply.collect g ys (P.right.after k)) := by
  induction xs generalizing ys k with
  | nil =>
    cases h
    exact .ok ⟨k, Nat.le_refl k, rfl, rfl, .nil⟩
  | cons a xs ih =>
    cases h with
    | cons hab hrest =>
      refine bind_drawn (hfg k a _ (Nat.le_refl k) hab) fun k' c d hk hcd => ?_
      have hrest := hrest.imp fun a b hab => hQ k k' a b hk hab
      have hlater := ih (fun k'' a b hk' => hfg k'' a b (Nat.le_trans hk hk')) hrest
      refine bind_drawn hlater fun k'' cs ds hk' hcds => .ok ?_
      exact ⟨k'', Nat.le_trans hk hk', rfl, rfl, .cons (hQ' k' k'' c d hk' hcd) hcds⟩

theorem foldlM_alike {α : Type} {f g : State × Supply → α → Except Fault (State × Supply)}
    (hstep : ∀ k s t a, s.Like (P.Pairs k) t →
      Agree (P.Alike k) (f (s, P.left.after k) a) (g (t, P.right.after k) a))
    (xs : List α) (h : s.Like (P.Pairs k) t) :
    Agree (P.Alike k) (xs.foldlM f (s, P.left.after k)) (xs.foldlM g (t, P.right.after k)) := by
  induction xs generalizing s t k with
  | nil => exact .ok (alike_here h)
  | cons a rest ih =>
    rw [List.foldlM_cons, List.foldlM_cons]
    exact bind_alike (hstep k s t a h) fun k' s' t' hk h' => (ih h').imp fun _ _ h => h.earlier hk

theorem lift (hk : k ≤ k') (h : s.Like (P.Pairs k) t) : s.Like (P.Pairs k') t :=
  h.mono (pairs_mono hk)

end Pairing

namespace Transfer

open Pairing

variable {P : Pairing} {k k' : Nat} {s t : State} {v w : Value}

/-! ### Instructions, by kind -/

theorem narrowToType_alike (tr : Transfer) (h : s.Like (P.Pairs k) t)
    (hvw : v.Like (P.Pairs k) w) (type : TypeInfo) :
    Option.Rel (State.Like (P.Pairs k)) (tr.narrowToType s v type) (tr.narrowToType t w type) := by
  unfold narrowToType
  split
  · exact tr.solver.narrow?_alike (P.pairs_biUnique k) h hvw .notNull
  · exact .some h

/-- A value is pushed in states that are alike, if there are any. -/
theorem map_push_alike {x y : Option State} (h : Option.Rel (State.Like (P.Pairs k)) x y)
    (hvw : v.Like (P.Pairs k) w) :
    Option.Rel (P.Alike k) (x.map fun s => (s.push v, P.left.after k))
      (y.map fun s => (s.push w, P.right.after k)) :=
  optionRel_map h fun _ _ h => alike_here (h.push hvw)

theorem push_alike (h : s.Like (P.Pairs k) t) (hvw : v.Like (P.Pairs k) w) :
    Option.Rel (P.Alike k) (some (s.push v, P.left.after k)) (some (t.push w, P.right.after k)) :=
  .some (alike_here (h.push hvw))

theorem earlier_alike (hk : k ≤ k') {x y : Option (State × Supply)}
    (h : Option.Rel (P.Alike k') x y) : Option.Rel (P.Alike k) x y :=
  optionRel_imp (fun _ _ h => h.earlier hk) h

theorem pushUnknown_alike (h : s.Like (P.Pairs k) t) :
    Option.Rel (P.Alike k) (pushUnknown s (P.left.after k)) (pushUnknown t (P.right.after k)) :=
  earlier_alike (Nat.le_succ k) (push_alike (lift (Nat.le_succ k) h) (P.like_fresh k))

theorem pushKnown_alike (tr : Transfer) (h : s.Like (P.Pairs k) t) (c : Constraint) :
    Option.Rel (P.Alike k) (tr.pushKnown s (P.left.after k) c)
      (tr.pushKnown t (P.right.after k) c) :=
  earlier_alike (Nat.le_succ k) (map_push_alike
    (tr.solver.narrow?_alike (P.pairs_biUnique (k + 1)) (lift (Nat.le_succ k) h) (P.like_fresh k) c)
    (P.like_fresh k))

theorem clearFields_alike (tr : Transfer) (h : s.Like (P.Pairs k) t) :
    (tr.clearFields s).Like (P.Pairs k) (tr.clearFields t) :=
  h.unbindWhere fun id => tr.symbols.isField id

theorem bindDesignation_alike (tr : Transfer) (h : s.Like (P.Pairs k) t) (d : Designation)
    (hvw : v.Like (P.Pairs k) w) :
    Agree (P.Alike k) (tr.bindDesignation s d v (P.left.after k))
      (tr.bindDesignation t d w (P.right.after k)) := by
  cases d with
  | none | discard => exact .ok (alike_here h)
  | single id => exact .bind_same fun _ => .ok (alike_here (h.assign id hvw))
  | tuple symbols =>
    refine foldlM_alike (fun k s t id h => .bind_same fun _ => .ok ?_) symbols h
    exact (alike_here ((lift (Nat.le_succ k) h).assign id (P.like_fresh k))).earlier (Nat.le_succ k)

theorem visitLiteral_alike (tr : Transfer) (l : Literal) (h : s.Like (P.Pairs k) t) :
    Option.Rel (P.Alike k) (tr.visitLiteral l s (P.left.after k))
      (tr.visitLiteral l t (P.right.after k)) := by
  cases l with
  | boolean truth => exact push_alike h (.ofBool truth)
  | null => exact push_alike h (.constant .null)
  | string | numeric | char => exact pushKnown_alike tr h _

/-- The part that reads of variables and of tracked members share: the symbol gives what it holds,
and holds a new unknown if that is not known. -/
def readTracked (tr : Transfer) (id : SymbolId) (type : TypeInfo) (s : State) (ids : Supply) :
    Option (State × Supply) :=
  let (s, v, ids) :=
    match s.lookup id with
    | some v => (s, v, ids)
    | none => (s.assign id ids.fresh.1, ids.fresh.1, ids.fresh.2)
  (tr.narrowToType s v type).map fun s => (s.push v, ids)

theorem readFresh_alike (tr : Transfer) (type : TypeInfo) (h : s.Like (P.Pairs (k + 1)) t) :
    Option.Rel (P.Alike k)
      ((tr.narrowToType s (.unknown (P.left.upcoming k)) type).map fun s =>
        (s.push (.unknown (P.left.upcoming k)), P.left.after (k + 1)))
      ((tr.narrowToType t (.unknown (P.right.upcoming k)) type).map fun t =>
        (t.push (.unknown (P.right.upcoming k)), P.right.after (k + 1))) :=
  earlier_alike (Nat.le_succ k)
    (map_push_alike (tr.narrowToType_alike h (P.like_fresh k) type) (P.like_fresh k))

theorem readTracked_alike (tr : Transfer) (id : SymbolId) (type : TypeInfo)
    (h : s.Like (P.Pairs k) t) :
    Option.Rel (P.Alike k) (tr.readTracked id type s (P.left.after k))
      (tr.readTracked id type t (P.right.after k)) := by
  unfold readTracked
  obtain ⟨hs, ht⟩ | ⟨v, w, hs, ht, hvw⟩ := optionRel_cases (h.bindings id)
  · rw [hs, ht]
    exact tr.readFresh_alike type ((lift (Nat.le_succ k) h).assign id (P.like_fresh k))
  · rw [hs, ht]
    exact map_push_alike (tr.narrowToType_alike h hvw type) hvw

theorem visitRead_alike (tr : Transfer) (id : SymbolId) (byReference : Bool)
    (h : s.Like (P.Pairs k) t) :
    Agree (Option.Rel (P.Alike k)) (tr.visitRead id byReference s (P.left.after k))
      (tr.visitRead id byReference t (P.right.after k)) := by
  refine .bind_same fun symbol => .ok ?_
  cases byReference with
  | true =>
    exact tr.readFresh_alike symbol.type ((lift (Nat.le_succ k) h).assign id (P.like_fresh k))
  | false => exact tr.readTracked_alike id symbol.type h

theorem popReceiver_alike (access : Access) (h : s.Like (P.Pairs k) t) :
    Agree (fun r r' => r.1.Like (P.Pairs k) r'.1 ∧
      Option.Rel (Value.Like (P.Pairs k)) r.2 r'.2) (popReceiver access s)
      (popReceiver access t) := by
  cases access with
  | static => exact .ok ⟨h, .none⟩
  | receiver => exact h.pop.bind fun r r' hr => .ok ⟨hr.1, .some hr.2⟩

theorem visitMember_alike (tr : Transfer) (id : SymbolId) (access : Access)
    (h : s.Like (P.Pairs k) t) :
    Agree (Option.Rel (P.Alike k)) (tr.visitMember id access s (P.left.after k))
      (tr.visitMember id access t (P.right.after k)) := by
  refine .bind_same fun symbol => (popReceiver_alike access h).bind ?_
  rintro ⟨s, receiver⟩ ⟨t, receiver'⟩ ⟨h, hreceiver⟩
  have htracked : ∀ (s : State) (ids : Supply),
      (match s.lookup id with
        | some v => pure ((tr.narrowToType s v symbol.type).map fun s => (s.push v, ids))
        | none =>
          pure ((tr.narrowToType (s.assign id ids.fresh.1) ids.fresh.1 symbol.type).map fun s =>
            (s.push ids.fresh.1, ids.fresh.2)) : Transition) =
        .ok (tr.readTracked id symbol.type s ids) := by
    intro s ids
    unfold readTracked
    cases s.lookup id <;> rfl
  have hbound := Agree.ok (tr.readTracked_alike id symbol.type h)
  rw [← htracked, ← htracked] at hbound
  have hnew := tr.readFresh_alike symbol.type (lift (Nat.le_succ k) h)
  dsimp only
  generalize symbol.propertyRole = role
  cases role with
  | nullableValue =>
    refine .ok (earlier_alike (Nat.le_succ k) (optionRel_bind (tr.solver.narrow?_alike
      (P.pairs_biUnique (k + 1)) (lift (Nat.le_succ k) h) (P.like_fresh k) .notNull) ?_))
    exact fun s t h => map_push_alike (tr.narrowToType_alike h (P.like_fresh k) _) (P.like_fresh k)
  | nullableHasValue =>
    cases hreceiver with
    | none =>
      dsimp only
      split
      · exact hbound
      · exact .ok hnew
    | some hvw =>
      exact .ok (map_push_alike (tr.narrowToType_alike h (.hasValue hvw) _) (.hasValue hvw))
  | plain =>
    cases hreceiver with
    | none =>
      dsimp only
      split
      · exact hbound
      · exact .ok hnew
    | @some v w hvw =>
      have hself : (some v == some Value.self) = (some w == some .self) := by
        simp [hvw.eq_iff (P.pairs_biUnique k) (.constant .self)]
      dsimp only
      rw [hself]
      split
      · exact hbound
      · exact .ok (map_push_alike (tr.narrowToType_alike h (.member hvw id) _) (.member hvw id))

theorem popTarget_alike (target : AssignmentTarget) (kind : AssignmentKind)
    (h : s.Like (P.Pairs k) t) :
    Agree (fun r r' => r.1.Like (P.Pairs k) r'.1 ∧
      Option.Rel (Value.Like (P.Pairs k)) r.2 r'.2) (popTarget target kind s)
      (popTarget target kind t) := by
  have hnone : Agree (fun r r' : State × Option Value => r.1.Like (P.Pairs k) r'.1 ∧
      Option.Rel (Value.Like (P.Pairs k)) r.2 r'.2) (.ok (s, none)) (.ok (t, none)) :=
    .ok ⟨h, .none⟩
  cases kind with
  | increment => cases target <;> exact hnone
  | simple | compound =>
    cases target with
    | symbol | discard => exact hnone
    | member id access =>
      cases access with
      | static => exact hnone
      | receiver => exact popReceiver_alike .receiver h
    | element argCount =>
      exact (h.popMany (nextCount argCount)).bind fun r r' hr => .ok ⟨hr.1, .none⟩

theorem store_alike (tr : Transfer) (target : AssignmentTarget) {receiver receiver' : Option Value}
    (hreceiver : Option.Rel (Value.Like (P.Pairs k)) receiver receiver')
    (hvw : v.Like (P.Pairs k) w) (h : s.Like (P.Pairs k) t) :
    Agree (State.Like (P.Pairs k)) (tr.store target receiver v s)
      (tr.store target receiver' w t) := by
  cases target with
  | element | discard => exact .ok h
  | symbol id => exact .bind_same fun _ => .ok (h.assign id hvw)
  | member id access =>
    refine .bind_same fun symbol => ?_
    cases hreceiver with
    | none =>
      cases access with
      | receiver => exact .ok (h.unbind id)
      | static =>
        dsimp only
        split
        · exact .ok (h.assign id hvw)
        · exact .ok h
    | @some u u' hu =>
      have hself : (u == Value.self) = (u' == .self) := by
        simp [hu.eq_iff (P.pairs_biUnique k) (.constant .self)]
      dsimp only
      rw [hself]
      split
      · exact .ok (h.assign id hvw)
      · exact .ok (h.forget (P.pairs_biUnique k) (.member hu id))

/-- Goes on from a state, if there is one; otherwise the path ends. -/
def onward (f : State → Transition) : Option State → Transition
  | some s => f s
  | none => return none

theorem onward_alike {x y : Option State} {f g : State → Transition}
    (h : Option.Rel (State.Like (P.Pairs k')) x y)
    (hfg : ∀ s t, s.Like (P.Pairs k') t → Agree (Option.Rel (P.Alike k)) (f s) (g t)) :
    Agree (Option.Rel (P.Alike k)) (onward f x) (onward g y) := by
  cases h with
  | some h => exact hfg _ _ h
  | none => exact .ok .none

theorem visitAssignment_alike (tr : Transfer) (target : AssignmentTarget) (kind : AssignmentKind)
    (h : s.Like (P.Pairs k) t) :
    Agree (Option.Rel (P.Alike k)) (tr.visitAssignment target kind s (P.left.after k))
      (tr.visitAssignment target kind t (P.right.after k)) := by
  refine h.pop.bind ?_
  rintro ⟨s, operand⟩ ⟨t, operand'⟩ ⟨h, hoperand⟩
  refine (popTarget_alike target kind h).bind ?_
  rintro ⟨s, receiver⟩ ⟨t, receiver'⟩ ⟨h, hreceiver⟩
  -- a compound assignment stores a new unknown instead of the operand, so one more draw may be made
  have hfinish : ∀ k' s t v w, k ≤ k' → s.Like (P.Pairs k') t → v.Like (P.Pairs k') w →
      Agree (Option.Rel (P.Alike k))
        (do
          let s ← tr.store target receiver v s
          return some (s.push v, P.left.after k'))
        (do
          let t ← tr.store target receiver' w t
          return some (t.push w, P.right.after k')) := by
    intro k' s t v w hk h hvw
    have hreceiver' := optionRel_imp (fun _ _ hvw => Value.Like.mono (pairs_mono hk) hvw) hreceiver
    exact (tr.store_alike target hreceiver' hvw h).bind fun s t h =>
      .ok (earlier_alike hk (push_alike h hvw))
  have hk := lift (Nat.le_succ k) h
  cases kind with
  | simple => exact hfinish k s t _ _ (Nat.le_refl k) h hoperand
  | compound | increment =>
    refine .bind_same fun type => ?_
    cases type with
    | none => exact hfinish (k + 1) s t _ _ (Nat.le_succ k) hk (P.like_fresh k)
    | some type =>
      exact onward_alike (tr.narrowToType_alike hk (P.like_fresh k) type) fun s t h =>
        hfinish (k + 1) s t _ _ (Nat.le_succ k) h (P.like_fresh k)

theorem visitBinary_alike (operator : BinaryOperator) (h : s.Like (P.Pairs k) t) :
    Agree (Option.Rel (P.Alike k)) (visitBinary operator s (P.left.after k))
      (visitBinary operator t (P.right.after k)) := by
  have hR := P.pairs_biUnique k
  refine (h.popMany 2).bind ?_
  rintro ⟨s, operands⟩ ⟨t, operands'⟩ ⟨h, hoperands⟩
  match operands, operands', hoperands with
  | [], [], _ => exact .error _
  | [_], [_], _ => exact .error _
  | _ :: _ :: _ :: _, _ :: _ :: _ :: _, _ => exact .error _
  | [l, r], [l', r'], .cons hl (.cons hr .nil) =>
    cases operator with
    | logic op => exact .ok (push_alike h (.logic op hl hr))
    | equals kind => exact .ok (push_alike h (h.equality hR kind hl hr))
    | notEquals kind => exact .ok (push_alike h (h.negate hR (h.equality hR kind hl hr)))
    | arithmetic => exact .ok (pushUnknown_alike h)
    | relational lifted =>
      dsimp only
      rw [h.has_eq hR hl, h.has_eq hR hr]
      split
      · exact .ok (push_alike h (.constant .no))
      · exact .ok (pushUnknown_alike h)

theorem visitIsPattern_alike (tr : Transfer) (pattern : Pattern) (h : s.Like (P.Pairs k) t) :
    Agree (Option.Rel (P.Alike k)) (tr.visitIsPattern pattern s (P.left.after k))
      (tr.visitIsPattern pattern t (P.right.after k)) := by
  have hR := P.pairs_biUnique k
  refine h.pop.bind ?_
  rintro ⟨s, operand⟩ ⟨t, operand'⟩ ⟨h, hoperand⟩
  have hbind : ∀ (d : Designation) (result result' : Value),
      result.Like (P.Pairs k) result' → Agree (Option.Rel (P.Alike k))
        (tr.bindDesignation s d operand (P.left.after k) >>= fun r =>
          return some (r.1.push result, r.2))
        (tr.bindDesignation t d operand' (P.right.after k) >>= fun r =>
          return some (r.1.push result', r.2)) := by
    intro d result result' hresult
    refine bind_alike (tr.bindDesignation_alike h d hoperand) fun k' s t hk h => .ok ?_
    exact earlier_alike hk (push_alike h (hresult.mono (pairs_mono hk)))
  cases pattern with
  | null => exact .ok (push_alike h (h.equality hR .reference hoperand (.constant .null)))
  | discard => exact .ok (push_alike h (.constant .yes))
  | constant => exact .ok (pushUnknown_alike h)
  | var d => exact hbind d _ _ (.constant .yes)
  | type type d =>
    dsimp only
    rw [h.has_eq hR hoperand]
    split
    · exact .ok (push_alike h (.constant .no))
    · exact hbind d _ _ (.ofType hoperand)

/-! ### Calls -/

theorem validate_alike (tr : Transfer) {arguments arguments' : List Value}
    (harguments : List.Forall₂ (Value.Like (P.Pairs k)) arguments arguments')
    (positions : List Nat) (h : s.Like (P.Pairs k) t) :
    Option.Rel (State.Like (P.Pairs k)) (tr.validate arguments positions s)
      (tr.validate arguments' positions t) := by
  induction positions generalizing s t with
  | nil => exact .some h
  | cons position rest ih =>
    unfold validate
    obtain ⟨hs, ht⟩ | ⟨v, w, hs, ht, hvw⟩ :=
      optionRel_cases (optionRel_getElem? harguments position)
    · rw [hs, ht]
      exact ih h
    · rw [hs, ht]
      exact optionRel_bind (tr.solver.narrow?_alike (P.pairs_biUnique k) h hvw .notNull)
        fun _ _ h => ih h

/-- A known method gives values that are alike, or is left to the general case on both sides. -/
theorem knownResult_alike (method : Method) {arguments arguments' : List Value}
    (harguments : List.Forall₂ (Value.Like (P.Pairs k)) arguments arguments')
    {receiver receiver' : Option Value}
    (hreceiver : Option.Rel (Value.Like (P.Pairs k)) receiver receiver')
    (h : s.Like (P.Pairs k) t) :
    Option.Rel (Value.Like (P.Pairs k)) (knownResult method arguments receiver s)
      (knownResult method arguments' receiver' t) := by
  have hR := P.pairs_biUnique k
  unfold knownResult
  cases method.known with
  | staticEquals =>
    match arguments, arguments', harguments with
    | [], [], _ | [_], [_], _ | _ :: _ :: _ :: _, _ :: _ :: _ :: _, _ => exact .none
    | [l, r], [l', r'], .cons hl (.cons hr .nil) => exact .some (h.equality hR .value hl hr)
  | instanceEquals =>
    match arguments, arguments', harguments with
    | [], [], _ | _ :: _ :: _, _ :: _ :: _, _ => exact .none
    | [x], [x'], .cons hx .nil =>
      cases hreceiver with
      | none => exact .none
      | some hr => exact .some (h.equality hR .value hr hx)
  | referenceEquals =>
    match arguments, arguments', harguments with
    | [], [], _ | [_], [_], _ | _ :: _ :: _ :: _, _ :: _ :: _ :: _, _ => exact .none
    | [l, r], [l', r'], .cons hl (.cons hr .nil) =>
      dsimp only
      split
      · exact .some (.constant .no)
      · exact .some (h.equality hR .reference hl hr)
  | stringIsNullOrEmpty =>
    match arguments, arguments', harguments with
    | [], [], _ | _ :: _ :: _, _ :: _ :: _, _ => exact .none
    | [x], [x'], .cons hx .nil => exact .some (h.blankness hR hx false)
  | stringIsNullOrWhiteSpace =>
    match arguments, arguments', harguments with
    | [], [], _ | _ :: _ :: _, _ :: _ :: _, _ => exact .none
    | [x], [x'], .cons hx .nil => exact .some (h.blankness hR hx true)
  | _ => exact .none

theorem visitInvocation_alike (tr : Transfer) (method : Method) (argCount : Nat)
    (h : s.Like (P.Pairs k) t) :
    Agree (Option.Rel (P.Alike k)) (tr.visitInvocation method argCount s (P.left.after k))
      (tr.visitInvocation method argCount t (P.right.after k)) := by
  refine (h.popMany argCount).bind ?_
  rintro ⟨s, arguments⟩ ⟨t, arguments'⟩ ⟨h, harguments⟩
  refine h.pop.bind ?_
  rintro ⟨s, group⟩ ⟨t, group'⟩ ⟨h, hgroup⟩
  have hkeep : ∀ k s t v w, s.Like (P.Pairs k) t → v.Like (P.Pairs k) w →
      P.Alike k ((if method.keepsFields then s else tr.clearFields s).push v, P.left.after k)
        ((if method.keepsFields then t else tr.clearFields t).push w, P.right.after k) := by
    intro k s t v w h hvw
    refine alike_here (State.Like.push ?_ hvw)
    split
    · exact h
    · exact tr.clearFields_alike h
  obtain ⟨hs, ht⟩ | ⟨s', t', hs, ht, h'⟩ :=
    optionRel_cases (tr.validate_alike harguments method.validatedNotNull h)
  · simp only [hs, ht]
    exact .ok .none
  · obtain ⟨hr, hr'⟩ | ⟨v, w, hr, hr', hvw⟩ :=
      optionRel_cases (knownResult_alike method harguments hgroup.receiver? h')
    · simp only [hs, ht, hr, hr']
      refine .ok (earlier_alike (Nat.le_succ k) ?_)
      exact optionRel_map (tr.narrowToType_alike (lift (Nat.le_succ k) h') (P.like_fresh k) _)
        fun s t h => hkeep (k + 1) s t _ _ h (P.like_fresh k)
    · simp only [hs, ht, hr, hr']
      exact .ok (.some (hkeep k s' t' v w h' hvw))

/-! ### All instructions -/

/-- An instruction does the same in states that are alike. -/
theorem visit_alike (tr : Transfer) (i : Instruction) (h : s.Like (P.Pairs k) t) :
    Agree (Option.Rel (P.Alike k)) (tr.visit i s (P.left.after k))
      (tr.visit i t (P.right.after k)) := by
  have hR := P.pairs_biUnique k
  have hpopMany : ∀ count {f g : State × List Value → Transition},
      (∀ s t vs ws, s.Like (P.Pairs k) t →
        Agree (Option.Rel (P.Alike k)) (f (s, vs)) (g (t, ws))) →
      Agree (Option.Rel (P.Alike k)) (s.popMany count >>= f) (t.popMany count >>= g) :=
    fun count f g hfg => (h.popMany count).bind fun r r' hr => hfg r.1 r'.1 r.2 r'.2 hr.1
  have hpop : ∀ {f g : State × Value → Transition},
      (∀ s t v w, s.Like (P.Pairs k) t → v.Like (P.Pairs k) w →
        Agree (Option.Rel (P.Alike k)) (f (s, v)) (g (t, w))) →
      Agree (Option.Rel (P.Alike k)) (s.pop >>= f) (t.pop >>= g) :=
    fun hfg => h.pop.bind fun r r' hr => hfg r.1 r'.1 r.2 r'.2 hr.1 hr.2
  cases i with
  | literal l => exact .ok (tr.visitLiteral_alike l h)
  | self | base => exact .ok (push_alike h (.constant .self))
  | read id byReference => exact tr.visitRead_alike id byReference h
  | declaration id initialized =>
    refine .bind_same fun _ => ?_
    cases initialized with
    | true => exact hpop fun s t v w h hvw => .ok (.some (alike_here (h.assign id hvw)))
    | false => exact .ok (.some (alike_here (h.unbind id)))
  | memberAccess id access => exact tr.visitMember_alike id access h
  | methodGroup name access =>
    refine (popReceiver_alike access h).bind ?_
    rintro ⟨s, receiver⟩ ⟨t, receiver'⟩ ⟨h, hreceiver⟩
    cases hreceiver with
    | some hvw => exact .ok (push_alike h (.group hvw name))
    | none => exact .ok (pushUnknown_alike h)
  | invocation method argCount => exact tr.visitInvocation_alike method argCount h
  | assignment target kind => exact tr.visitAssignment_alike target kind h
  | binary operator => exact visitBinary_alike operator h
  | unary operator =>
    refine hpop fun s t v w h hvw => ?_
    cases operator with
    | not => exact .ok (push_alike h (h.negate hR hvw))
    | other => exact .ok (pushUnknown_alike h)
  | cast kind => exact (h.peek 0).bind fun _ _ _ => .ok (.some (alike_here h))
  | asType type =>
    refine hpop fun s t v w h hvw => ?_
    dsimp only
    rw [h.has_eq hR hvw]
    split
    · exact .ok (push_alike h (.constant .null))
    · exact .ok (pushUnknown_alike h)
  | isType type => exact hpop fun s t v w h hvw => .ok (push_alike h (h.typeTest hR hvw))
  | isPattern pattern => exact tr.visitIsPattern_alike pattern h
  | objectCreation type argCount =>
    exact hpopMany argCount fun s t _ _ h => .ok (pushKnown_alike tr h _)
  | arrayCreation count | anonymousObjectCreation count | tuple count =>
    exact hpopMany count fun s t _ _ h => .ok (pushKnown_alike tr h _)
  | elementAccess argCount =>
    exact hpopMany (nextCount argCount) fun s t _ _ h => .ok (pushUnknown_alike h)
  | await => exact hpop fun s t _ _ h _ => .ok (pushUnknown_alike (tr.clearFields_alike h))
  | defaultValue type =>
    unfold visit
    dsimp only
    split
    · exact .ok (push_alike h (.constant .null))
    · exact .ok (pushKnown_alike tr h _)
  | nameOf | lambda => exact .ok (pushKnown_alike tr h _)
  | discard => exact hpop fun s t _ _ h _ => .ok (.some (alike_here h))
  | unsupported kind => exact .error _

end Transfer

end Pathwise
