import Mathlib.Data.List.Forall2
import Pathwise.Proofs.Solver.Narrowing
import Pathwise.Transfer.Visit

/-!
What every instruction does to the stack, and why it can fail. An instruction whose operands are on
the stack and whose symbols are declared does not fail. It replaces the values that it takes by as
many as its stack effect says it pushes, leaves the rest of the stack alone, and does not touch the
visits of the path. It takes as many values as its stack effect says, unless there are too many of
them for a count (`Instruction.taken_eq_pops`).

`Transfer.visit_meets` says so for all instructions at once: whatever the outcome, it is either a
state with such a stack, or no state, or a fault with a cause that the instruction and the stack
show.
-/

namespace Pathwise

/-- The symbols that an instruction refers to. -/
def Instruction.symbols : Instruction → List SymbolId
  | .read id _ | .declaration id _ | .memberAccess id _ => [id]
  | .assignment (.symbol id) _ | .assignment (.member id _) _ => [id]
  | .isPattern pattern => pattern.designatedSymbols
  | _ => []

/-! ### Counts -/

namespace Instruction

/-- How many values an instruction takes from the stack. -/
def taken : Instruction → Nat
  | .invocation _ argCount => argCount + 1
  | .assignment target kind => 1 + receiverOperands target kind
  | i => match i.stackEffect with
    | some effect => effect.pops
    | none => 0

variable {i : Instruction} {effect : StackEffect}

/-- What can be counted is what the stack effect says. -/
theorem taken_eq_pops (heffect : i.stackEffect = some effect) (h : i.taken < UInt64.size) :
    i.taken = effect.pops := by
  cases i with
  | invocation method argCount =>
    cases heffect
    exact (nextCount_of_lt h).symm
  | assignment target kind =>
    cases heffect
    have h : 1 + receiverOperands target kind < UInt64.size := h
    have hnext := nextCount_of_lt (show receiverOperands target kind + 1 < UInt64.size by omega)
    exact (Nat.add_comm 1 _).trans hnext.symm
  | _ => cases heffect <;> rfl

theorem pops_le_taken (heffect : i.stackEffect = some effect) : effect.pops ≤ i.taken := by
  cases i with
  | invocation method argCount =>
    cases heffect
    exact Nat.mod_le _ _
  | assignment target kind =>
    cases heffect
    exact Nat.le_trans (Nat.mod_le _ _) (Nat.le_of_eq (Nat.add_comm _ 1))
  | _ => cases heffect <;> exact Nat.le_refl _

end Instruction

/-! ### Outcomes -/

/-- The outcome is a result as described, or a fault for a reason as described. -/
def Meets {α : Type} (reason : Fault → Prop) (result : α → Prop) : Except Fault α → Prop
  | .ok a => result a
  | .error fault => reason fault

namespace Meets

variable {α β : Type} {reason : Fault → Prop} {P : α → Prop} {Q : β → Prop}

theorem bind {x : Except Fault α} {f : α → Except Fault β} (hx : Meets reason P x)
    (hf : ∀ a, P a → Meets reason Q (f a)) : Meets reason Q (x >>= f) := by
  cases x with
  | ok a => exact hf a hx
  | error fault => exact hx

theorem mono {reason' : Fault → Prop} {P' : α → Prop} {x : Except Fault α}
    (hx : Meets reason P x) (hreason : ∀ fault, reason fault → reason' fault)
    (hP : ∀ a, P a → P' a) : Meets reason' P' x := by
  cases x with
  | ok a => exact hP a hx
  | error fault => exact hreason fault hx

theorem weaken {reason' : Fault → Prop} {x : Except Fault α} (hx : Meets reason P x)
    (hreason : ∀ fault, reason fault → reason' fault) : Meets reason' P x :=
  hx.mono hreason fun _ ha => ha

/-- What every step of a fold keeps, the fold keeps. -/
theorem foldlM {f : α → β → Except Fault α} {xs : List β}
    (h : ∀ x ∈ xs, ∀ a, P a → Meets reason P (f a x)) {a : α} (ha : P a) :
    Meets reason P (xs.foldlM f a) := by
  induction xs generalizing a with
  | nil => exact ha
  | cons x xs ih =>
    rw [List.foldlM_cons]
    exact (h x List.mem_cons_self a ha).bind fun b hb =>
      ih (fun y hy => h y (List.mem_cons_of_mem _ hy)) hb

/-- What becomes of every item, one after the other. -/
theorem collect {f : α → Supply → Except Fault (β × Supply)} {R : α → β → Prop} {xs : List α}
    (h : ∀ x ∈ xs, ∀ ids, Meets reason (fun r => R x r.1) (f x ids)) (ids : Supply) :
    Meets reason (fun r => List.Forall₂ R xs r.1) (Supply.collect f xs ids) := by
  induction xs generalizing ids with
  | nil => exact .nil
  | cons x xs ih =>
    refine (h x List.mem_cons_self ids).bind fun r hr => ?_
    exact (ih (fun y hy => h y (List.mem_cons_of_mem _ hy)) r.2).bind fun _ hrest => .cons hr hrest

end Meets

/-- The second state differs from the first in its bindings at most. -/
structure State.BindingsOnly (s t : State) : Prop where
  stack : t.stack = s.stack
  facts : t.facts = s.facts
  visits : t.visits = s.visits

/-! ### Stacks -/

/-- Values on top of the stack were replaced by others, as many as the counts say. -/
structure State.Exchanges (pops pushes : Nat) (s t : State) : Prop where
  enough : pops ≤ s.stack.length
  stack : ∃ top, top.length = pushes ∧ t.stack = top ++ s.stack.drop pops
  visits : t.visits = s.visits

namespace State.Exchanges

variable {pops pushes : Nat} {s t u : State}

theorem refl (s : State) : Exchanges 0 0 s s := ⟨Nat.zero_le _, ⟨[], rfl, rfl⟩, rfl⟩

/-- What was pushed can be looked at. -/
theorem exists_peek (h : Exchanges pops 1 s t) : ∃ v, t.peek 0 = .ok v := by
  obtain ⟨top, hlength, hstack⟩ := h.stack
  obtain ⟨v, rfl⟩ := List.length_eq_one_iff.1 hlength
  exact ⟨v, by simp [peek, hstack]⟩

/-- Only the stack and the visits count. -/
theorem congr (h : Exchanges pops pushes s t) (hstack : u.stack = t.stack)
    (hvisits : u.visits = t.visits) : Exchanges pops pushes s u := by
  obtain ⟨top, hlength, htop⟩ := h.stack
  exact ⟨h.enough, ⟨top, hlength, hstack.trans htop⟩, hvisits.trans h.visits⟩

theorem factsOnly (h : Exchanges pops pushes s t) (h' : FactsOnly t u) :
    Exchanges pops pushes s u :=
  h.congr h'.stack h'.visits

theorem of_factsOnly (h : FactsOnly s t) (h' : Exchanges pops pushes t u) :
    Exchanges pops pushes s u :=
  ⟨h.stack ▸ h'.enough, h.stack ▸ h'.stack, h'.visits.trans h.visits⟩

theorem push (h : Exchanges pops pushes s t) (v : Value) :
    Exchanges pops (pushes + 1) s (t.push v) := by
  obtain ⟨top, hlength, htop⟩ := h.stack
  exact ⟨h.enough, ⟨v :: top, by rw [List.length_cons, hlength], by rw [stack_push, htop]; rfl⟩,
    h.visits⟩

/-- Values taken in two goes. -/
theorem trans {more : Nat} (h : Exchanges pops 0 s t) (h' : Exchanges more pushes t u) :
    Exchanges (pops + more) pushes s u := by
  obtain ⟨nothing, hnil, ht⟩ := h.stack
  obtain rfl := List.length_eq_zero_iff.1 hnil
  rw [List.nil_append] at ht
  obtain ⟨top, hlength, hu⟩ := h'.stack
  have hmore := h'.enough
  rw [ht, List.length_drop] at hmore
  refine ⟨?_, ⟨top, hlength, ?_⟩, h'.visits.trans h.visits⟩
  · have := h.enough
    omega
  · rw [hu, ht, List.drop_drop]

theorem length (h : Exchanges pops pushes s t) :
    t.stack.length + pops = s.stack.length + pushes := by
  obtain ⟨top, hlength, ht⟩ := h.stack
  have := h.enough
  rw [ht, List.length_append, List.length_drop]
  omega

end State.Exchanges

namespace State

variable {s : State}

/-- Taking the top value fails only if there is none. -/
theorem pop_meets (s : State) :
    Meets (fun fault => ∃ depth < 1, fault = .noSuchStackFrame depth ∧ s.stack.length < 1)
      (fun r => Exchanges 1 0 s r.1) s.pop := by
  unfold pop
  cases hs : s.stack with
  | nil => exact ⟨0, by omega, rfl, by simp⟩
  | cons v rest => exact ⟨by simp [hs], ⟨[], rfl, by simp [hs]⟩, rfl⟩

/-- Taking several values fails only if there are not as many. -/
theorem popMany_meets (s : State) (count : Nat) :
    Meets (fun fault => ∃ depth < count, fault = .noSuchStackFrame depth ∧ s.stack.length < count)
      (fun r => Exchanges count 0 s r.1 ∧ r.2.length = count) (s.popMany count) := by
  unfold popMany
  split
  · next hshort => exact ⟨count - 1, by omega, rfl, hshort⟩
  · next henough =>
    have henough : count ≤ s.stack.length := by omega
    exact ⟨⟨henough, ⟨[], rfl, rfl⟩, rfl⟩, by simp [henough]⟩

end State

/-! ### Instructions, by kind -/

namespace Transfer

variable {t : Transfer} {s u : State} {ids : Supply} {pops pushes : Nat}

/-- The operands were there, and any state that comes about has results in their place. -/
def Leads (pops pushes : Nat) (s : State) (r : Option (State × Supply)) : Prop :=
  pops ≤ s.stack.length ∧ ∀ u ids, r = some (u, ids) → s.Exchanges pops pushes u

/-- A symbol is missing. -/
def Undeclared (t : Transfer) (ids : List SymbolId) (fault : Fault) : Prop :=
  ∃ id ∈ ids, fault = .noSuchSymbol id ∧ t.symbols.get? id = none

/-- There are not enough operands. -/
def Short (s : State) (pops : Nat) (fault : Fault) : Prop :=
  ∃ depth < pops, fault = .noSuchStackFrame depth ∧ s.stack.length < pops

/-- A symbol is missing, or there are not enough operands. -/
def Cause (t : Transfer) (ids : List SymbolId) (s : State) (pops : Nat) (fault : Fault) : Prop :=
  t.Undeclared ids fault ∨ Short s pops fault

theorem leads_some (h : s.Exchanges pops pushes u) : Leads pops pushes s (some (u, ids)) := by
  refine ⟨h.enough, fun u' ids' heq => ?_⟩
  obtain ⟨rfl, rfl⟩ := Prod.mk.inj (Option.some.inj heq)
  exact h

theorem leads_push (h : s.Exchanges pops 0 u) (v : Value) :
    Leads pops 1 s (some (u.push v, ids)) :=
  leads_some (h.push v)

theorem leads_none (h : s.Exchanges pops 0 u) : Leads pops pushes s none :=
  ⟨h.enough, fun _ _ heq => absurd heq (by simp)⟩

/-- The value is pushed in a state that was narrowed, if there is one. -/
theorem leads_map_push (h : s.Exchanges pops 0 u) {narrowed : Option State}
    (hnarrowed : ∀ w, narrowed = some w → u.FactsOnly w) (v : Value) :
    Leads pops 1 s (narrowed.map fun w => (w.push v, ids)) := by
  cases narrowed with
  | none => exact leads_none h
  | some w => exact leads_push (h.factsOnly (hnarrowed w rfl)) v

theorem factsOnly_of_narrow? {solver : Solver} {v : Value} {c : Constraint} {w : State}
    (h : solver.narrow? u v c = some w) : u.FactsOnly w :=
  .of_narrows (Solver.narrows_of_narrow? h)

theorem factsOnly_of_narrowToType {v : Value} {type : TypeInfo} {w : State}
    (h : t.narrowToType u v type = some w) : u.FactsOnly w := by
  unfold narrowToType at h
  split at h
  · exact factsOnly_of_narrow? h
  · obtain rfl := Option.some.inj h
    exact .refl u

theorem leads_pushUnknown (h : s.Exchanges pops 0 u) : Leads pops 1 s (pushUnknown u ids) :=
  leads_push h _

theorem leads_pushKnown (h : s.Exchanges pops 0 u) (c : Constraint) :
    Leads pops 1 s (t.pushKnown u ids c) :=
  leads_map_push h (fun _ hw => factsOnly_of_narrow? hw) _

theorem symbol_meets (t : Transfer) (id : SymbolId) :
    Meets (t.Undeclared [id]) (fun _ => True) (t.symbol id) := by
  unfold symbol
  split
  · exact trivial
  · next h => exact ⟨id, List.mem_singleton.2 rfl, rfl, h⟩

theorem popReceiver_meets (access : Access) (s : State) :
    Meets (Short s (access == .receiver).toNat)
      (fun r => s.Exchanges (access == .receiver).toNat 0 r.1) (popReceiver access s) := by
  cases access with
  | static => exact State.Exchanges.refl s
  | receiver => exact s.pop_meets.bind fun r hr => hr

theorem visitRead_meets (t : Transfer) (id : SymbolId) (byReference : Bool) (s : State)
    (ids : Supply) :
    Meets (t.Undeclared [id]) (Leads 0 1 s) (t.visitRead id byReference s ids) := by
  refine (t.symbol_meets id).bind fun symbol _ => ?_
  split
  next u v ids' hread =>
    have hu : s.Exchanges 0 0 u := by
      split at hread
      · obtain ⟨rfl, -⟩ := Prod.mk.inj hread
        exact .refl s
      · obtain ⟨rfl, -⟩ := Prod.mk.inj hread
        exact ⟨Nat.zero_le _, ⟨[], rfl, rfl⟩, rfl⟩
    exact leads_map_push hu (fun _ hw => factsOnly_of_narrowToType hw) v

theorem visitMember_meets (t : Transfer) (id : SymbolId) (access : Access) (s : State)
    (ids : Supply) :
    Meets (t.Cause [id] s (access == .receiver).toNat) (Leads (access == .receiver).toNat 1 s)
      (t.visitMember id access s ids) := by
  refine ((t.symbol_meets id).weaken fun _ => .inl).bind fun symbol _ => ?_
  refine ((popReceiver_meets access s).weaken fun _ => .inr).bind ?_
  rintro ⟨u, receiver⟩ hu
  have hfinish : ∀ w v ids, u.stack = w.stack → u.visits = w.visits →
      Leads (access == .receiver).toNat 1 s
        ((t.narrowToType w v symbol.type).map fun w => (w.push v, ids)) :=
    fun w v ids hstack hvisits =>
      leads_map_push (hu.congr hstack.symm hvisits.symm)
        (fun _ hw => factsOnly_of_narrowToType hw) v
  dsimp only
  split
  · exact hfinish u _ _ rfl rfl
  · cases hnarrow : t.solver.narrow? u ids.fresh.1 .notNull with
    | none => exact leads_none hu
    | some w =>
      have hw := factsOnly_of_narrow? hnarrow
      exact hfinish w _ _ hw.stack.symm hw.visits.symm
  · split
    · split
      · exact hfinish u _ _ rfl rfl
      · exact hfinish _ _ _ rfl rfl
    · split
      · exact hfinish u _ _ rfl rfl
      · exact hfinish u _ _ rfl rfl

/-- An assignment takes its receiver and index arguments from below the assigned value. -/
theorem popTarget_meets (target : AssignmentTarget) (kind : AssignmentKind) (s : State) :
    Meets (Short s (Instruction.receiverOperands target kind))
      (fun r => s.Exchanges (Instruction.receiverOperands target kind) 0 r.1)
      (popTarget target kind s) := by
  cases kind with
  | increment => cases target <;> exact State.Exchanges.refl s
  | simple | compound =>
    rcases target with id | ⟨id, access⟩ | argCount | _
    · exact State.Exchanges.refl s
    · cases access with
      | receiver => exact popReceiver_meets .receiver s
      | static => exact State.Exchanges.refl s
    · exact (s.popMany_meets (nextCount argCount)).bind fun _ hr => hr.1
    · exact State.Exchanges.refl s

/-- The symbol that the target of an assignment refers to. -/
def targetSymbols : AssignmentTarget → List SymbolId
  | .symbol id | .member id _ => [id]
  | .element _ | .discard => []

theorem targetType_meets (t : Transfer) (target : AssignmentTarget) :
    Meets (t.Undeclared (targetSymbols target)) (fun _ => True) (t.targetType target) := by
  cases target with
  | symbol id | member id => exact (t.symbol_meets id).bind fun _ _ => trivial
  | element | discard => exact trivial

theorem store_meets (t : Transfer) (target : AssignmentTarget) (receiver : Option Value)
    (v : Value) (s : State) :
    Meets (t.Undeclared (targetSymbols target))
      (fun u => u.stack = s.stack ∧ u.visits = s.visits) (t.store target receiver v s) := by
  cases target with
  | symbol id => exact (t.symbol_meets id).bind fun _ _ => ⟨rfl, rfl⟩
  | member id access =>
    refine (t.symbol_meets id).bind fun symbol _ => ?_
    cases receiver with
    | some receiver => dsimp only; split <;> exact ⟨rfl, rfl⟩
    | none =>
      cases access with
      | static => dsimp only; split <;> exact ⟨rfl, rfl⟩
      | receiver => exact ⟨rfl, rfl⟩
  | element | discard => exact ⟨rfl, rfl⟩

theorem visitAssignment_meets (t : Transfer) (target : AssignmentTarget) (kind : AssignmentKind)
    (s : State) (ids : Supply) :
    Meets (t.Cause (targetSymbols target) s (1 + Instruction.receiverOperands target kind))
      (Leads (1 + Instruction.receiverOperands target kind) 1 s)
      (t.visitAssignment target kind s ids) := by
  refine (s.pop_meets.weaken ?_).bind ?_
  · rintro fault ⟨depth, hdepth, rfl, hshort⟩
    exact .inr ⟨depth, by omega, rfl, by omega⟩
  rintro ⟨u, operand⟩ hu
  refine ((popTarget_meets target kind u).weaken ?_).bind ?_
  · rintro fault ⟨depth, hdepth, rfl, hshort⟩
    have hlength : u.stack.length + 1 = s.stack.length := hu.length
    exact .inr ⟨depth, by omega, rfl, by omega⟩
  rintro ⟨w, receiver⟩ hw
  have hw := hu.trans hw
  have hfinish : ∀ w' v ids, w.FactsOnly w' →
      Meets (t.Cause (targetSymbols target) s (1 + Instruction.receiverOperands target kind))
        (Leads (1 + Instruction.receiverOperands target kind) 1 s)
        (do
          let s ← t.store target receiver v w'
          return some (s.push v, ids)) := by
    intro w' v ids hw'
    refine ((t.store_meets target receiver v w').weaken fun _ => .inl).bind ?_
    rintro u' ⟨hstack, hvisits⟩
    exact leads_push ((hw.factsOnly hw').congr hstack hvisits) v
  cases kind with
  | simple => exact hfinish w operand ids (.refl w)
  | compound | increment =>
    refine ((t.targetType_meets target).weaken fun _ => .inl).bind fun type _ => ?_
    cases type with
    | none => exact hfinish w _ _ (.refl w)
    | some type =>
      dsimp only
      split
      · next w' hnarrow => exact hfinish w' _ _ (factsOnly_of_narrowToType hnarrow)
      · exact leads_none hw

theorem visitBinary_meets (operator : BinaryOperator) (s : State) (ids : Supply) :
    Meets (Short s 2) (Leads 2 1 s) (visitBinary operator s ids) := by
  refine (s.popMany_meets 2).bind ?_
  rintro ⟨u, operands⟩ ⟨hu, hlength⟩
  match operands, hlength with
  | [l, r], _ =>
    cases operator with
    | logic | equals | notEquals => exact leads_push hu _
    | relational lifted =>
      dsimp only
      split
      · exact leads_push hu _
      · exact leads_pushUnknown hu
    | arithmetic => exact leads_pushUnknown hu

theorem Undeclared.mono {ids ids' : List SymbolId} (hsub : ∀ id ∈ ids, id ∈ ids') {fault : Fault} :
    t.Undeclared ids fault → t.Undeclared ids' fault
  | ⟨id, hid, hfault⟩ => ⟨id, hsub id hid, hfault⟩

/-- Binding the variables of a pattern touches bindings only. -/
theorem bindDesignation_meets (t : Transfer) (s : State) (d : Designation) (v : Value)
    (ids : Supply) :
    Meets (t.Undeclared d.symbols) (fun r => s.BindingsOnly r.1)
      (t.bindDesignation s d v ids) := by
  cases d with
  | none | discard => exact ⟨rfl, rfl, rfl⟩
  | single id => exact (t.symbol_meets id).bind fun _ _ => ⟨rfl, rfl, rfl⟩
  | tuple symbols =>
    refine Meets.foldlM ?_ ⟨rfl, rfl, rfl⟩
    rintro id hid ⟨u, ids⟩ hu
    have hid : ∀ id' ∈ [id], id' ∈ symbols := by simpa using hid
    exact ((t.symbol_meets id).weaken fun _ h => h.mono hid).bind fun _ _ =>
      ⟨hu.stack, hu.facts, hu.visits⟩

theorem visitIsPattern_meets (t : Transfer) (pattern : Pattern) (s : State) (ids : Supply) :
    Meets (t.Cause pattern.designatedSymbols s 1) (Leads 1 1 s)
      (t.visitIsPattern pattern s ids) := by
  refine (s.pop_meets.weaken fun _ => .inr).bind ?_
  rintro ⟨u, operand⟩ hu
  have hbind : ∀ designation v w, designation.symbols = pattern.designatedSymbols →
      Meets (t.Cause pattern.designatedSymbols s 1) (Leads 1 1 s)
        (t.bindDesignation u designation v ids >>= fun r => return some (r.1.push w, r.2)) := by
    intro designation v w hsymbols
    refine ((t.bindDesignation_meets u designation v ids).weaken fun _ h =>
      .inl (hsymbols ▸ h)).bind ?_
    rintro ⟨u', ids'⟩ hbound
    exact leads_push (State.Exchanges.congr hu hbound.stack hbound.visits) w
  cases pattern with
  | null | discard => exact leads_push hu _
  | type type designation =>
    dsimp only
    split
    · exact leads_push hu _
    · exact hbind designation operand _ rfl
  | var designation => exact hbind designation operand _ rfl
  | constant => exact leads_pushUnknown hu

/-! ### Calls -/

theorem factsOnly_of_validate {arguments : List Value} {positions : List Nat}
    (h : t.validate arguments positions s = some u) : s.FactsOnly u := by
  induction positions generalizing s with
  | nil =>
    obtain rfl := Option.some.inj h
    exact .refl s
  | cons position rest ih =>
    unfold validate at h
    split at h
    · obtain ⟨w, hnarrow, hrest⟩ := Option.bind_eq_some_iff.1 h
      exact (factsOnly_of_narrow? hnarrow).trans (ih hrest)
    · exact ih h

theorem visitInvocation_meets (t : Transfer) (method : Method) (argCount : Nat) (s : State)
    (ids : Supply) :
    Meets (Short s (argCount + 1)) (Leads (argCount + 1) 1 s)
      (t.visitInvocation method argCount s ids) := by
  refine ((s.popMany_meets argCount).weaken ?_).bind ?_
  · rintro fault ⟨depth, hdepth, rfl, hshort⟩
    exact ⟨depth, by omega, rfl, by omega⟩
  rintro ⟨u, arguments⟩ ⟨hu, -⟩
  refine (u.pop_meets.weaken ?_).bind ?_
  · rintro fault ⟨depth, hdepth, rfl, hshort⟩
    have hlength : u.stack.length + argCount = s.stack.length := hu.length
    exact ⟨depth, by omega, rfl, by omega⟩
  rintro ⟨w, group⟩ hw
  have hw := hu.trans hw
  have hfinish : ∀ w' v ids, w.FactsOnly w' → Leads (argCount + 1) 1 s (some
      ((if method.keepsFields then w' else t.clearFields w').push v, ids)) := by
    intro w' v ids hw'
    refine leads_push ?_ v
    split
    · exact hw.factsOnly hw'
    · exact (hw.factsOnly hw').congr rfl rfl
  dsimp only
  split
  · exact leads_none hw
  · next w' hvalid =>
    have hw' := factsOnly_of_validate hvalid
    split
    · exact hfinish w' _ _ hw'
    · cases hnarrow : t.narrowToType w' ids.fresh.1 method.returnType with
      | none => exact leads_none hw
      | some w'' => exact hfinish w'' _ _ (hw'.trans (factsOnly_of_narrowToType hnarrow))

/-! ### All instructions -/

theorem visitLiteral_leads (t : Transfer) (l : Literal) (s : State) (ids : Supply) :
    Leads 0 1 s (t.visitLiteral l s ids) := by
  cases l with
  | boolean | null => exact leads_push (.refl s) _
  | string | numeric | char => exact leads_pushKnown (.refl s) _

/-- An instruction exchanges the values that it takes for as many as its stack effect says it
pushes. It fails only if it refers to a symbol that is not declared, or if there are not enough
operands. -/
theorem visit_meets (t : Transfer) {i : Instruction} {effect : StackEffect}
    (heffect : i.stackEffect = some effect) (s : State) (ids : Supply) :
    Meets (t.Cause i.symbols s i.taken) (Leads i.taken effect.pushes s) (t.visit i s ids) := by
  have hpop : ∀ {β : Type} {symbols : List SymbolId} {Q : β → Prop}
      {f : State × Value → Except Fault β},
      (∀ u v, s.Exchanges 1 0 u → Meets (t.Cause symbols s 1) Q (f (u, v))) →
      Meets (t.Cause symbols s 1) Q (s.pop >>= f) := fun hf =>
    (s.pop_meets.weaken fun _ => .inr).bind fun r hr => hf r.1 r.2 hr
  have hpopMany : ∀ {β : Type} {symbols : List SymbolId} {count : Nat} {Q : β → Prop}
      {f : State × List Value → Except Fault β},
      (∀ u vs, s.Exchanges count 0 u → Meets (t.Cause symbols s count) Q (f (u, vs))) →
      Meets (t.Cause symbols s count) Q (s.popMany count >>= f) := fun hf =>
    ((s.popMany_meets _).weaken fun _ => .inr).bind fun r hr => hf r.1 r.2 hr.1
  cases i with
  | literal l =>
    cases heffect
    exact t.visitLiteral_leads l s ids
  | self | base =>
    cases heffect
    exact leads_push (.refl s) _
  | read id byReference =>
    cases heffect
    exact (t.visitRead_meets id byReference s ids).weaken fun _ => .inl
  | declaration id initialized =>
    cases heffect
    refine ((t.symbol_meets id).weaken fun _ => .inl).bind fun _ _ => ?_
    cases initialized with
    | true => exact hpop fun u v hu => leads_some (hu.congr rfl rfl)
    | false => exact leads_some ((State.Exchanges.refl s).congr rfl rfl)
  | memberAccess id access =>
    cases heffect
    exact t.visitMember_meets id access s ids
  | methodGroup name access =>
    cases heffect
    refine ((popReceiver_meets access s).weaken fun _ => .inr).bind ?_
    rintro ⟨u, receiver⟩ hu
    cases receiver with
    | some receiver => exact leads_push hu _
    | none => exact leads_pushUnknown hu
  | invocation method argCount =>
    cases heffect
    exact (t.visitInvocation_meets method argCount s ids).weaken fun _ => .inr
  | assignment target kind =>
    cases heffect
    have hsymbols : targetSymbols target = (Instruction.assignment target kind).symbols := by
      cases target <;> rfl
    exact hsymbols ▸ t.visitAssignment_meets target kind s ids
  | binary operator =>
    cases heffect
    exact (visitBinary_meets operator s ids).weaken fun _ => .inr
  | unary operator =>
    cases heffect
    refine hpop fun u v hu => ?_
    cases operator with
    | not => exact leads_push hu _
    | other => exact leads_pushUnknown hu
  | cast kind =>
    -- the operand stays where it is, which exchanges it for itself
    cases heffect
    have htaken : (Instruction.cast kind).taken = 1 := rfl
    rw [htaken]
    unfold visit State.peek
    cases hs : s.stack with
    | nil => exact .inr ⟨0, Nat.one_pos, rfl, by simp [hs]⟩
    | cons v rest =>
      exact leads_some ⟨by simp [hs], ⟨[v], rfl, by simp [hs]⟩, rfl⟩
  | asType type =>
    cases heffect
    refine hpop fun u v hu => ?_
    dsimp only
    split
    · exact leads_push hu _
    · exact leads_pushUnknown hu
  | isType type =>
    cases heffect
    exact hpop fun u v hu => leads_push hu _
  | isPattern pattern =>
    cases heffect
    exact t.visitIsPattern_meets pattern s ids
  | objectCreation type argCount =>
    cases heffect
    exact hpopMany fun u vs hu => leads_pushKnown hu _
  | arrayCreation count | anonymousObjectCreation count | tuple count =>
    cases heffect
    exact hpopMany fun u vs hu => leads_pushKnown hu _
  | elementAccess argCount =>
    cases heffect
    exact hpopMany fun u vs hu => leads_pushUnknown hu
  | await =>
    cases heffect
    exact hpop fun u v hu => leads_pushUnknown (hu.congr rfl rfl)
  | defaultValue type =>
    cases heffect
    unfold visit
    dsimp only
    split
    · exact leads_push (.refl s) _
    · exact leads_pushKnown (.refl s) _
  | nameOf | lambda =>
    cases heffect
    exact leads_pushKnown (.refl s) _
  | discard =>
    cases heffect
    exact hpop fun u v hu => leads_some hu
  | unsupported kind => cases heffect

/-- An instruction that leads to a state has a stack effect. On a stack whose values can be counted,
this is what it did. -/
theorem exchanges_of_visit {i : Instruction} {ids' : Supply}
    (h : t.visit i s ids = .ok (some (u, ids'))) :
    ∃ effect, i.stackEffect = some effect ∧ s.Exchanges i.taken effect.pushes u ∧
      (s.stack.length < UInt64.size → i.taken = effect.pops) := by
  cases heffect : i.stackEffect with
  | none =>
    obtain ⟨kind, rfl⟩ := Instruction.stackEffect_eq_none_iff.1 heffect
    cases h
  | some effect =>
    have hmeets := t.visit_meets heffect s ids
    rw [h] at hmeets
    obtain ⟨henough, hexchanges⟩ := hmeets
    exact ⟨effect, rfl, hexchanges u ids' rfl, fun hsize =>
      Instruction.taken_eq_pops heffect (Nat.lt_of_le_of_lt henough hsize)⟩

end Transfer

end Pathwise
