import Pathwise.Proofs.Transfer.Effect

/-!
What an instruction may do to a state. However an instruction changes a state, it does so in a few
ways, one after the other: it changes the stack, records facts, binds and unbinds the symbols that
it refers to, and forgets fields if other code is run; an assignment may forget what is known of a
member. That a lock is held is not among the facts that it records.

A property that outlives each of these outlives the instruction. `Transfer.visit_keeps` says so for
all instructions at once, and whatever an instruction leaves alone is read off it.
-/

namespace Pathwise

/-- Does the instruction run other code, which may write to fields? -/
def Instruction.clearsFields : Instruction → Bool
  | .await => true
  | .invocation method _ => !method.keepsFields
  | _ => false

namespace Transfer

/-! ### Outcomes that are states -/

section

variable {u : State} {ids : Supply} {P : State → Prop}

/-- If the outcome of an instruction is a state, it is as described. -/
def Yields (P : State → Prop) (r : Transition) : Prop := ∀ u ids, r = .ok (some (u, ids)) → P u

theorem yields_bind {α : Type} {x : Except Fault α} {f : α → Transition}
    (h : ∀ a, x = .ok a → Yields P (f a)) : Yields P (x >>= f) := by
  cases x with
  | ok a => exact h a rfl
  | error fault => exact fun _ _ heq => by cases heq

theorem yields_some (h : P u) : Yields P (.ok (some (u, ids))) := by
  intro u' ids' heq
  cases heq
  exact h

theorem yields_none : Yields P (.ok none) := fun _ _ heq => by cases heq

theorem yields_error {fault : Fault} : Yields P (.error fault) := fun _ _ heq => by cases heq

theorem yields_map {narrowed : Option State} {f : State → State × Supply}
    (h : ∀ w, narrowed = some w → P (f w).1) : Yields P (.ok (narrowed.map f)) := by
  cases narrowed with
  | none => exact yields_none
  | some w => exact yields_some (h w rfl)

end

theorem get?_of_symbol {t : Transfer} {id : SymbolId} {symbol : Symbol}
    (h : t.symbol id = .ok symbol) : t.symbols.get? id = some symbol := by
  unfold Transfer.symbol at h
  split at h
  · next hget =>
    cases h
    exact hget
  · cases h

/-- Binding the variables of a pattern binds declared symbols. -/
theorem bindDesignation_keeps {t : Transfer} {P : State → Prop} {s : State} {d : Designation}
    (hassign : ∀ {s : State} {id : SymbolId} {symbol : Symbol} (v : Value), id ∈ d.symbols →
      t.symbols.get? id = some symbol → P s → P (s.assign id v))
    (hs : P s) (v : Value) (ids : Supply) :
    Meets (fun _ => True) (fun r => P r.1) (t.bindDesignation s d v ids) := by
  have hbind : ∀ {s : State} {id : SymbolId} (v : Value) (ids : Supply), id ∈ d.symbols → P s →
      Meets (fun _ => True) (fun r => P r.1)
        (t.symbol id >>= fun _ => (.ok (s.assign id v, ids) : Except Fault (State × Supply))) := by
    intro s id v ids hid hs
    cases hsymbol : t.symbol id with
    | error fault => exact trivial
    | ok symbol => exact hassign v hid (get?_of_symbol hsymbol) hs
  cases d with
  | none | discard => exact hs
  | single id => exact hbind v ids (List.mem_singleton.2 rfl) hs
  | tuple symbols =>
    refine Meets.foldlM ?_ hs
    rintro id hid ⟨s, ids⟩ hs
    exact hbind _ _ hid hs

/-! ### The ways in which a state may change -/

/-- The property outlives each of the ways in which the instruction may change a state. -/
structure Outlives (t : Transfer) (i : Instruction) (P : State → Prop) : Prop where
  restack : ∀ {s : State} (stack : List Value), P s → P { s with stack }
  record : ∀ {s u : State} {v : Value} {c : Constraint}, c ≠ .held → s.record? v c = some u →
    P s → P u
  assign : ∀ {s : State} {id : SymbolId} {symbol : Symbol} (v : Value), id ∈ i.symbols →
    t.symbols.get? id = some symbol → P s → P (s.assign id v)
  unbind : ∀ {s : State} {id : SymbolId}, id ∈ i.symbols → P s → P (s.unbind id)
  clearFields : ∀ {s : State}, i.clearsFields → P s → P (t.clearFields s)
  forget : ∀ {s : State} {target : AssignmentTarget} {kind : AssignmentKind},
    i = .assignment target kind → ∀ (receiver : Value) (id : SymbolId), P s →
    P (s.forget (.member receiver id))

namespace Outlives

variable {t : Transfer} {i : Instruction} {P : State → Prop} {s u w : State} {v : Value}
  {ids ids' : Supply}

theorem push (hP : t.Outlives i P) (hs : P s) (v : Value) : P (s.push v) := hP.restack _ hs

theorem pop (hP : t.Outlives i P) (hs : P s) (hpop : s.pop = .ok (u, v)) : P u := by
  rw [State.eq_of_pop hpop]
  exact hP.restack _ hs

theorem popMany (hP : t.Outlives i P) (hs : P s) {count : Nat} {vs : List Value}
    (hpop : s.popMany count = .ok (u, vs)) : P u := by
  unfold State.popMany at hpop
  split at hpop
  · cases hpop
  · cases hpop
    exact hP.restack _ hs

theorem popReceiver (hP : t.Outlives i P) (hs : P s) {access : Access} {receiver : Option Value}
    (hpop : popReceiver access s = .ok (u, receiver)) : P u := by
  cases access with
  | static =>
    cases hpop
    exact hs
  | receiver =>
    cases hs' : s.pop with
    | error fault =>
      rw [Transfer.popReceiver, hs'] at hpop
      cases hpop
    | ok r =>
      rw [Transfer.popReceiver, hs'] at hpop
      cases hpop
      exact hP.pop hs hs'

/-- Assuming a fact records it and facts that follow from it. -/
theorem narrow (hP : t.Outlives i P) (hs : P s) {c : Constraint} (hc : c ≠ .held)
    (hnarrow : t.solver.narrow? s v c = some u) : P u :=
  Solver.keeps_of_mem_assume (fun hheld => hP.record fun hd => hc (hheld hd)) hs
    (List.mem_of_mem_head? hnarrow)

theorem narrowToType (hP : t.Outlives i P) (hs : P s) {type : TypeInfo}
    (hnarrow : t.narrowToType s v type = some u) : P u := by
  unfold Transfer.narrowToType at hnarrow
  split at hnarrow
  · exact hP.narrow hs (by simp) hnarrow
  · obtain rfl := Option.some.inj hnarrow
    exact hs

theorem validate (hP : t.Outlives i P) (hs : P s) {arguments : List Value} {positions : List Nat}
    (hvalid : t.validate arguments positions s = some u) : P u := by
  induction positions generalizing s with
  | nil =>
    obtain rfl := Option.some.inj hvalid
    exact hs
  | cons position rest ih =>
    unfold Transfer.validate at hvalid
    split at hvalid
    · obtain ⟨w, hnarrow, hrest⟩ := Option.bind_eq_some_iff.1 hvalid
      exact ih (hP.narrow hs (by simp) hnarrow) hrest
    · exact ih hs hvalid

theorem bindDesignation (hP : t.Outlives i P) (hs : P s) {d : Designation}
    (hd : ∀ id ∈ d.symbols, id ∈ i.symbols)
    (hbind : t.bindDesignation s d v ids = .ok (u, ids')) : P u := by
  have hmeets := bindDesignation_keeps (fun v hid => hP.assign v (hd _ hid)) hs v ids
  rw [hbind] at hmeets
  exact hmeets

theorem popTarget (hP : t.Outlives i P) (hs : P s) {target : AssignmentTarget}
    {kind : AssignmentKind} {receiver : Option Value}
    (hpop : popTarget target kind s = .ok (u, receiver)) : P u := by
  unfold Transfer.popTarget at hpop
  split at hpop
  · cases hpop
    exact hs
  · exact hP.popReceiver hs hpop
  · next argCount _ =>
    cases hmany : s.popMany (nextCount argCount) with
    | error fault =>
      rw [hmany] at hpop
      cases hpop
    | ok r =>
      rw [hmany] at hpop
      cases hpop
      exact hP.popMany hs hmany
  · cases hpop
    exact hs

/-- Storing a value binds the target, unbinds it, or forgets it. -/
theorem store {target : AssignmentTarget} {kind : AssignmentKind}
    (hP : t.Outlives (.assignment target kind) P) (hs : P s) {receiver : Option Value}
    (hstore : t.store target receiver v s = .ok u) : P u := by
  cases target with
  | symbol id =>
    cases hid : t.symbol id with
    | error fault =>
      rw [Transfer.store, hid] at hstore
      cases hstore
    | ok symbol =>
      rw [Transfer.store, hid] at hstore
      cases hstore
      exact hP.assign v (List.mem_singleton.2 rfl) (get?_of_symbol hid) hs
  | member id access =>
    cases hid : t.symbol id with
    | error fault =>
      rw [Transfer.store, hid] at hstore
      cases hstore
    | ok symbol =>
      have hassign : P (s.assign id v) :=
        hP.assign v (List.mem_singleton.2 rfl) (get?_of_symbol hid) hs
      rw [Transfer.store, hid] at hstore
      dsimp only [bind, Except.bind] at hstore
      split at hstore
      · split at hstore
        · cases hstore
          exact hassign
        · cases hstore
          exact hP.forget rfl _ _ hs
      · split at hstore
        · cases hstore
          exact hassign
        · cases hstore
          exact hs
      · cases hstore
        exact hP.unbind (List.mem_singleton.2 rfl) hs
  | element | discard =>
    cases hstore
    exact hs

/-! ### Instructions, by kind -/

theorem yields_push (hP : t.Outlives i P) (hs : P s) (v : Value) :
    Yields P (.ok (some (s.push v, ids))) :=
  yields_some (hP.push hs v)

theorem yields_pushUnknown (hP : t.Outlives i P) (hs : P s) :
    Yields P (.ok (pushUnknown s ids)) :=
  hP.yields_push hs _

theorem yields_pushKnown (hP : t.Outlives i P) (hs : P s) {c : Constraint} (hc : c ≠ .held) :
    Yields P (.ok (t.pushKnown s ids c)) :=
  yields_map fun _ hw => hP.push (hP.narrow hs hc hw) _

theorem yields_narrowToType (hP : t.Outlives i P) (hs : P s) (v : Value) (type : TypeInfo) :
    Yields P (.ok ((t.narrowToType s v type).map fun s => (s.push v, ids))) :=
  yields_map fun _ hw => hP.push (hP.narrowToType hs hw) v

theorem yields_pop (hP : t.Outlives i P) (hs : P s) {f : State × Value → Transition}
    (hf : ∀ u v, P u → Yields P (f (u, v))) : Yields P (s.pop >>= f) :=
  yields_bind fun r hr => hf r.1 r.2 (hP.pop hs hr)

theorem yields_popMany (hP : t.Outlives i P) (hs : P s) {count : Nat}
    {f : State × List Value → Transition} (hf : ∀ u vs, P u → Yields P (f (u, vs))) :
    Yields P (s.popMany count >>= f) :=
  yields_bind fun r hr => hf r.1 r.2 (hP.popMany hs hr)

theorem visitRead {id : SymbolId} {byReference : Bool}
    (hP : t.Outlives (.read id byReference) P) (hs : P s) :
    Yields P (t.visitRead id byReference s ids) := by
  refine yields_bind fun symbol hsymbol => ?_
  split
  next u v ids' hread =>
    have hu : P u := by
      split at hread
      · obtain ⟨rfl, -⟩ := Prod.mk.inj hread
        exact hs
      · obtain ⟨rfl, -⟩ := Prod.mk.inj hread
        exact hP.assign _ (List.mem_singleton.2 rfl) (get?_of_symbol hsymbol) hs
    exact hP.yields_narrowToType hu v symbol.type

theorem visitMember {id : SymbolId} {access : Access}
    (hP : t.Outlives (.memberAccess id access) P) (hs : P s) :
    Yields P (t.visitMember id access s ids) := by
  refine yields_bind fun symbol hsymbol => yields_bind ?_
  rintro ⟨u, receiver⟩ hpop
  have hu : P u := hP.popReceiver hs hpop
  dsimp only
  split
  · exact hP.yields_narrowToType hu _ symbol.type
  · cases hnarrow : t.solver.narrow? u ids.fresh.1 .notNull with
    | none => exact yields_none
    | some w => exact hP.yields_narrowToType (hP.narrow hu (by simp) hnarrow) _ symbol.type
  · split
    · split
      · exact hP.yields_narrowToType hu _ symbol.type
      · have hbound : P (u.assign id ids.fresh.1) :=
          hP.assign _ (List.mem_singleton.2 rfl) (get?_of_symbol hsymbol) hu
        exact hP.yields_narrowToType hbound _ symbol.type
    · split
      · exact hP.yields_narrowToType hu _ symbol.type
      · exact hP.yields_narrowToType hu _ symbol.type

theorem visitAssignment {target : AssignmentTarget} {kind : AssignmentKind}
    (hP : t.Outlives (.assignment target kind) P) (hs : P s) :
    Yields P (t.visitAssignment target kind s ids) := by
  refine hP.yields_pop hs fun u operand hu => yields_bind ?_
  rintro ⟨w, receiver⟩ htarget
  have hw : P w := hP.popTarget hu htarget
  have hfinish : ∀ w' v ids, P w' → Yields P
      (do
        let s ← t.store target receiver v w'
        return some (s.push v, ids)) :=
    fun w' v ids hw' => yields_bind fun u' hstore => hP.yields_push (hP.store hw' hstore) v
  cases kind with
  | simple => exact hfinish w operand ids hw
  | compound | increment =>
    refine yields_bind fun type _ => ?_
    cases type with
    | none => exact hfinish w _ _ hw
    | some type =>
      dsimp only
      split
      · next w' hnarrow => exact hfinish w' _ _ (hP.narrowToType hw hnarrow)
      · exact yields_none

theorem visitIsPattern {pattern : Pattern} (hP : t.Outlives (.isPattern pattern) P) (hs : P s) :
    Yields P (t.visitIsPattern pattern s ids) := by
  refine hP.yields_pop hs fun u operand hu => ?_
  have hbind : ∀ designation v, designation.symbols = pattern.designatedSymbols → Yields P
      (t.bindDesignation u designation operand ids >>= fun r => return some (r.1.push v, r.2)) := by
    intro designation v hsymbols
    refine yields_bind ?_
    rintro ⟨u', ids'⟩ hbound
    have hdesignated : ∀ id ∈ designation.symbols, id ∈ pattern.designatedSymbols :=
      fun _ hid => hsymbols ▸ hid
    exact hP.yields_push (hP.bindDesignation hu hdesignated hbound) v
  cases pattern with
  | null | discard => exact hP.yields_push hu _
  | type type designation =>
    dsimp only
    split
    · exact hP.yields_push hu _
    · exact hbind designation _ rfl
  | var designation => exact hbind designation _ rfl
  | constant => exact hP.yields_pushUnknown hu

theorem visitInvocation {method : Method} {argCount : Nat}
    (hP : t.Outlives (.invocation method argCount) P) (hs : P s) :
    Yields P (t.visitInvocation method argCount s ids) := by
  refine hP.yields_popMany hs fun u arguments hu => hP.yields_pop hu fun w group hw => ?_
  have hfinish : ∀ w' v, P w' →
      P ((if method.keepsFields then w' else t.clearFields w').push v) := by
    intro w' v hw'
    refine hP.push ?_ v
    split
    · exact hw'
    · next hfields => exact hP.clearFields (by simpa [Instruction.clearsFields] using hfields) hw'
  dsimp only
  split
  · exact yields_none
  · next w' hvalid =>
    have hw' := hP.validate hw hvalid
    split
    · exact yields_some (hfinish w' _ hw')
    · exact yields_map fun w'' hw'' => hfinish w'' _ (hP.narrowToType hw' hw'')

end Outlives

/-! ### All instructions -/

/-- A property that outlives each of the ways in which an instruction may change a state outlives
the instruction. -/
theorem visit_keeps {t : Transfer} {i : Instruction} {P : State → Prop} (hP : t.Outlives i P)
    {s : State} (hs : P s) (ids : Supply) : Yields P (t.visit i s ids) := by
  cases i with
  | literal l =>
    cases l with
    | boolean | null => exact hP.yields_push hs _
    | string | numeric | char => exact hP.yields_pushKnown hs (by simp)
  | self | base => exact hP.yields_push hs _
  | read id byReference => exact hP.visitRead hs
  | declaration id initialized =>
    refine yields_bind fun symbol hsymbol => ?_
    have hid : id ∈ (Instruction.declaration id initialized).symbols := List.mem_singleton.2 rfl
    cases initialized with
    | true =>
      exact hP.yields_pop hs fun u v hu => yields_some (hP.assign v hid (get?_of_symbol hsymbol) hu)
    | false => exact yields_some (hP.unbind hid hs)
  | memberAccess id access => exact hP.visitMember hs
  | methodGroup name access =>
    refine yields_bind ?_
    rintro ⟨u, receiver⟩ hreceiver
    have hu : P u := hP.popReceiver hs hreceiver
    cases receiver with
    | some receiver => exact hP.yields_push hu _
    | none => exact hP.yields_pushUnknown hu
  | invocation method argCount => exact hP.visitInvocation hs
  | assignment target kind => exact hP.visitAssignment hs
  | binary operator =>
    refine hP.yields_popMany hs fun u operands hu => ?_
    rcases operands with _ | ⟨l, _ | ⟨r, _ | ⟨_, _⟩⟩⟩
    · exact yields_error
    · exact yields_error
    · cases operator with
      | logic | equals | notEquals => exact hP.yields_push hu _
      | relational lifted =>
        dsimp only
        split
        · exact hP.yields_push hu _
        · exact hP.yields_pushUnknown hu
      | arithmetic => exact hP.yields_pushUnknown hu
    · exact yields_error
  | unary operator =>
    refine hP.yields_pop hs fun u v hu => ?_
    cases operator with
    | not => exact hP.yields_push hu _
    | other => exact hP.yields_pushUnknown hu
  | cast kind => exact yields_bind fun _ _ => yields_some hs
  | asType type =>
    refine hP.yields_pop hs fun u v hu => ?_
    dsimp only
    split
    · exact hP.yields_push hu _
    · exact hP.yields_pushUnknown hu
  | isType type => exact hP.yields_pop hs fun u v hu => hP.yields_push hu _
  | isPattern pattern => exact hP.visitIsPattern hs
  | objectCreation type argCount =>
    refine hP.yields_popMany hs fun u vs hu => hP.yields_pushKnown hu ?_
    split <;> simp
  | arrayCreation count | anonymousObjectCreation count | tuple count =>
    exact hP.yields_popMany hs fun u vs hu => hP.yields_pushKnown hu (by simp)
  | lambda | nameOf => exact hP.yields_pushKnown hs (by simp)
  | elementAccess argCount => exact hP.yields_popMany hs fun u vs hu => hP.yields_pushUnknown hu
  | await =>
    exact hP.yields_pop hs fun u v hu => hP.yields_pushUnknown (hP.clearFields rfl hu)
  | defaultValue type =>
    unfold visit
    dsimp only
    split
    · exact hP.yields_push hs _
    · exact hP.yields_pushKnown hs (by simp)
  | discard => exact hP.yields_pop hs fun u v hu => yields_some hu
  | unsupported kind => exact yields_error

end Transfer

end Pathwise
