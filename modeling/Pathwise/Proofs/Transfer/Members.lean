import Pathwise.Proofs.Transfer.Facts

/-!
Assignments to members that cannot be tracked by name. Such a member is the composite of its
receiver and its symbol, so reading it after an assignment gives the same value as before, though
its content is new. The assignment makes void what is known of the member itself. It does not look
at values that were computed from the old content, such as the outcome of a test: what is known of
these is exactly what was known before, and it is taken for true of the new content when the test is
made again.

So the old content is forgotten exactly if nothing was known of a value that was computed from it.
-/

namespace Pathwise

/-- Of a value nothing is known any more, but of all values that were computed from it the same is
known as before. -/
structure State.ForgetsOnly (v : Value) (s u : State) : Prop where
  forgotten : u.factsOf v = .nothing
  kept : ∀ w : Value, v ∈ w.parts → w ≠ v → u.factsOf w = s.factsOf w

/-- Then nothing is known of the value and of all that was computed from it exactly if nothing was
known of the latter before. -/
theorem State.ForgetsOnly.nothing_iff {v : Value} {s u : State} (h : s.ForgetsOnly v u) :
    (∀ w : Value, v ∈ w.parts → u.factsOf w = .nothing) ↔
      ∀ w : Value, v ∈ w.parts → w ≠ v → s.factsOf w = .nothing := by
  constructor
  · intro hnothing w hw hne
    rw [← h.kept w hw hne]
    exact hnothing w hw
  · intro hnothing w hw
    by_cases hne : w = v
    · rw [hne, h.forgotten]
    · rw [h.kept w hw hne, hnothing w hw hne]

namespace Transfer

variable {t : Transfer} {s u : State} {ids : Supply} {receiver operand : Value} {rest : List Value}
  {id : SymbolId} {symbol : Symbol}

/-- Learning that an unknown is of a value type says nothing about other values. -/
theorem factsOf_narrowToType_unknown {n : Identity} {type : TypeInfo}
    (h : t.narrowToType s (.unknown n) type = some u) {w : Value} (hw : w ≠ .unknown n) :
    u.factsOf w = s.factsOf w := by
  unfold narrowToType at h
  split at h
  · refine (Solver.narrows_of_narrow? h).factsOf_eq ?_
    rintro c (⟨rfl, -⟩ | ⟨hpart, -⟩)
    · exact hw rfl
    · exact hw (List.mem_singleton.1 hpart)
  · obtain rfl := Option.some.inj h
    rfl

/-- The state after the assigned value and the receiver were taken, the member was forgotten and the
result was pushed. -/
def overwrite (s : State) (rest : List Value) (receiver : Value) (id : SymbolId) (result : Value) :
    State :=
  ({ s with stack := rest }.forget (.member receiver id)).push result

theorem factsOf_overwrite (s : State) (rest : List Value) (receiver : Value) (id : SymbolId)
    (result w : Value) :
    (overwrite s rest receiver id result).factsOf w =
      if .member receiver id = w then .nothing else s.factsOf w :=
  State.factsOf_forget _ _ w

theorem visit_assign_member (hstack : s.stack = operand :: receiver :: rest)
    (hsymbol : t.symbols.get? id = some symbol)
    (hmember : symbol.isBindableMember (receiver == .self) = false) :
    t.visit (.assignment (.member id .receiver) .simple) s ids =
      .ok (some (overwrite s rest receiver id operand, ids)) := by
  have hget : t.symbol id = .ok symbol := by rw [Transfer.symbol, hsymbol]
  simp only [visit, visitAssignment, State.pop, hstack, popTarget, popReceiver, store, hget,
    hmember, bind, Except.bind, pure, Except.pure]
  rfl

theorem visit_combine_member (hstack : s.stack = operand :: receiver :: rest)
    (hsymbol : t.symbols.get? id = some symbol)
    (hmember : symbol.isBindableMember (receiver == .self) = false) :
    t.visit (.assignment (.member id .receiver) .compound) s ids =
      .ok ((t.narrowToType { s with stack := rest } ids.fresh.1 symbol.type).map fun w =>
        (overwrite w rest receiver id ids.fresh.1, ids.fresh.2)) := by
  have hget : t.symbol id = .ok symbol := by rw [Transfer.symbol, hsymbol]
  simp only [visit, visitAssignment, State.pop, hstack, popTarget, popReceiver, store, hget,
    hmember, targetType, bind, Except.bind, pure, Except.pure]
  cases hnarrow : t.narrowToType { s with stack := rest } ids.fresh.1 symbol.type with
  | none => simp
  | some w =>
    have hwstack : w.stack = rest := (factsOnly_of_narrowToType hnarrow).stack
    simp [overwrite, ← hwstack]

/-- An assignment to a member that cannot be tracked by name does not fail. Of the member nothing is
known afterwards. Of every value that was computed from it the same is known as before, so nothing
is known of all these values exactly if nothing was known of them before. -/
theorem visit_forgets_member {kind : AssignmentKind} (hkind : kind ≠ .increment)
    (hstack : s.stack = operand :: receiver :: rest) (hsymbol : t.symbols.get? id = some symbol)
    (hmember : symbol.isBindableMember (receiver == .self) = false) (ids : Supply) :
    ∃ r, t.visit (.assignment (.member id .receiver) kind) s ids = .ok r ∧
      (kind = .simple → r.isSome) ∧
      ∀ u ids', r = some (u, ids') →
        s.ForgetsOnly (.member receiver id) u ∧
        ((∀ w : Value, .member receiver id ∈ w.parts → u.factsOf w = .nothing) ↔
          ∀ w : Value, .member receiver id ∈ w.parts → w ≠ .member receiver id →
            s.factsOf w = .nothing) := by
  cases kind with
  | increment => exact absurd rfl hkind
  | simple =>
    refine ⟨_, visit_assign_member hstack hsymbol hmember, fun _ => rfl, ?_⟩
    rintro u ids' ⟨⟩
    have hforgets : s.ForgetsOnly (.member receiver id) (overwrite s rest receiver id operand) :=
      ⟨by rw [factsOf_overwrite, if_pos rfl],
        fun w _ hne => by rw [factsOf_overwrite, if_neg hne.symm]⟩
    exact ⟨hforgets, hforgets.nothing_iff⟩
  | compound =>
    refine ⟨_, visit_combine_member hstack hsymbol hmember, nofun, ?_⟩
    intro u ids' hu
    obtain ⟨x, hnarrow, heq⟩ := Option.map_eq_some_iff.1 hu
    obtain ⟨rfl, -⟩ := Prod.mk.inj heq
    have hforgets : s.ForgetsOnly (.member receiver id)
        (overwrite x rest receiver id ids.fresh.1) := by
      refine ⟨by rw [factsOf_overwrite, if_pos rfl], fun w hw hne => ?_⟩
      -- the result is an unknown, which was not computed from anything
      have hunknown : w ≠ ids.fresh.1 := by
        rintro rfl
        simp [Supply.fresh, Value.parts] at hw
      rw [factsOf_overwrite, if_neg hne.symm]
      exact factsOf_narrowToType_unknown hnarrow hunknown
    exact ⟨hforgets, hforgets.nothing_iff⟩

end Transfer

/-- A field of some other object. -/
def linkSymbols : SymbolTable :=
  ⟨[⟨"next", .field false false, ⟨"T", .reference, false, false⟩, false⟩]⟩

/-- The test whether `o.next` is null. -/
def linkTest : Value := .equal .reference (.member (.unknown 0) ⟨0⟩) .null

/-- The current instance is about to be assigned to `o.next`, and `o` waits to be used once more. -/
def linking : State := { State.initial with stack := [.self, .unknown 0, .unknown 0] }

/-- As before, with `o.next` known to be null without a test. -/
def linkingToNull : State :=
  { linking with
    facts := linking.facts.insert (.member (.unknown 0) ⟨0⟩)
      { Facts.nothing with object := some .null } }

/-- As before, after `o.next` was found to be null. -/
def linkingNull : State :=
  { linking with
    facts := (linking.facts.insert linkTest
      { Facts.nothing with object := some .notNull, bool := some true }).insert
      (.member (.unknown 0) ⟨0⟩) { Facts.nothing with object := some .null } }

/-- If `o.next` is known to be null, but nothing is known of values that were computed from it, it
is forgotten by the assignment, and still nothing is known of those. -/
theorem Transfer.visit_forgets_member_linking :
    let t : Transfer := ⟨linkSymbols, .ofLimit 16⟩
    let i : Instruction := .assignment (.member ⟨0⟩ .receiver) .simple
    linkingToNull.has (.member (.unknown 0) ⟨0⟩) .null ∧
    ∃ u ids, t.visit i linkingToNull .odd = .ok (some (u, ids)) ∧
      ∀ w : Value, .member (.unknown 0) ⟨0⟩ ∈ w.parts → u.factsOf w = .nothing := by
  intro t i
  have hstack : linkingToNull.stack = .self :: .unknown 0 :: [.unknown 0] := rfl
  have hsymbol : t.symbols.get? ⟨0⟩ =
      some ⟨"next", .field false false, ⟨"T", .reference, false, false⟩, false⟩ := rfl
  have hsimple : AssignmentKind.simple ≠ .increment := by decide
  obtain ⟨r, hvisit, hsome, hforgets⟩ :=
    Transfer.visit_forgets_member hsimple hstack hsymbol rfl .odd
  obtain ⟨⟨u, ids⟩, rfl⟩ := Option.isSome_iff_exists.1 (hsome rfl)
  refine ⟨rfl, u, ids, hvisit, (hforgets u ids rfl).2.2 fun w hw hne => ?_⟩
  have hrecord : linking.record? (.member (.unknown 0) ⟨0⟩) .null = some linkingToNull := rfl
  have hfacts := State.factsOf_record? hrecord w
  rw [if_neg hne.symm] at hfacts
  rw [Option.some.inj hfacts]
  cases w with
  | constant c => simp [Value.parts] at hw
  | _ => exact State.factsOf_initial _

/-- If `o.next` was found to be null, this outcome of the test outlives the assignment. Read again
and tested again, `o.next` is null beyond doubt, although it now is the current instance. -/
theorem Transfer.visit_keeps_old_test :
    let t : Transfer := ⟨linkSymbols, .ofLimit 16⟩
    t.solver.assume linking linkTest (.bool true) = [linkingNull] ∧
    ∃ u, t.visit (.assignment (.member ⟨0⟩ .receiver) .simple) linkingNull .odd =
        .ok (some (u, .odd)) ∧
      Value.member (.unknown 0) ⟨0⟩ ∈ linkTest.parts ∧ u.has linkTest (.bool true) ∧
      ∃ w₁ w₂ w₃ w₄, t.visit .discard u .odd = .ok (some (w₁, .odd)) ∧
        t.visit (.memberAccess ⟨0⟩ .receiver) w₁ .odd = .ok (some (w₂, .odd)) ∧
        t.visit (.literal .null) w₂ .odd = .ok (some (w₃, .odd)) ∧
        t.visit (.binary (.equals .reference)) w₃ .odd = .ok (some (w₄, .odd)) ∧
        w₄.stack = [linkTest] ∧ t.solver.assume w₄ linkTest (.bool false) = [] := by
  exact ⟨rfl, _, rfl, by decide, rfl, _, _, _, _, rfl, rfl, rfl, rfl, rfl, rfl⟩

end Pathwise
