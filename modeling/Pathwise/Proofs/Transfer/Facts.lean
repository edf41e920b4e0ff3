import Pathwise.Proofs.Transfer.Changes

/-!
What instructions do to facts. An instruction may assume facts about values, and otherwise leaves
them alone, with one exception: an assignment to a member that cannot be tracked by name makes
everything known about the member void. No instruction assumes that a lock is held.

`Transfer.visit_revises` says so for all instructions. What becomes of some particular fact is read
off it.
-/

namespace Pathwise

/-- The facts of the second state are those of the first, with others that were assumed. None of
these is that a lock is held. -/
inductive State.Assumes : State → State → Prop where
  | same {s t : State} (h : t.facts = s.facts) : Assumes s t
  | record {s t u w : State} {v : Value} {c : Constraint} (h : Assumes s t) (hc : c ≠ .held)
      (hu : t.record? v c = some u) (hw : w.facts = u.facts) : Assumes s w

theorem State.has_congr {s t : State} (h : t.facts = s.facts) (v : Value) (c : Constraint) :
    t.has v c = s.has v c := by
  rw [has, has, factsOf, factsOf, h]

namespace State.Assumes

variable {s t u : State} {v : Value} {c : Constraint}

theorem refl (s : State) : s.Assumes s := .same rfl

theorem congr (h : s.Assumes t) (hfacts : u.facts = t.facts) : s.Assumes u := by
  cases h with
  | same h => exact .same (hfacts.trans h)
  | record h hc hu hw => exact .record h hc hu (hfacts.trans hw)

theorem trans (h : s.Assumes t) (h' : t.Assumes u) : s.Assumes u := by
  induction h' with
  | same hfacts => exact h.congr hfacts
  | record _ hc hu hw ih => exact .record ih hc hu hw

theorem of_narrows {about : Value → Constraint → Prop} (h : s.Narrows about t)
    (habout : ∀ v c, about v c → c ≠ .held) : s.Assumes t := by
  induction h with
  | refl => exact .refl _
  | record _ hv hu ih => exact .record ih (habout _ _ hv) hu rfl

theorem of_mem_assume {solver : Solver} (hc : c ≠ .held)
    (h : t ∈ solver.assume s v c) : s.Assumes t := by
  refine .of_narrows (Solver.narrows_of_mem_assume h) ?_
  rintro w c' (⟨-, rfl⟩ | ⟨-, hc'⟩)
  · exact hc
  · exact hc'

theorem narrow {solver : Solver} (h : s.Assumes t) (hc : c ≠ .held)
    (hnarrow : solver.narrow? t v c = some u) : s.Assumes u :=
  h.trans (.of_mem_assume hc (List.mem_of_mem_head? hnarrow))

/-- What is known stays known. -/
theorem has (h : s.Assumes t) (hv : s.has v c) : t.has v c := by
  induction h with
  | same hfacts => rwa [has_congr hfacts]
  | record _ _ hu hw ih =>
    rw [has_congr hw]
    exact has_of_record? hu ih

end State.Assumes

/-- Facts were assumed, and then what was known about one value was made void. -/
def State.Revises (lost : Option Value) (s u : State) : Prop :=
  ∃ w : State, s.Assumes w ∧ u.facts = (lost.elim w w.forget).facts

namespace State.Revises

variable {lost : Option Value} {s t u : State}

theorem of_assumes (h : s.Assumes u) : s.Revises none u := ⟨u, h, rfl⟩

theorem congr (h : s.Revises lost t) (hfacts : u.facts = t.facts) : s.Revises lost u := by
  obtain ⟨w, hw, ht⟩ := h
  exact ⟨w, hw, hfacts.trans ht⟩

/-- What is known of other values than the one whose facts were made void stays known. -/
theorem has {v : Value} {c : Constraint} (h : s.Revises lost t) (hlost : lost ≠ some v)
    (hv : s.has v c) : t.has v c := by
  obtain ⟨w, hw, hfacts⟩ := h
  rw [has_congr hfacts]
  cases lost with
  | none => exact hw.has hv
  | some x =>
    have hx : x ≠ v := fun heq => hlost (congrArg some heq)
    rw [Option.elim_some, State.has, factsOf_forget, if_neg hx]
    exact hw.has hv

theorem factsOf_lost {v : Value} (h : s.Revises (some v) t) : t.factsOf v = .nothing := by
  obtain ⟨w, -, hfacts⟩ := h
  rw [factsOf, hfacts]
  exact (factsOf_forget w v v).trans (if_pos rfl)

end State.Revises

/-! ### Operands -/

/-- The member that an assignment makes void: one that is reached through a receiver and cannot be
tracked by name. -/
def Instruction.overwritten? (symbols : SymbolTable) (i : Instruction) (s : State) :
    Option Value :=
  match i with
  | .assignment (.member id .receiver) kind =>
    if kind = .increment then none
    else
      match s.stack[1]?, symbols.get? id with
      | some receiver, some symbol =>
        if symbol.isBindableMember (receiver == .self) then none else some (.member receiver id)
      | _, _ => none
  | _ => none

/-- Operands are on the stack. -/
theorem Instruction.overwritten?_congr {s t : State} (h : t.stack = s.stack) (symbols : SymbolTable)
    (i : Instruction) : i.overwritten? symbols t = i.overwritten? symbols s := by
  cases i with
  | assignment target kind =>
    rcases target with id | ⟨id, access⟩ | argCount | _
    · rfl
    · cases access with
      | receiver => simp only [overwritten?, h]
      | static => rfl
    · rfl
    · rfl
  | _ => rfl

theorem State.facts_of_pop {s u : State} {v : Value} (h : s.pop = .ok (u, v)) :
    u.facts = s.facts := by
  unfold pop at h
  split at h
  · cases h
    rfl
  · cases h

theorem State.facts_of_popMany {s u : State} {count : Nat} {vs : List Value}
    (h : s.popMany count = .ok (u, vs)) : u.facts = s.facts := by
  unfold popMany at h
  split at h
  · cases h
  · cases h
    rfl

namespace Transfer

variable {t : Transfer} {s u w : State} {ids ids' : Supply} {v : Value} {lost : Option Value}

/-- What storing a value makes void. -/
def lostBy (t : Transfer) (target : AssignmentTarget) (receiver : Option Value) : Option Value :=
  match target, receiver with
  | .member id _, some receiver => (t.symbols.get? id).bind fun symbol =>
    if symbol.isBindableMember (receiver == .self) then none else some (.member receiver id)
  | _, _ => none

/-- The receiver of the target of an assignment is the one that the stack shows. -/
theorem popTarget_eq_ok {target : AssignmentTarget} {kind : AssignmentKind} {operand : Value}
    {receiver : Option Value} (hpop : s.pop = .ok (u, operand))
    (h : popTarget target kind u = .ok (w, receiver)) :
    w.facts = u.facts ∧
      t.lostBy target receiver = (Instruction.assignment target kind).overwritten? t.symbols s := by
  cases kind with
  | increment =>
    have hsame : w = u ∧ receiver = none := by cases target <;> cases h <;> exact ⟨rfl, rfl⟩
    obtain ⟨rfl, rfl⟩ := hsame
    rcases target with id | ⟨id, access⟩ | argCount | _
    · exact ⟨rfl, rfl⟩
    · cases access <;> exact ⟨rfl, rfl⟩
    · exact ⟨rfl, rfl⟩
    · exact ⟨rfl, rfl⟩
  | simple | compound =>
    rcases target with id | ⟨id, access⟩ | argCount | _
    · cases h
      exact ⟨rfl, rfl⟩
    · cases access with
      | static =>
        cases h
        exact ⟨rfl, rfl⟩
      | receiver =>
        unfold State.pop at hpop
        cases hs : s.stack with
        | nil => simp [hs] at hpop
        | cons top rest =>
          simp only [hs] at hpop
          cases hpop
          cases rest with
          | nil => cases h
          | cons r rest =>
            cases h
            refine ⟨rfl, ?_⟩
            cases hget : t.symbols.get? id <;>
              simp [lostBy, Instruction.overwritten?, hs, hget]
    · cases hmany : u.popMany (nextCount argCount) with
      | error fault => simp [popTarget, hmany, bind, Except.bind] at h
      | ok r =>
        simp only [popTarget, hmany] at h
        cases h
        exact ⟨State.facts_of_popMany hmany, rfl⟩
    · cases h
      exact ⟨rfl, rfl⟩

/-! ### Instructions -/

theorem assumes_of_narrowToType {type : TypeInfo} (h : s.Assumes u)
    (hnarrow : t.narrowToType u v type = some w) : s.Assumes w := by
  unfold narrowToType at hnarrow
  split at hnarrow
  · exact h.narrow (by simp) hnarrow
  · obtain rfl := Option.some.inj hnarrow
    exact h

/-- All instructions but assignments only assume facts. -/
theorem outlives_assumes (t : Transfer) {i : Instruction}
    (hi : ∀ target kind, i ≠ .assignment target kind) (s : State) : t.Outlives i s.Assumes where
  restack _ h := h.congr rfl
  record hc hu h := .record h hc hu rfl
  assign _ _ _ h := h.congr rfl
  unbind _ h := h.congr rfl
  clearFields _ h := h.congr rfl
  forget hassignment _ _ _ := absurd hassignment (hi _ _)

/-- To store a value makes at most one member void. -/
theorem facts_of_store {target : AssignmentTarget} {receiver : Option Value}
    (h : t.store target receiver v s = .ok u) :
    u.facts = ((t.lostBy target receiver).elim s s.forget).facts := by
  have hsymbol : ∀ {id : SymbolId} {f : Symbol → Except Fault State},
      (t.symbol id >>= f) = .ok u →
        ∃ symbol, t.symbols.get? id = some symbol ∧ f symbol = .ok u := by
    intro id f hf
    unfold symbol at hf
    cases hget : t.symbols.get? id with
    | none => simp [hget, bind, Except.bind] at hf
    | some symbol =>
      rw [hget] at hf
      exact ⟨symbol, rfl, hf⟩
  cases target with
  | symbol id =>
    obtain ⟨symbol, -, h⟩ := hsymbol h
    cases h
    rfl
  | member id access =>
    obtain ⟨symbol, hget, h⟩ := hsymbol h
    cases receiver with
    | some receiver =>
      simp only [lostBy, hget, Option.bind_some]
      dsimp only at h
      split at h
      · next hbindable =>
        cases h
        rw [if_pos hbindable]
        rfl
      · next hbindable =>
        cases h
        rw [if_neg hbindable]
        rfl
    | none =>
      cases access with
      | static =>
        dsimp only at h
        split at h <;> cases h <;> rfl
      | receiver =>
        cases h
        rfl
  | element | discard =>
    cases h
    rfl

theorem visitAssignment_revises (t : Transfer) (target : AssignmentTarget) (kind : AssignmentKind)
    (s : State) (ids : Supply) :
    Yields (s.Revises ((Instruction.assignment target kind).overwritten? t.symbols s))
      (t.visitAssignment target kind s ids) := by
  refine yields_bind ?_
  rintro ⟨u, operand⟩ hpop
  refine yields_bind ?_
  rintro ⟨w, receiver⟩ htarget
  -- facts are assumed first, and the old content is made void when the value is stored
  obtain ⟨hfacts, hlost⟩ := popTarget_eq_ok (t := t) hpop htarget
  have hw : s.Assumes w := .same (hfacts.trans (State.facts_of_pop hpop))
  rw [← hlost]
  have hfinish : ∀ w' v ids, s.Assumes w' → Yields (s.Revises (t.lostBy target receiver))
      (do
        let s ← t.store target receiver v w'
        return some (s.push v, ids)) := by
    intro w' v ids hw'
    refine yields_bind fun u' hstore => yields_some ?_
    exact State.Revises.congr ⟨w', hw', facts_of_store hstore⟩ rfl
  cases kind with
  | simple => exact hfinish w operand ids hw
  | compound | increment =>
    refine yields_bind fun type _ => ?_
    cases type with
    | none => exact hfinish w _ _ hw
    | some type =>
      dsimp only
      split
      · next w' hnarrow => exact hfinish w' _ _ (assumes_of_narrowToType hw hnarrow)
      · exact yields_none

/-- Instructions assume facts, and make void what an assignment overwrites. -/
theorem visit_revises (t : Transfer) (i : Instruction) (s : State) (ids : Supply) :
    Yields (s.Revises (i.overwritten? t.symbols s)) (t.visit i s ids) := by
  cases i with
  | assignment target kind => exact t.visitAssignment_revises target kind s ids
  | _ =>
    intro u ids' hu
    exact .of_assumes (visit_keeps (t.outlives_assumes (by simp) s) (.refl s) ids u ids' hu)

end Transfer

end Pathwise
