import Pathwise.Proofs.Transfer.Facts

/-!
Which locks are known to be held. That a lock is held is a fact like others, but one that nothing
implies: no assumption about other facts makes it known. Garbage collection spares held locks.

An instruction leaves held locks as they are, with one exception. An assignment to a member that
cannot be tracked by name makes everything known about the member void, and so it is forgotten that
the member is a held lock.
-/

namespace Pathwise

/-- A lock is held in the second state if it was taken, or if it was held in the first state and was
not lost. -/
def State.Relocks (taken lost : Option Value) (s t : State) : Prop :=
  ∀ v, t.has v .held ↔ taken = some v ∨ s.has v .held ∧ lost ≠ some v

namespace State.Relocks

variable {taken lost : Option Value} {s t u : State}

theorem refl (s : State) : s.Relocks none none s := by
  intro v
  simp

theorem trans_left (h : s.Relocks none none t) (h' : t.Relocks taken lost u) :
    s.Relocks taken lost u := by
  intro v
  rw [h' v, h v]
  simp

theorem trans_right (h : s.Relocks taken lost t) (h' : t.Relocks none none u) :
    s.Relocks taken lost u := by
  intro v
  rw [h' v, h v]
  simp

/-- To take or lose a lock again makes no difference. -/
theorem again (h : s.Relocks taken lost t) (h' : t.Relocks taken lost u) :
    s.Relocks taken lost u := by
  intro v
  rw [h' v, h v]
  grind

/-- Only facts count. -/
theorem of_facts (h : t.facts = s.facts) : s.Relocks none none t := by
  intro v
  simp [State.has, State.factsOf, h]

theorem congr (h : s.Relocks taken lost t) (hfacts : u.facts = t.facts) :
    s.Relocks taken lost u :=
  h.trans_right (.of_facts hfacts)

end State.Relocks

/-! ### Facts -/

theorem State.has_held (s : State) (v : Value) : s.has v .held = (s.factsOf v).held := by
  simp only [has, Facts.implies, Constraint.domain, Facts.get?]
  cases (s.factsOf v).held <;> rfl

namespace State

variable {s t : State} {v : Value}

theorem has_held_of_record? {c : Constraint} (h : s.record? v c = some t) (w : Value) :
    t.has w .held ↔ (v = w ∧ c = .held) ∨ s.has w .held := by
  rw [has_held, has_held]
  have hfacts := factsOf_record? h w
  split at hfacts
  · next hvw =>
    subst hvw
    rw [(Facts.adds_of_add? hfacts.symm).held]
    simp [or_comm]
  · next hvw =>
    rw [Option.some.inj hfacts]
    simp [hvw]

theorem relocks_of_record? {c : Constraint} (hc : c ≠ .held) (h : s.record? v c = some t) :
    s.Relocks none none t := by
  intro w
  rw [has_held_of_record? h]
  simp [hc]

theorem relocks_of_assumes (h : s.Assumes t) : s.Relocks none none t := by
  induction h with
  | same h => exact .of_facts h
  | record _ hc hu hw ih => exact (ih.trans_right (relocks_of_record? hc hu)).congr hw

/-- To assume that a lock is held is to take it. -/
theorem relocks_of_narrow?_held {solver : Solver} (h : solver.narrow? s v .held = some t) :
    s.Relocks (some v) none t := by
  have hmem := List.mem_of_mem_head? h
  have hrecord : (s.has v .held ∧ t = s) ∨ s.record? v .held = some t := by
    rw [Solver.assume] at hmem
    split at hmem
    · exact .inr (Option.mem_toList.1 hmem)
    · rw [Solver.explore, assuming] at hmem
      split at hmem
      · next hheld => exact .inl ⟨hheld, List.mem_singleton.1 hmem⟩
      · cases hu : s.record? v .held with
        | none => simp [hu] at hmem
        | some u =>
          simp only [hu] at hmem
          rw [List.mem_singleton.1 hmem]
          exact .inr rfl
  rcases hrecord with ⟨hheld, rfl⟩ | hrecord
  · intro w
    simp only [ne_eq, reduceCtorEq, not_false_eq_true, and_true, Option.some.injEq]
    constructor
    · exact .inr
    · rintro (rfl | hw)
      · exact hheld
      · exact hw
  · intro w
    rw [has_held_of_record? hrecord]
    simp

theorem relocks_forgetIn {d : Domain} (hd : d ≠ .lock) (s : State) (v : Value) :
    s.Relocks none none (s.forgetIn v d) := by
  intro w
  rw [has_held, has_held, factsOf_forgetIn]
  split
  · next hvw =>
    subst hvw
    cases d with
    | lock => exact absurd rfl hd
    | _ => simp [Facts.without]
  · simp

/-- To forget what is known about a lock as a lock is to release it. -/
theorem relocks_forgetIn_lock (s : State) (v : Value) :
    s.Relocks none (some v) (s.forgetIn v .lock) := by
  intro w
  rw [has_held, has_held, factsOf_forgetIn]
  split
  · next hvw => simp [hvw, Facts.without]
  · next hvw => simp [hvw]

theorem relocks_forget (s : State) (v : Value) : s.Relocks none (some v) (s.forget v) := by
  intro w
  rw [has_held, has_held, factsOf_forget]
  split
  · next hvw => simp [hvw, Facts.nothing]
  · next hvw => simp [hvw]

theorem relocks_of_revises {lost : Option Value} (h : s.Revises lost t) :
    s.Relocks none lost t := by
  obtain ⟨w, hw, hfacts⟩ := h
  cases lost with
  | none => exact (relocks_of_assumes hw).congr hfacts
  | some v => exact ((relocks_of_assumes hw).trans_left (w.relocks_forget v)).congr hfacts

/-- Held locks are no garbage. -/
theorem relocks_collectGarbage (s : State) : s.Relocks none none s.collectGarbage := by
  intro v
  rw [has_held, has_held, factsOf_collectGarbage]
  split
  · simp
  · next hkeeps =>
    cases hheld : (s.factsOf v).held with
    | false => simp [Facts.nothing]
    | true =>
      exact absurd (by simp [keeps, Facts.implies, Constraint.domain, Facts.get?, hheld]) hkeeps

end State

/-! ### Instructions -/

namespace Transfer

/-- If the outcome is a state, locks are held there as before, but for one that may be lost. -/
def KeepsLocks (lost : Option Value) (s : State) (r : Transition) : Prop :=
  ∀ u ids, r = .ok (some (u, ids)) → s.Relocks none lost u

/-- Instructions leave held locks as they are, unless they make a member void. -/
theorem visit_keepsLocks (t : Transfer) (i : Instruction) (s : State) (ids : Supply) :
    KeepsLocks (i.overwritten? t.symbols s) s (t.visit i s ids) :=
  fun u ids' hu => State.relocks_of_revises (t.visit_revises i s ids u ids' hu)

end Transfer

end Pathwise
