import Pathwise.Proofs.Solver.Exactness

/-!
Assuming a fact, and assuming that it does not hold. To deny a fact is to assume its opposite, which
is a fact of the same domain. Whether a value is null can be asked of every value, so there one of
the two is true in every run. The other facts that have an opposite are about objects that have
something of the kind: a truth, a texture, or elements. Of null, and of an object that has nothing
of the kind, neither the fact nor its opposite is true (`isTrueOf_opposite`).

So the runs in which a fact does not apply to a value are lost between the two, and those are all
that are lost. In particular a value that is known to be null can neither be assumed to be an empty
string nor be assumed not to be one.
-/

namespace Pathwise

/-- The textures that the complement of a shape has are those that the shape lacks. -/
theorem StringShape.allows_of_complement {a b : StringShape} (h : a.complement = some b)
    (t : Texture) : b.allows t = !a.allows t := by
  simp only [complement, of?, Option.dite_none_right_eq_some, Option.some.injEq] at h
  obtain ⟨_, rfl⟩ := h
  cases t <;> rfl

namespace Constraint

variable {c opposite : Constraint}

/-- Is what a value stands for such as the facts of the domain are about? -/
def appliesTo : Constraint → Option Entity → Bool
  | .object _, _ | .disposed, _ | .held, _ => true
  | .bool _, o => o.any fun e => e.truth.isSome
  | .string _, o => o.any fun e => e.texture.isSome
  | .collection _, o => o.any fun e => e.fullness.isSome

theorem appliesTo_of_isTrueOf {o : Option Entity} (h : c.isTrueOf o) : c.appliesTo o := by
  cases c with
  | object | disposed | held => rfl
  | bool truth =>
    obtain ⟨e, rfl, he⟩ := (Option.any_eq_true _ _).1 h
    simp [appliesTo, eq_of_beq he]
  | string shape =>
    obtain ⟨e, rfl, he⟩ := (Option.any_eq_true _ _).1 h
    obtain ⟨t, ht, -⟩ := (Option.any_eq_true _ _).1 he
    simp [appliesTo, ht]
  | collection fullness =>
    obtain ⟨e, rfl, he⟩ := (Option.any_eq_true _ _).1 h
    simp [appliesTo, eq_of_beq he]

/-- The opposite of a fact is true where the fact applies and is not true. -/
theorem isTrueOf_opposite (h : c.opposite = some opposite) (o : Option Entity) :
    opposite.isTrueOf o = (c.appliesTo o && !c.isTrueOf o) := by
  cases c with
  | object n => cases n <;> cases h <;> cases o <;> rfl
  | bool truth =>
    cases h
    rcases o with _ | e
    · rfl
    · rcases ht : e.truth with _ | known
      · simp [isTrueOf, appliesTo, ht]
      · cases truth <;> cases known <;> simp [isTrueOf, appliesTo, ht]
  | string shape =>
    obtain ⟨complement, hcomplement, rfl⟩ := Option.map_eq_some_iff.1 h
    rcases o with _ | e
    · rfl
    · rcases ht : e.texture with _ | t
      · simp [isTrueOf, appliesTo, ht]
      · simpa [isTrueOf, appliesTo, ht] using StringShape.allows_of_complement hcomplement t
  | collection fullness =>
    rcases o with _ | e
    · cases fullness <;> cases h <;> rfl
    · rcases hf : e.fullness with _ | known
      · cases fullness <;> cases h <;> simp [isTrueOf, appliesTo, hf]
      · cases fullness <;> cases h <;> cases known <;> simp [isTrueOf, appliesTo, hf]
  | disposed | held => cases h

/-- Between a fact and its opposite nothing is lost to which the fact applies. -/
theorem appliesTo_iff (h : c.opposite = some opposite) (o : Option Entity) :
    c.appliesTo o ↔ c.isTrueOf o ∨ opposite.isTrueOf o := by
  rw [isTrueOf_opposite h]
  cases hc : c.isTrueOf o with
  | true => simp [appliesTo_of_isTrueOf hc]
  | false => simp

end Constraint

/-! ### The runs that a denial admits -/

namespace Valuation

variable {ρ : Valuation} {c opposite : Constraint}

/-- A denial keeps the runs in which the opposite is true, and no others. -/
theorem lives_refute (hρ : ρ.Coherent) (solver : Solver) (s : State) (v : Value)
    (h : c.opposite = some opposite) :
    ρ.Lives (solver.refute s v c) ↔ ρ.Satisfies s ∧ ρ.Holds v opposite := by
  unfold Solver.refute
  split
  · next hhas =>
    -- the fact is known, so it is true in every run, and its opposite in none
    refine iff_of_false not_lives_nil fun ⟨hs, hopposite⟩ => ?_
    have hholds : c.isTrueOf (ρ v) = true := holds_of_has hs hhas
    rw [Holds, Constraint.isTrueOf_opposite h, hholds] at hopposite
    simp at hopposite
  · rw [h]
    exact lives_assume hρ solver s v opposite

/-- The denial of a fact that has no opposite keeps every run, unless the fact is known. -/
theorem lives_refute_of_none (solver : Solver) (s : State) (v : Value) (h : c.opposite = none) :
    ρ.Lives (solver.refute s v c) ↔ ρ.Satisfies s ∧ s.has v c = false := by
  unfold Solver.refute
  split
  · next hhas => exact iff_of_false not_lives_nil fun hnot => by simp [hhas] at hnot
  · next hhas =>
    rw [h, lives_singleton]
    simp [hhas]

theorem lives_append {a b : List State} : ρ.Lives (a ++ b) ↔ ρ.Lives a ∨ ρ.Lives b := by
  simp only [Lives, List.mem_append, or_and_right, exists_or]

end Valuation

/-! ### Assuming and denying -/

/-- A run that a state admits is admitted by one of the states in which a fact is assumed or denied
exactly if the fact has no opposite, or applies to what the value stands for in the run. In a state
that admits such a run the two are not both impossible. -/
theorem Solver.lives_assume_or_refute (solver : Solver) (s : State) (v : Value) (c : Constraint)
    {ρ : Valuation} (hρ : ρ.Coherent) (hs : ρ.Satisfies s) :
    (ρ.Lives (solver.assume s v c ++ solver.refute s v c) ↔
      c.opposite = none ∨ c.appliesTo (ρ v)) ∧
    (c.opposite = none ∨ c.appliesTo (ρ v) →
      ¬(solver.assume s v c = [] ∧ solver.refute s v c = [])) := by
  have hlives : ρ.Lives (solver.assume s v c ++ solver.refute s v c) ↔
      c.opposite = none ∨ c.appliesTo (ρ v) := by
    rw [Valuation.lives_append, Valuation.lives_assume hρ]
    cases hopposite : c.opposite with
    | none =>
      -- either the fact is known, or the state is left as it is
      rw [Valuation.lives_refute_of_none solver s v hopposite]
      refine iff_of_true ?_ (.inl rfl)
      cases hhas : s.has v c with
      | true => exact .inl ⟨hs, Valuation.holds_of_has hs hhas⟩
      | false => exact .inr ⟨hs, rfl⟩
    | some opposite =>
      rw [Valuation.lives_refute hρ solver s v hopposite, Constraint.appliesTo_iff hopposite]
      simp [hs, Valuation.Holds]
  refine ⟨hlives, ?_⟩
  rintro happlies ⟨hassume, hrefute⟩
  have hlive := hlives.2 happlies
  rw [hassume, hrefute] at hlive
  exact Valuation.not_lives_nil hlive

/-- A run in which a text consists of white space is kept, although nothing is known of the text:
it is one in which the text is not empty. -/
theorem Solver.lives_assume_or_refute_whitespace :
    let ρ := Valuation.extend fun _ => some ⟨none, some .blank, none, false, false⟩
    ρ.Coherent ∧ ρ.Satisfies .initial ∧ ∀ solver : Solver,
      ρ.Lives (solver.assume .initial (.unknown 0) (.string .emptyString) ++
        solver.refute .initial (.unknown 0) (.string .emptyString)) := by
  intro ρ
  have hρ : ρ.Coherent := Valuation.extend_coherent _
  exact ⟨hρ, hρ.satisfies_initial, fun solver =>
    (lives_assume_or_refute solver .initial (.unknown 0) (.string .emptyString) hρ
      hρ.satisfies_initial).1.2 (.inr rfl)⟩

/-- No fact that is about objects can be assumed of a value that is known to be null. -/
theorem Solver.assume_of_null (solver : Solver) {s : State} {v : Value} {c : Constraint}
    (hnull : (s.factsOf v).object = some .null) (hc : c.nullness = .notNull)
    (hhas : s.has v c = false) : solver.assume s v c = [] := by
  have hrecord : s.record? v c = none := by
    rw [State.record?_eq_none_iff, Option.eq_none_iff_forall_ne_some]
    intro g hg
    have hagrees := (Facts.adds_of_add? hg).agrees .null hnull
    rw [hc] at hagrees
    cases hagrees
  simp [assume, explore, assuming, hhas, hrecord]

/-- A value that is known to be null can neither be assumed to be an empty string nor be assumed not
to be one, although there are runs in which it is null. -/
theorem Solver.denial_loses_null :
    ∃ s : State, State.initial.record? (.unknown 0) .null = some s ∧
      (∃ ρ : Valuation, ρ.Coherent ∧ ρ.Satisfies s) ∧
      ∀ solver : Solver, solver.assume s (.unknown 0) (.string .emptyString) = [] ∧
        solver.refute s (.unknown 0) (.string .emptyString) = [] := by
  obtain ⟨s, hrecord, hfacts⟩ := State.exists_record?_unknown (n := 0)
    (show Facts.nothing.add? .null = some { Facts.nothing with object := some .null } from rfl)
  have hhas : ∀ shape, s.has (.unknown 0) (.string shape) = false := by
    intro shape
    rw [State.has, hfacts]
    rfl
  have hassume : ∀ (solver : Solver) shape, solver.assume s (.unknown 0) (.string shape) = [] :=
    fun solver shape => solver.assume_of_null (by rw [hfacts]) rfl (hhas shape)
  have hρ : (Valuation.extend fun _ => none).Coherent := Valuation.extend_coherent _
  refine ⟨s, hrecord, ⟨_, hρ, ?_⟩, fun solver => ⟨hassume solver _, ?_⟩⟩
  · exact (Valuation.satisfies_record? hrecord).2 ⟨hρ.satisfies_initial, rfl⟩
  · rw [refute, hhas, if_neg Bool.false_ne_true]
    exact hassume solver .notEmpty

end Pathwise
