import Pathwise.Symbolic.Constraint

/-!
What the operations on sets of facts do. A fact that is added settles whether the value is null, and
leaves what else is known as it was, except that a shape may become sharper; `Facts.Adds` says so
once for facts of all domains. So the fact is known from then on, and what was known stays known.
-/

namespace Pathwise

/-- What a fact tells about whether the value is null. -/
def Constraint.nullness : Constraint → Nullness
  | .object n => n
  | _ => .notNull

namespace StringShape

variable {a b c : StringShape}

theorem implies_refl (a : StringShape) : a.implies a := implies_iff.2 fun _ h => h

theorem implies_trans (hab : a.implies b) (hbc : b.implies c) : a.implies c :=
  implies_iff.2 fun t ht => implies_iff.1 hbc t (implies_iff.1 hab t ht)

/-- The meet of two shapes is sharper than either. -/
theorem implies_of_meet (h : a.meet b = some c) : c.implies a ∧ c.implies b := by
  have hallows : ∀ t, c.allows t → a.allows t ∧ b.allows t := by
    intro t ht
    rwa [allows_of_meet h, Bool.and_eq_true] at ht
  exact ⟨implies_iff.2 fun t ht => (hallows t ht).1, implies_iff.2 fun t ht => (hallows t ht).2⟩

end StringShape

namespace Facts

variable {f g : Facts} {c : Constraint} {n : Nullness}

theorem isEmpty_iff : f.isEmpty ↔ f = nothing := by
  obtain ⟨object, bool, string, collection, disposed, held⟩ := f
  simp [isEmpty, toList, Domain.all, List.isEmpty_iff, List.filterMap_eq_nil_iff, get?, nothing]

theorem get?_without (f : Facts) (d d' : Domain) :
    (f.without d).get? d' = if d = d' then none else f.get? d' := by
  cases d <;> cases d' <;> rfl

/-- Facts of any domain but the first are content. -/
theorem hasContent_of_get? {d : Domain} (hd : d ≠ .object) (h : (f.get? d).isSome) :
    f.hasContent := by
  obtain ⟨c, hc⟩ := Option.isSome_iff_exists.1 h
  have hmem : c ∈ f.toList := List.mem_filterMap.2 ⟨d, by cases d <;> decide, hc⟩
  have hcontent : c.impliesNotNull := by
    cases c with
    | object n => cases d <;> simp [get?] at hd hc
    | _ => rfl
  exact List.any_eq_true.2 ⟨c, hmem, hcontent⟩

/-- What it takes for a fact of each domain to be known. -/
theorem implies_iff :
    f.implies c ↔
      match c with
      | .object n => f.object = some n
      | .bool truth => f.bool = some truth
      | .string shape => ∃ known, f.string = some known ∧ known.implies shape
      | .collection fullness => f.collection = some fullness
      | .disposed => f.disposed = true
      | .held => f.held = true := by
  obtain ⟨object, bool, string, collection, disposed, held⟩ := f
  cases c with
  | object => cases object <;> simp [implies, get?, Constraint.domain]
  | bool => cases bool <;> simp [implies, get?, Constraint.domain]
  | string => cases string <;> simp [implies, get?, Constraint.domain]
  | collection => cases collection <;> simp [implies, get?, Constraint.domain]
  | disposed => cases disposed <;> simp [implies, get?, Constraint.domain]
  | held => cases held <;> simp [implies, get?, Constraint.domain]

/-! ### Adding a fact -/

theorem eq_of_settle {α : Type} [DecidableEq α] {known place : Option α} {new : α}
    (h : settle known new = some place) :
    place = some new ∧ ∀ old, known = some old → old = new := by
  cases known with
  | none => simp_all [settle]
  | some old =>
    simp only [settle, Option.ite_none_right_eq_some, Option.some.injEq] at h
    obtain ⟨rfl, rfl⟩ := h
    simp

theorem eq_of_addObject? (h : f.addObject? n = some g) :
    g = { f with object := some n } ∧ (∀ known, f.object = some known → known = n) ∧
      (n = .null → f.hasContent = false) := by
  unfold addObject? at h
  split at h
  · cases h
  · next hcontent =>
    obtain ⟨object, hsettle, rfl⟩ := Option.map_eq_some_iff.1 h
    obtain ⟨rfl, hknown⟩ := eq_of_settle hsettle
    exact ⟨rfl, hknown, fun hn => by simpa [hn] using hcontent⟩

/-- How a set of facts and the set with one more fact relate. -/
structure Adds (f : Facts) (c : Constraint) (g : Facts) : Prop where
  /-- It is known whether the value is null. -/
  object : g.object = some c.nullness
  /-- Nothing else was known about that. -/
  agrees : ∀ known, f.object = some known → known = c.nullness
  bool : ∀ truth, f.bool = some truth → g.bool = some truth
  /-- A truth only comes from a fact that says so. -/
  truth : ∀ truth, g.bool = some truth → f.bool = some truth ∨ c = .bool truth
  /-- A shape may become sharper. -/
  string : ∀ shape, f.string = some shape → ∃ known, g.string = some known ∧ known.implies shape
  collection : ∀ fullness, f.collection = some fullness → g.collection = some fullness
  disposed : f.disposed = true → g.disposed = true
  held : g.held = (f.held || c = .held)
  /-- The fact is known from then on. -/
  settles : g.implies c
  /-- That a value is null is only added if there is no content, and is all that is added. -/
  null : c.nullness = .null → g = { f with object := some .null } ∧ f.hasContent = false

theorem adds_of_add? (h : f.add? c = some g) : f.Adds c g := by
  have hsame : ∀ shape, f.string = some shape →
      ∃ known, f.string = some known ∧ known.implies shape :=
    fun shape hshape => ⟨shape, hshape, shape.implies_refl⟩
  cases c with
  | object n =>
    obtain ⟨rfl, hagrees, hcontent⟩ := eq_of_addObject? h
    refine ⟨rfl, hagrees, fun _ => id, fun _ => .inl, hsame, fun _ => id, id, by simp,
      implies_iff.2 rfl, ?_⟩
    intro hn
    obtain rfl : n = .null := hn
    exact ⟨rfl, hcontent rfl⟩
  | bool truth =>
    obtain ⟨f', hobject, h⟩ := Option.bind_eq_some_iff.1 h
    obtain ⟨bool, hsettle, h⟩ := Option.bind_eq_some_iff.1 h
    cases h
    obtain ⟨rfl, hagrees, -⟩ := eq_of_addObject? hobject
    obtain ⟨rfl, hknown⟩ := eq_of_settle hsettle
    exact ⟨rfl, hagrees, fun old hold => congrArg some (hknown old hold).symm,
      fun new hnew => .inr (congrArg Constraint.bool (Option.some.inj hnew)), hsame, fun _ => id,
      id, by simp, implies_iff.2 rfl, nofun⟩
  | string shape =>
    obtain ⟨f', hobject, h⟩ := Option.bind_eq_some_iff.1 h
    obtain ⟨rfl, hagrees, -⟩ := eq_of_addObject? hobject
    split at h
    · next old hold =>
      obtain ⟨both, hmeet, h⟩ := Option.bind_eq_some_iff.1 h
      cases h
      obtain ⟨hsharper, hnew⟩ := StringShape.implies_of_meet hmeet
      have hstring : ∀ known, f.string = some known →
          ∃ sharp, some both = some sharp ∧ sharp.implies known := by
        intro known hknown
        obtain rfl : old = known := Option.some.inj (hold.symm.trans hknown)
        exact ⟨both, rfl, hsharper⟩
      exact ⟨rfl, hagrees, fun _ => id, fun _ => .inl, hstring, fun _ => id, id, by simp,
        implies_iff.2 ⟨both, rfl, hnew⟩, nofun⟩
    · next hnone =>
      cases h
      have hstring : ∀ known, f.string = some known →
          ∃ sharp, some shape = some sharp ∧ sharp.implies known :=
        fun known hknown => absurd (hnone.symm.trans hknown) (by simp)
      exact ⟨rfl, hagrees, fun _ => id, fun _ => .inl, hstring, fun _ => id, id, by simp,
        implies_iff.2 ⟨shape, rfl, shape.implies_refl⟩, nofun⟩
  | collection fullness =>
    obtain ⟨f', hobject, h⟩ := Option.bind_eq_some_iff.1 h
    obtain ⟨collection, hsettle, h⟩ := Option.bind_eq_some_iff.1 h
    cases h
    obtain ⟨rfl, hagrees, -⟩ := eq_of_addObject? hobject
    obtain ⟨rfl, hknown⟩ := eq_of_settle hsettle
    exact ⟨rfl, hagrees, fun _ => id, fun _ => .inl, hsame,
      fun old hold => congrArg some (hknown old hold).symm, id, by simp, implies_iff.2 rfl, nofun⟩
  | disposed =>
    obtain ⟨f', hobject, h⟩ := Option.bind_eq_some_iff.1 h
    cases h
    obtain ⟨rfl, hagrees, -⟩ := eq_of_addObject? hobject
    exact ⟨rfl, hagrees, fun _ => id, fun _ => .inl, hsame, fun _ => id, fun _ => rfl, by simp,
      implies_iff.2 rfl, nofun⟩
  | held =>
    obtain ⟨f', hobject, h⟩ := Option.bind_eq_some_iff.1 h
    cases h
    obtain ⟨rfl, hagrees, -⟩ := eq_of_addObject? hobject
    exact ⟨rfl, hagrees, fun _ => id, fun _ => .inl, hsame, fun _ => id, id, by simp,
      implies_iff.2 rfl, nofun⟩

/-- What is known about nullness stays known. -/
theorem Adds.object_eq (h : f.Adds c g) (hf : f.object = some n) : g.object = some n := by
  rw [h.object, h.agrees n hf]

/-- What is known stays known. -/
theorem Adds.implies {k : Constraint} (h : f.Adds c g) (hk : f.implies k) : g.implies k := by
  rw [implies_iff] at hk ⊢
  cases k with
  | object n => exact h.object_eq hk
  | bool truth => exact h.bool truth hk
  | string shape =>
    obtain ⟨old, hold, hshape⟩ := hk
    obtain ⟨known, hknown, hsharper⟩ := h.string old hold
    exact ⟨known, hknown, StringShape.implies_trans hsharper hshape⟩
  | collection fullness => exact h.collection fullness hk
  | disposed => exact h.disposed hk
  | held =>
    have hheld : f.held = true := hk
    exact h.held.trans (by simp [hheld])

theorem Adds.isEmpty (h : f.Adds c g) : g.isEmpty = false := by
  rw [Bool.eq_false_iff, Ne, isEmpty_iff]
  rintro rfl
  exact absurd h.object nofun

end Facts

end Pathwise
