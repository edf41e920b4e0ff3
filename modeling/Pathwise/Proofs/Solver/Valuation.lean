import Pathwise.Symbolic.Solver
import Pathwise.Symbolic.State.Lemmas

/-!
What facts mean. A valuation says of every value what it stands for in one run of the program:
null, or an object that may have a truth, a texture, elements, and so on. A state admits the
valuations of which all its facts are true.

Not every valuation belongs to a run. A composite remembers how it was computed, so what it stands
for depends on its operands; the valuations that respect this are the coherent ones. They are the
second side of everything that is said about the solver.

The laws at the end say what adding a fact means: a set of facts that takes in another is true of
exactly those objects of which both were true, and it refuses a fact only if no object has both.
-/

namespace Pathwise

/-! ### Valuations -/

/-- An object that is not null, as far as facts can tell. -/
structure Entity where
  truth : Option Bool
  texture : Option Texture
  fullness : Option Fullness
  disposed : Bool
  held : Bool
  deriving DecidableEq

/-- An object of which nothing can be told but its truth. -/
def Entity.ofTruth (truth : Option Bool) : Entity := ⟨truth, none, none, false, false⟩

/-- Is the fact true of what a value stands for? Here `none` is null. -/
def Constraint.isTrueOf : Constraint → Option Entity → Bool
  | .null, o => o.isNone
  | .notNull, o => o.isSome
  | .bool truth, o => o.any fun e => e.truth == some truth
  | .string shape, o => o.any fun e => e.texture.any shape.allows
  | .collection fullness, o => o.any fun e => e.fullness == some fullness
  | .disposed, o => o.any Entity.disposed
  | .held, o => o.any Entity.held

/-- Are all the facts true of what a value stands for? -/
def Facts.areTrueOf (f : Facts) (o : Option Entity) : Bool := f.toList.all fun c => c.isTrueOf o

/-- What each value stands for in a run; `none` is null. -/
def Valuation := Value → Option Entity

namespace Valuation

/-- The truth that a value has, if it has one. -/
def truth (ρ : Valuation) (v : Value) : Option Bool := (ρ v).bind Entity.truth

/-- Is the value null? -/
def isNull (ρ : Valuation) (v : Value) : Bool := (ρ v).isNone

/-- The fact is true of the value. -/
def Holds (ρ : Valuation) (v : Value) (c : Constraint) : Prop := c.isTrueOf (ρ v) = true

/-- Everything that the state knows is true. -/
def Satisfies (ρ : Valuation) (s : State) : Prop := ∀ v, (s.factsOf v).areTrueOf (ρ v) = true

end Valuation

/-- The truth that a connective gives to two truths. -/
def Connective.apply : Connective → Bool → Bool → Bool
  | .and, a, b => a && b
  | .or, a, b => a || b
  | .xor, a, b => a != b

/-- Does a test for emptiness, or for white space, succeed on strings of the texture? -/
def Texture.isBlank (countsWhitespace : Bool) : Texture → Bool
  | .empty => true
  | .blank => countsWhitespace
  | .full => false

/-- A valuation that respects how composites are computed from their operands. A composite need not
have a truth; if it has one, its operands agree with it. -/
structure Valuation.Coherent (ρ : Valuation) : Prop where
  yes : ρ.truth .yes = some true
  no : ρ.truth .no = some false
  null : ρ.isNull .null = true
  self : ρ.isNull .self = false
  not : ∀ x truth, ρ.truth (.not x) = some truth → ρ.truth x = some !truth
  logic : ∀ op l r truth, ρ.truth (.logic op l r) = some truth →
    ∃ a b, ρ.truth l = some a ∧ ρ.truth r = some b ∧ op.apply a b = truth
  equal : ∀ kind l r, ρ.truth (.equal kind l r) = some true →
    ρ.isNull l = ρ.isNull r ∧ (kind = .value → ρ.truth l = ρ.truth r)
  unequal : ∀ kind l r, ρ.truth (.equal kind l r) = some false →
    l ≠ r ∧ ¬(ρ.isNull l = true ∧ ρ.isNull r = true) ∧
      (kind = .value → ρ.truth l = (ρ.truth r).map Bool.not)
  blank : ∀ x whitespace, ρ.truth (.blank x whitespace) = some true →
    ρ.isNull x = true ∨ ∃ e t, ρ x = some e ∧ e.texture = some t ∧ t.isBlank whitespace = true
  full : ∀ x whitespace, ρ.truth (.blank x whitespace) = some false →
    ∃ e t, ρ x = some e ∧ e.texture = some t ∧ t.isBlank whitespace = false
  ofType : ∀ x, ρ.truth (.ofType x) = some true → ρ.isNull x = false
  hasValue : ∀ x truth, ρ.truth (.hasValue x) = some truth → ρ.isNull x = !truth

/-! ### What a set of facts means -/

namespace Facts

/-- A set of facts is true if the fact of every domain is. -/
theorem areTrueOf_eq (f : Facts) (o : Option Entity) :
    f.areTrueOf o =
      (f.object.all (fun n => (Constraint.object n).isTrueOf o) &&
        (f.bool.all (fun truth => (Constraint.bool truth).isTrueOf o) &&
        (f.string.all (fun shape => (Constraint.string shape).isTrueOf o) &&
        (f.collection.all (fun fullness => (Constraint.collection fullness).isTrueOf o) &&
        ((!f.disposed || Constraint.disposed.isTrueOf o) &&
        (!f.held || Constraint.held.isTrueOf o)))))) := by
  obtain ⟨object, bool, string, collection, disposed, held⟩ := f
  cases object <;> cases bool <;> cases string <;> cases collection <;> cases disposed <;>
    cases held <;> simp [areTrueOf, toList, Domain.all, get?]

/-- Facts of any domain but the first count as content. -/
theorem hasContent_eq (f : Facts) :
    f.hasContent =
      (f.bool.isSome || (f.string.isSome || (f.collection.isSome || (f.disposed || f.held)))) := by
  obtain ⟨object, bool, string, collection, disposed, held⟩ := f
  cases object <;> cases bool <;> cases string <;> cases collection <;> cases disposed <;>
    cases held <;> simp [hasContent, toList, Domain.all, get?, Constraint.impliesNotNull]

/-- Only objects have content. -/
theorem isSome_of_hasContent {f : Facts} {o : Option Entity} (hf : f.areTrueOf o = true)
    (hc : f.hasContent = true) : o.isSome = true := by
  rw [areTrueOf_eq] at hf
  rw [hasContent_eq] at hc
  cases o with
  | some e => rfl
  | none =>
    obtain ⟨object, bool, string, collection, disposed, held⟩ := f
    cases bool <;> cases string <;> cases collection <;> simp_all [Constraint.isTrueOf]

/-- The fact in a place of a true set of facts is true. -/
theorem isTrueOf_get? {f : Facts} {o : Option Entity} (hf : f.areTrueOf o = true) {d : Domain}
    {c : Constraint} (hc : f.get? d = some c) : c.isTrueOf o = true := by
  rw [areTrueOf, List.all_eq_true] at hf
  refine hf c (List.mem_filterMap.2 ⟨d, ?_, hc⟩)
  cases d <;> simp [Domain.all]

/-- What is known about a value is true of it. -/
theorem isTrueOf_of_implies {f : Facts} {c : Constraint} {o : Option Entity}
    (hf : f.areTrueOf o = true) (hc : f.implies c = true) : c.isTrueOf o = true := by
  unfold implies at hc
  split at hc
  · next known asked hget =>
    have hknown := isTrueOf_get? hf hget
    obtain ⟨e, he⟩ : ∃ e, o = some e := by
      cases o <;> simp_all [Constraint.isTrueOf]
    subst he
    cases ht : e.texture with
    | none => simp [Constraint.isTrueOf, ht] at hknown
    | some t =>
      simp only [Constraint.isTrueOf, Option.any_some, ht] at hknown ⊢
      exact StringShape.implies_iff.1 hc t hknown
  · next known asked _ hget =>
    rw [eq_of_beq hc] at hget
    exact isTrueOf_get? hf hget
  · simp at hc

/-! ### What adding a fact means -/

/-- A place that takes a fact in says what it said before, and the fact. -/
theorem all_of_settle {α : Type} [DecidableEq α] {known : Option α} {new : α}
    {settled : Option α} (h : settle known new = some settled) (test : α → Bool) :
    settled.all test = (known.all test && test new) := by
  unfold settle at h
  split at h
  · cases h
    simp
  · split at h
    · next heq =>
      cases h
      simp [heq]
    · cases h

/-- A place that is empty, or holds the same, takes a fact in. -/
theorem settle_of_agree {α : Type} [DecidableEq α] {known : Option α} {new : α}
    (h : ∀ old, known = some old → old = new) : settle known new = some (some new) := by
  cases known with
  | none => rfl
  | some old => simp [settle, h old rfl]

theorem areTrueOf_addObject? {f g : Facts} {n : Nullness} (h : f.addObject? n = some g)
    (o : Option Entity) :
    g.areTrueOf o = (f.areTrueOf o && (Constraint.object n).isTrueOf o) := by
  unfold addObject? at h
  split at h
  · simp at h
  · obtain ⟨object, hset, rfl⟩ := Option.map_eq_some_iff.1 h
    simp only [areTrueOf_eq, all_of_settle hset]
    ac_rfl

/-- A fact that is not about nullness is only true of objects. -/
theorem isTrueOf_notNull {c : Constraint} (hc : c.impliesNotNull = true) {o : Option Entity}
    (h : c.isTrueOf o = true) : Constraint.notNull.isTrueOf o = true := by
  cases o with
  | some e => rfl
  | none => cases c <;> simp_all [Constraint.impliesNotNull, Constraint.isTrueOf]

/-- Sets of facts that agree but for one fact, which only objects can have. -/
theorem areTrueOf_of_narrowed {f f' g : Facts} {c : Constraint} {o : Option Entity}
    (hobject : f.addObject? .notNull = some f') (hc : c.impliesNotNull = true)
    (hg : g.areTrueOf o = (f'.areTrueOf o && c.isTrueOf o)) :
    g.areTrueOf o = (f.areTrueOf o && c.isTrueOf o) := by
  rw [hg, areTrueOf_addObject? hobject, Bool.and_assoc]
  cases h : c.isTrueOf o with
  | false => simp
  | true => rw [isTrueOf_notNull hc h, Bool.and_true]

/-- The shapes known and new, together, are true of the strings of which their meet is. -/
theorem isTrueOf_meet {a b c : StringShape} (h : a.meet b = some c) (o : Option Entity) :
    (Constraint.string c).isTrueOf o =
      ((Constraint.string a).isTrueOf o && (Constraint.string b).isTrueOf o) := by
  cases o with
  | none => rfl
  | some e =>
    cases ht : e.texture with
    | none => simp [Constraint.isTrueOf, ht]
    | some t => simpa [Constraint.isTrueOf, ht] using StringShape.allows_of_meet h t

/-- A set of facts with one more fact is true of the objects of which both were true. -/
theorem areTrueOf_add? {f g : Facts} {c : Constraint} (h : f.add? c = some g)
    (o : Option Entity) : g.areTrueOf o = (f.areTrueOf o && c.isTrueOf o) := by
  cases c with
  | object n => exact areTrueOf_addObject? h o
  | bool truth =>
    obtain ⟨f', hobject, h⟩ := Option.bind_eq_some_iff.1 h
    obtain ⟨bool, hset, h⟩ := Option.bind_eq_some_iff.1 h
    obtain rfl : _ = g := by simpa using h
    refine areTrueOf_of_narrowed hobject rfl ?_
    simp only [areTrueOf_eq, all_of_settle hset]
    ac_rfl
  | string shape =>
    obtain ⟨f', hobject, h⟩ := Option.bind_eq_some_iff.1 h
    refine areTrueOf_of_narrowed hobject rfl ?_
    split at h
    · next known hknown =>
      obtain ⟨both, hmeet, h⟩ := Option.bind_eq_some_iff.1 h
      obtain rfl : _ = g := by simpa using h
      simp only [areTrueOf_eq, hknown, Option.all_some, isTrueOf_meet hmeet]
      ac_rfl
    · next hknown =>
      obtain rfl : _ = g := by simpa using h
      simp only [areTrueOf_eq, hknown, Option.all_some, Option.all_none, Bool.true_and]
      ac_rfl
  | collection fullness =>
    obtain ⟨f', hobject, h⟩ := Option.bind_eq_some_iff.1 h
    obtain ⟨collection, hset, h⟩ := Option.bind_eq_some_iff.1 h
    obtain rfl : _ = g := by simpa using h
    refine areTrueOf_of_narrowed hobject rfl ?_
    simp only [areTrueOf_eq, all_of_settle hset]
    ac_rfl
  | disposed =>
    obtain ⟨f', hobject, h⟩ := Option.bind_eq_some_iff.1 h
    obtain rfl : _ = g := by simpa using h
    refine areTrueOf_of_narrowed hobject rfl ?_
    rw [areTrueOf_eq, areTrueOf_eq]
    cases f'.disposed <;> simp [Bool.and_comm, Bool.and_assoc, Bool.and_left_comm]
  | held =>
    obtain ⟨f', hobject, h⟩ := Option.bind_eq_some_iff.1 h
    obtain rfl : _ = g := by simpa using h
    refine areTrueOf_of_narrowed hobject rfl ?_
    rw [areTrueOf_eq, areTrueOf_eq]
    cases f'.held <;> simp [Bool.and_comm, Bool.and_assoc, Bool.and_left_comm]

/-! ### Facts that are true together can be put together -/

theorem exists_addObject? {f : Facts} {n : Nullness} {o : Option Entity}
    (hf : f.areTrueOf o = true) (hn : (Constraint.object n).isTrueOf o = true) :
    ∃ g, f.addObject? n = some g := by
  have hcontent : ¬((decide (n = .null) && f.hasContent) = true) := by
    intro hc
    simp only [Bool.and_eq_true, decide_eq_true_eq] at hc
    obtain ⟨rfl, hcontent⟩ := hc
    have := isSome_of_hasContent hf hcontent
    cases o <;> simp_all [Constraint.isTrueOf]
  have hagree : ∀ old, f.object = some old → old = n := by
    intro old hold
    have hget := isTrueOf_get? hf (d := .object) (by rw [get?, hold]; rfl)
    cases old <;> cases n <;> cases o <;> simp_all [Constraint.isTrueOf]
  exact ⟨_, by rw [addObject?, if_neg hcontent, settle_of_agree hagree]; rfl⟩

/-- Two shapes of one string meet. -/
theorem exists_meet {a b : StringShape} {o : Option Entity}
    (ha : (Constraint.string a).isTrueOf o = true) (hb : (Constraint.string b).isTrueOf o = true) :
    ∃ c, a.meet b = some c := by
  obtain ⟨e, rfl, ha⟩ := (Option.any_eq_true _ _).1 ha
  obtain ⟨t, ht, ha⟩ := (Option.any_eq_true _ _).1 ha
  have hb : b.allows t = true := by simpa [Constraint.isTrueOf, ht] using hb
  have hboth : ((a.empty && b.empty) || (a.blank && b.blank) || (a.full && b.full)) = true := by
    cases t <;> simp_all [StringShape.allows]
  exact ⟨_, dif_pos hboth⟩

/-- A fact that is true of an object can be added to facts that are. -/
theorem exists_add? {f : Facts} {c : Constraint} {o : Option Entity}
    (hf : f.areTrueOf o = true) (hc : c.isTrueOf o = true) : ∃ g, f.add? c = some g := by
  cases himplies : c.impliesNotNull with
  | false =>
    cases c with
    | object n => exact exists_addObject? hf hc
    | _ => simp [Constraint.impliesNotNull] at himplies
  | true =>
    have hnotNull := isTrueOf_notNull himplies hc
    obtain ⟨f', hobject⟩ := exists_addObject? hf hnotNull
    have hf' : f'.areTrueOf o = true := by
      rw [areTrueOf_addObject? hobject, hf, hnotNull]
      rfl
    cases c with
    | object n => simp [Constraint.impliesNotNull] at himplies
    | bool truth =>
      have hagree : ∀ old, f'.bool = some old → old = truth := by
        intro old hold
        have hget := isTrueOf_get? hf' (d := .bool) (by rw [get?, hold]; rfl)
        cases o <;> simp_all [Constraint.isTrueOf]
      exact ⟨_, by simp [add?, hobject, settle_of_agree hagree]; rfl⟩
    | string shape =>
      cases hold : f'.string with
      | none => exact ⟨_, by simp [add?, hobject, hold]; rfl⟩
      | some known =>
        have hget := isTrueOf_get? hf' (d := .string) (by rw [get?, hold]; rfl)
        obtain ⟨both, hmeet⟩ := exists_meet hget hc
        exact ⟨_, by simp [add?, hobject, hold, hmeet]; rfl⟩
    | collection fullness =>
      have hagree : ∀ old, f'.collection = some old → old = fullness := by
        intro old hold
        have hget := isTrueOf_get? hf' (d := .collection) (by rw [get?, hold]; rfl)
        cases o <;> simp_all [Constraint.isTrueOf]
      exact ⟨_, by simp [add?, hobject, settle_of_agree hagree]; rfl⟩
    | disposed => exact ⟨_, by simp [add?, hobject]; rfl⟩
    | held => exact ⟨_, by simp [add?, hobject]; rfl⟩

end Facts

/-! ### What a state means -/

namespace Valuation

variable {ρ : Valuation} {s t : State} {v : Value} {c : Constraint}

theorem holds_null : ρ.Holds v .null ↔ ρ.isNull v = true := Iff.rfl

theorem holds_notNull : ρ.Holds v .notNull ↔ ρ.isNull v = false := by
  unfold Holds isNull Constraint.isTrueOf
  cases ρ v <;> simp

theorem holds_bool {truth : Bool} : ρ.Holds v (.bool truth) ↔ ρ.truth v = some truth := by
  unfold Holds Valuation.truth Constraint.isTrueOf
  cases ρ v <;> simp

/-- What a state knows about a value is true of it. -/
theorem holds_of_has (hs : ρ.Satisfies s) (h : s.has v c = true) : ρ.Holds v c :=
  Facts.isTrueOf_of_implies (hs v) h

theorem holds_of_factIn (hs : ρ.Satisfies s) {d : Domain} (h : s.factIn v d = some c) :
    ρ.Holds v c :=
  Facts.isTrueOf_get? (hs v) h

/-- A recorded fact narrows a state down to the valuations of which the fact is true. -/
theorem satisfies_record? (h : s.record? v c = some t) :
    ρ.Satisfies t ↔ ρ.Satisfies s ∧ ρ.Holds v c := by
  have hfacts : ∀ w, (t.factsOf w).areTrueOf (ρ w) =
      if v = w then ((s.factsOf v).areTrueOf (ρ v) && c.isTrueOf (ρ v))
      else (s.factsOf w).areTrueOf (ρ w) := by
    intro w
    have hw := State.factsOf_record? h w
    by_cases hvw : v = w
    · subst hvw
      rw [if_pos rfl] at hw ⊢
      exact Facts.areTrueOf_add? hw.symm (ρ v)
    · rw [if_neg hvw, Option.some.injEq] at hw
      rw [if_neg hvw, hw]
  constructor
  · intro ht
    have hv : (s.factsOf v).areTrueOf (ρ v) = true ∧ c.isTrueOf (ρ v) = true := by
      have hv := ht v
      rw [hfacts v, if_pos rfl, Bool.and_eq_true] at hv
      exact hv
    refine ⟨fun w => ?_, hv.2⟩
    by_cases hvw : v = w
    · exact hvw ▸ hv.1
    · have hw := ht w
      rwa [hfacts w, if_neg hvw] at hw
  · rintro ⟨hs, hc⟩ w
    rw [hfacts w]
    by_cases hvw : v = w
    · rw [if_pos hvw, hs v, Bool.true_and]
      exact hc
    · rw [if_neg hvw]
      exact hs w

/-- Forgetting rules no run out. -/
theorem satisfies_forget (hs : ρ.Satisfies s) (v : Value) : ρ.Satisfies (s.forget v) := by
  intro w
  rw [State.factsOf_forget]
  split
  · rfl
  · exact hs w

/-- A fact that is true in some run of a state can be recorded. -/
theorem exists_record? (hs : ρ.Satisfies s) (hc : ρ.Holds v c) : ∃ t, s.record? v c = some t := by
  obtain ⟨g, hg⟩ := Facts.exists_add? (hs v) hc
  exact ⟨_, by rw [State.record?, hg]; rfl⟩

end Valuation

/-- Nothing is known at the start but what is always true. -/
theorem Valuation.Coherent.satisfies_initial {ρ : Valuation} (hρ : ρ.Coherent) :
    ρ.Satisfies .initial := by
  intro v
  rw [State.factsOf_initial]
  have hyes : (Constraint.bool true).isTrueOf (ρ .yes) = true := Valuation.holds_bool.2 hρ.yes
  have hno : (Constraint.bool false).isTrueOf (ρ .no) = true := Valuation.holds_bool.2 hρ.no
  have hnull : Constraint.null.isTrueOf (ρ .null) = true := Valuation.holds_null.2 hρ.null
  have hself : Constraint.notNull.isTrueOf (ρ .self) = true := Valuation.holds_notNull.2 hρ.self
  cases v with
  | constant c =>
    cases c with
    | yes =>
      show (Constraint.notNull.isTrueOf _ && ((Constraint.bool true).isTrueOf _ && true)) = true
      rw [hyes, Facts.isTrueOf_notNull rfl hyes]
      rfl
    | no =>
      show (Constraint.notNull.isTrueOf _ && ((Constraint.bool false).isTrueOf _ && true)) = true
      rw [hno, Facts.isTrueOf_notNull rfl hno]
      rfl
    | null =>
      show (Constraint.null.isTrueOf _ && true) = true
      rw [hnull]
      rfl
    | self =>
      show (Constraint.notNull.isTrueOf _ && true) = true
      rw [hself]
      rfl
  | _ => rfl

/-! ### Coherent valuations from choices for the unknowns -/

namespace Valuation

/-- The outcome of a comparison, where nullness or truth settles it. -/
def comparison (kind : EqualityKind) (a b : Option Entity) : Option Bool :=
  if a.isNone && b.isNone then some true
  else
    match kind, a.bind Entity.truth, b.bind Entity.truth with
    | .value, some x, some y => some (x == y)
    | .value, some _, none | .value, none, some _ => none
    | _, _, _ => if a.isNone || b.isNone then some false else none

/-- What values stand for once it is chosen what the unknowns stand for. -/
def extend (unknowns : Identity → Option Entity) : Valuation
  | .unknown id => unknowns id
  | .constant .yes => some (.ofTruth true)
  | .constant .no => some (.ofTruth false)
  | .constant .null => none
  | .constant .self => some (.ofTruth none)
  | .not x => some (.ofTruth (((extend unknowns x).bind Entity.truth).map Bool.not))
  | .logic op l r => some (.ofTruth do
      return op.apply (← (extend unknowns l).bind Entity.truth)
        (← (extend unknowns r).bind Entity.truth))
  | .equal kind l r => some (.ofTruth
      (if l = r then some true else comparison kind (extend unknowns l) (extend unknowns r)))
  | .blank x whitespace => some (.ofTruth
      (match extend unknowns x with
      | none => some true
      | some e => e.texture.map (Texture.isBlank whitespace)))
  | .ofType x | .hasValue x => some (.ofTruth (extend unknowns x).isSome)
  | .member .. | .group .. => some (.ofTruth none)

/-- Comparisons respect nullness and truth. -/
theorem comparison_eq_some {kind : EqualityKind} {a b : Option Entity} {truth : Bool}
    (h : comparison kind a b = some truth) :
    (truth = true → a.isNone = b.isNone ∧
      (kind = .value → a.bind Entity.truth = b.bind Entity.truth)) ∧
    (truth = false → ¬(a.isNone = true ∧ b.isNone = true) ∧
      (kind = .value → a.bind Entity.truth = (b.bind Entity.truth).map Bool.not)) := by
  unfold comparison at h
  cases a with
  | none =>
    cases b with
    | none => simp_all
    | some b => cases kind <;> cases hb : b.truth <;> simp_all
  | some a =>
    cases b with
    | none => cases kind <;> cases ha : a.truth <;> simp_all
    | some b =>
      cases kind <;> rcases ha : a.truth with _ | _ | _ <;> rcases hb : b.truth with _ | _ | _ <;>
        simp_all

/-- Every choice for the unknowns extends to a coherent valuation. -/
theorem extend_coherent (unknowns : Identity → Option Entity) : (extend unknowns).Coherent where
  yes := rfl
  no := rfl
  null := rfl
  self := rfl
  not := by
    intro x truth h
    obtain ⟨old, hold, rfl⟩ := Option.map_eq_some_iff.1 h
    rw [Bool.not_not]
    exact hold
  logic := by
    intro op l r truth h
    have h : ((extend unknowns l).bind Entity.truth).bind (fun a =>
      ((extend unknowns r).bind Entity.truth).bind fun b => some (op.apply a b)) = some truth := h
    obtain ⟨a, ha, h⟩ := Option.bind_eq_some_iff.1 h
    obtain ⟨b, hb, h⟩ := Option.bind_eq_some_iff.1 h
    exact ⟨a, b, ha, hb, Option.some.inj h⟩
  equal := by
    intro kind l r h
    have h : (if l = r then some true else comparison kind (extend unknowns l)
      (extend unknowns r)) = some true := h
    by_cases hlr : l = r
    · subst hlr
      exact ⟨rfl, fun _ => rfl⟩
    · rw [if_neg hlr] at h
      exact (comparison_eq_some h).1 rfl
  unequal := by
    intro kind l r h
    have h : (if l = r then some true else comparison kind (extend unknowns l)
      (extend unknowns r)) = some false := h
    by_cases hlr : l = r
    · rw [if_pos hlr] at h
      exact absurd h (by simp)
    · rw [if_neg hlr] at h
      exact ⟨hlr, (comparison_eq_some h).2 rfl⟩
  blank := by
    intro x whitespace h
    cases hx : extend unknowns x with
    | none => exact .inl (by rw [isNull, hx]; rfl)
    | some e =>
      have h : (match extend unknowns x with
        | none => some true
        | some e => e.texture.map (Texture.isBlank whitespace)) = some true := h
      rw [hx] at h
      obtain ⟨t, ht, hblank⟩ := Option.map_eq_some_iff.1 h
      exact .inr ⟨e, t, rfl, ht, hblank⟩
  full := by
    intro x whitespace h
    have h : (match extend unknowns x with
      | none => some true
      | some e => e.texture.map (Texture.isBlank whitespace)) = some false := h
    cases hx : extend unknowns x with
    | none => simp [hx] at h
    | some e =>
      rw [hx] at h
      obtain ⟨t, ht, hblank⟩ := Option.map_eq_some_iff.1 h
      exact ⟨e, t, rfl, ht, hblank⟩
  ofType := by
    intro x h
    have h : (extend unknowns x).isSome = true := Option.some.inj h
    rw [isNull, ← Option.not_isSome, h]
    rfl
  hasValue := by
    intro x truth h
    have h : (extend unknowns x).isSome = truth := Option.some.inj h
    rw [isNull, ← Option.not_isSome, h]

end Valuation

end Pathwise
