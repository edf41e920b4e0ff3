import Mathlib.Algebra.GroupWithZero.Nat
import Pathwise.Proofs.Solver.Narrowing
import Pathwise.Proofs.Solver.Valuation

/-!
The solver is exact. A coherent valuation that satisfies a state, and of which an assumed fact is
true, satisfies exactly one of the states that the assumption leads to; any other valuation
satisfies none of them. So no run is lost, none is invented, and none is followed twice.

The limit on the number of states cuts the reasoning off at any depth. A cut leaves more states
than the limit allows, and from there on every enclosing step does as well, so that the assumption
as a whole falls back on recording the fact. `Counts` carries this alternative through the
recursion: either there are too many states, or the count is right.
-/

namespace Pathwise

open Classical in
/-- One if the statement is true, and zero otherwise. -/
noncomputable def indicator (P : Prop) : Nat := if P then 1 else 0

theorem indicator_of_true {P : Prop} (h : P) : indicator P = 1 := if_pos h

theorem indicator_of_false {P : Prop} (h : ¬P) : indicator P = 0 := if_neg h

theorem indicator_and (P Q : Prop) : indicator (P ∧ Q) = indicator P * indicator Q := by
  by_cases hP : P <;> by_cases hQ : Q <;> simp [indicator, hP, hQ]

/-! ### Counting states -/

namespace Valuation

open Classical in
/-- How many of the states the valuation satisfies, each counted as often as it is listed. -/
noncomputable def models (ρ : Valuation) (states : List State) : Nat :=
  states.countP fun s => ρ.Satisfies s

/-- There are more states than the limit allows, or the valuation satisfies just so many. -/
def Counts (ρ : Valuation) (limit : Nat) (states : List State) (count : Nat) : Prop :=
  limit < states.length ∨ ρ.models states = count

variable {ρ : Valuation} {limit : Nat}

theorem models_singleton (s : State) : ρ.models [s] = indicator (ρ.Satisfies s) := by
  by_cases hs : ρ.Satisfies s <;> simp [models, indicator, hs]

theorem models_append (a b : List State) : ρ.models (a ++ b) = ρ.models a + ρ.models b :=
  List.countP_append

/-- Counting the states in which something else holds too. -/
theorem sum_indicator_and (states : List State) (Q : Prop) :
    (states.map fun s => indicator (ρ.Satisfies s ∧ Q)).sum = ρ.models states * indicator Q := by
  induction states with
  | nil => simp [models]
  | cons s states ih =>
    rw [List.map_cons, List.sum_cons, ih, indicator_and, ← models_singleton, ← Nat.add_mul,
      ← models_append, List.singleton_append]

/-- If any part has too many states, the whole has. -/
theorem counts_flatMap {α : Type} {f : α → List State} {g : α → Nat} {xs : List α}
    (h : ∀ x ∈ xs, ρ.Counts limit (f x) (g x)) :
    ρ.Counts limit (xs.flatMap f) (xs.map g).sum := by
  induction xs with
  | nil => exact .inr rfl
  | cons x xs ih =>
    rw [List.flatMap_cons, List.map_cons, List.sum_cons]
    have hlength : (f x ++ xs.flatMap f).length = (f x).length + (xs.flatMap f).length :=
      List.length_append
    rcases h x List.mem_cons_self with hx | hx
    · exact .inl (by omega)
    · rcases ih fun y hy => h y (List.mem_cons_of_mem _ hy) with hxs | hxs
      · exact .inl (by omega)
      · exact .inr (by rw [models_append, hx, hxs])

/-! ### One assumption, and several in turn -/

/-- Recording a fact narrows a state down to the runs in which it is true. -/
theorem models_record? (s : State) (v : Value) (c : Constraint) :
    ρ.models (s.record? v c).toList = indicator (ρ.Satisfies s ∧ ρ.Holds v c) := by
  cases hrecord : s.record? v c with
  | none =>
    have hnot : ¬(ρ.Satisfies s ∧ ρ.Holds v c) := by
      rintro ⟨hs, hc⟩
      obtain ⟨t, ht⟩ := exists_record? hs hc
      rw [hrecord] at ht
      exact absurd ht (by simp)
    rw [indicator_of_false hnot]
    rfl
  | some t =>
    rw [← satisfies_record? hrecord]
    exact models_singleton t

/-- An assumption is exact if carrying a truth on to the operands loses and repeats nothing. -/
theorem counts_assuming {deeper : Bool → State → List State} {v : Value}
    (hdeeper : ∀ truth s, (ρ.Satisfies s → ρ.Holds v (.bool truth)) →
      ρ.Counts limit (deeper truth s) (indicator (ρ.Satisfies s)))
    (c : Constraint) (s : State) :
    ρ.Counts limit (assuming deeper v c s) (indicator (ρ.Satisfies s ∧ ρ.Holds v c)) := by
  unfold assuming
  by_cases hhas : s.has v c = true
  · have hiff : ρ.Satisfies s ∧ ρ.Holds v c ↔ ρ.Satisfies s :=
      ⟨And.left, fun hs => ⟨hs, holds_of_has hs hhas⟩⟩
    rw [if_pos hhas, hiff]
    exact .inr (models_singleton s)
  · rw [if_neg hhas]
    cases hrecord : s.record? v c with
    | none => exact .inr (by rw [← models_record?, hrecord]; rfl)
    | some t =>
      have hiff := satisfies_record? (ρ := ρ) hrecord
      rw [← hiff]
      cases c with
      | bool truth => exact hdeeper truth t fun ht => (hiff.1 ht).2
      | _ => exact .inr (models_singleton t)

/-- Assumptions made one after the other narrow a list of states down to the runs in which all of
them are true. -/
theorem counts_inTurn {κ : Type} {f : κ → State → List State} {Q : κ → Prop} {ks : List κ}
    (hf : ∀ k ∈ ks, ∀ t, ρ.Counts limit (f k t) (indicator (ρ.Satisfies t ∧ Q k)))
    (states : List State) :
    ρ.Counts limit (inTurn limit (ks.map f) states)
      (ρ.models states * indicator (∀ k ∈ ks, Q k)) := by
  induction ks generalizing states with
  | nil => exact .inr (by rw [indicator_of_true (by simp), Nat.mul_one]; rfl)
  | cons k ks ih =>
    have hk : ρ.Counts limit (states.flatMap (f k)) (ρ.models states * indicator (Q k)) := by
      rw [← sum_indicator_and]
      exact counts_flatMap fun t _ => hf k List.mem_cons_self t
    rw [List.map_cons, inTurn, List.forall_mem_cons, indicator_and, ← Nat.mul_assoc]
    generalize states.flatMap (f k) = left at hk ⊢
    rcases hk with hover | hcount
    · rw [if_pos (by simp [hover])]
      exact .inl hover
    · rw [← hcount]
      split
      · next hstop =>
        by_cases hover : limit < left.length
        · exact .inl hover
        · -- No state is left, so there is nothing to count, whatever else is assumed.
          obtain rfl : left = [] := by simpa [hover] using hstop
          exact .inr (Nat.zero_mul _).symm
      · exact ih (fun k' hk' => hf k' (List.mem_cons_of_mem _ hk')) left

/-! ### Comparisons -/

/-- Facts carried over to a value that agrees with their source are true. -/
theorem holds_sharedFacts {kind : EqualityKind} {source target : Value} {side : Side} {s : State}
    (hs : ρ.Satisfies s) (hnull : ρ.isNull source = ρ.isNull target)
    (htruth : kind = .value → ρ.truth source = ρ.truth target) :
    ∀ k ∈ sharedFacts kind source side s, k.1 = side ∧ ρ.Holds target k.2 := by
  intro k hk
  obtain ⟨c, hc, rfl⟩ := List.mem_map.1 hk
  refine ⟨rfl, ?_⟩
  rcases List.mem_append.1 hc with hc | hc
  · have hc : s.factIn source .object = some c := Option.mem_toList.1 hc
    have hsource := holds_of_factIn hs hc
    obtain ⟨n, -, rfl⟩ := Option.map_eq_some_iff.1 hc
    cases n with
    | null => exact holds_null.2 (hnull ▸ holds_null.1 hsource)
    | notNull => exact holds_notNull.2 (hnull ▸ holds_notNull.1 hsource)
  · split at hc
    · next hkind =>
      have hc : s.factIn source .bool = some c := Option.mem_toList.1 hc
      have hsource := holds_of_factIn hs hc
      obtain ⟨truth, -, rfl⟩ := Option.map_eq_some_iff.1 hc
      exact holds_bool.2 (htruth hkind ▸ holds_bool.1 hsource)
    · simp at hc

/-- Facts that set a value apart from one it differs from are true. -/
theorem holds_opposedFacts {kind : EqualityKind} {source target : Value} {side : Side} {s : State}
    (hs : ρ.Satisfies s) (hnull : ¬(ρ.isNull source = true ∧ ρ.isNull target = true))
    (htruth : kind = .value → ρ.truth target = (ρ.truth source).map Bool.not) :
    ∀ k ∈ opposedFacts kind source side s, k.1 = side ∧ ρ.Holds target k.2 := by
  intro k hk
  obtain ⟨c, hc, rfl⟩ := List.mem_map.1 hk
  refine ⟨rfl, ?_⟩
  rcases List.mem_append.1 hc with hc | hc
  · split at hc
    · next hknown =>
      obtain rfl := List.mem_singleton.1 hc
      have hsource := holds_null.1 (holds_of_has hs hknown)
      exact holds_notNull.2 (by simpa [hsource] using hnull)
    · simp at hc
  · obtain ⟨truth, ht, rfl⟩ := Option.map_eq_some_iff.1 (Option.mem_toList.1 hc)
    split at ht
    · next hkind =>
      obtain ⟨old, hold, rfl⟩ := Option.map_eq_some_iff.1 ht
      have hsource : ρ.Holds source (.bool old) :=
        holds_of_factIn hs (d := .bool) (by rw [State.factIn, Facts.get?, hold]; rfl)
      exact holds_bool.2 (by rw [htruth hkind, holds_bool.1 hsource]; rfl)
    · simp at ht

/-- In every run in which a comparison has an outcome, what the outcome adds about the operands is
true; so a comparison that cannot have the outcome does not have it in any run. -/
theorem holds_equalityFacts (hρ : ρ.Coherent) {kind : EqualityKind} {l r : Value} {holds : Bool}
    {s : State} (hs : ρ.Satisfies s) (h : ρ.Holds (.equal kind l r) (.bool holds)) :
    ∃ facts, equalityFacts kind holds l r s = some facts ∧
      ∀ k ∈ facts, ρ.Holds (operandAt l r k.1) k.2 := by
  rw [holds_bool] at h
  unfold equalityFacts
  cases holds with
  | true =>
    obtain ⟨hnull, htruth⟩ := hρ.equal kind l r h
    by_cases hlr : l = r
    · exact ⟨[], by simp [hlr], by simp⟩
    · refine ⟨_, by simp [hlr]; rfl, ?_⟩
      intro k hk
      rcases List.mem_append.1 hk with hk | hk
      · obtain ⟨hside, hk⟩ := holds_sharedFacts hs hnull htruth k hk
        rw [hside]
        exact hk
      · obtain ⟨hside, hk⟩ := holds_sharedFacts hs hnull.symm (fun hv => (htruth hv).symm) k hk
        rw [hside]
        exact hk
  | false =>
    obtain ⟨hne, hnull, htruth⟩ := hρ.unequal kind l r h
    have hnot : ¬((decide (l = r) || (s.has l .null && s.has r .null)) = true) := by
      simp only [hne, decide_false, Bool.false_or, Bool.and_eq_true]
      exact fun hboth => hnull ⟨holds_of_has hs hboth.1, holds_of_has hs hboth.2⟩
    refine ⟨_, by rw [if_neg (by simp), if_neg hnot], ?_⟩
    intro k hk
    rcases List.mem_append.1 hk with hk | hk
    · have hopposite : kind = .value → ρ.truth r = (ρ.truth l).map Bool.not := by
        intro hv
        rw [htruth hv, Option.map_map]
        cases ρ.truth r <;> simp
      obtain ⟨hside, hk⟩ := holds_opposedFacts hs hnull hopposite k hk
      rw [hside]
      exact hk
    · obtain ⟨hside, hk⟩ := holds_opposedFacts hs (fun hboth => hnull hboth.symm) htruth k hk
      rw [hside]
      exact hk

/-! ### Propagation -/

/-- Exactly one of the ways in which a connective gets its truth is the one that a run takes. -/
theorem sum_ways {op : Connective} {truth a b : Bool} (h : op.apply a b = truth) :
    ((op.ways truth).map fun way => indicator (a = way.1 ∧ b = way.2)).sum = 1 := by
  subst h
  cases op <;> cases a <;> cases b <;> simp [Connective.apply, Connective.ways, indicator]

/-- A run in which a connective has a truth is counted once among the ways to get it. -/
theorem sum_ways_satisfies (hρ : ρ.Coherent) {op : Connective} {l r : Value} {truth : Bool}
    {s : State} (h : ρ.Satisfies s → ρ.Holds (.logic op l r) (.bool truth)) :
    ((op.ways truth).map fun way => indicator (ρ.Satisfies s ∧
      ∀ k ∈ [(Side.left, Constraint.bool way.1), (.right, .bool way.2)],
        ρ.Holds (operandAt l r k.1) k.2)).sum = indicator (ρ.Satisfies s) := by
  by_cases hs : ρ.Satisfies s
  · obtain ⟨a, b, ha, hb, hab⟩ := hρ.logic op l r truth (holds_bool.1 (h hs))
    have hway : ∀ way : Bool × Bool, (ρ.Satisfies s ∧
        ∀ k ∈ [(Side.left, Constraint.bool way.1), (.right, .bool way.2)],
          ρ.Holds (operandAt l r k.1) k.2) ↔ a = way.1 ∧ b = way.2 := by
      intro way
      simp [hs, operandAt, holds_bool, ha, hb]
    simp only [hway, sum_ways hab, indicator_of_true hs]
  · simp only [hs, false_and, indicator_of_false not_false]
    cases op <;> cases truth <;> rfl

theorem allows_blankness (whitespace : Bool) (t : Texture) :
    (StringShape.blankness whitespace).allows t = t.isBlank whitespace := by
  cases whitespace <;> cases t <;> rfl

theorem allows_content (whitespace : Bool) (t : Texture) :
    (StringShape.content whitespace).allows t = !t.isBlank whitespace := by
  cases whitespace <;> cases t <;> rfl

theorem holds_string {v : Value} {shape : StringShape} {e : Entity} {t : Texture}
    (he : ρ v = some e) (ht : e.texture = some t) :
    ρ.Holds v (.string shape) ↔ shape.allows t = true := by
  simp [Holds, Constraint.isTrueOf, he, ht]

/-- A run in which a test for a blank string succeeds is counted once among its two causes. -/
theorem sum_blank_satisfies (hρ : ρ.Coherent) {x : Value} {whitespace : Bool} {s : State}
    (h : ρ.Satisfies s → ρ.Holds (.blank x whitespace) (.bool true)) :
    ([Constraint.null, .string (.blankness whitespace)].map fun c =>
      indicator (ρ.Satisfies s ∧ ρ.Holds x c)).sum = indicator (ρ.Satisfies s) := by
  by_cases hs : ρ.Satisfies s
  · rcases hρ.blank x whitespace (holds_bool.1 (h hs)) with hnull | ⟨e, t, he, ht, hblank⟩
    · have hstring : ¬ρ.Holds x (.string (.blankness whitespace)) := by
        intro hstring
        have hnotNull := holds_notNull.1 (Facts.isTrueOf_notNull rfl hstring)
        rw [hnull] at hnotNull
        exact absurd hnotNull (by simp)
      simp [hs, hstring, holds_null.2 hnull, indicator]
    · have hnull : ¬ρ.Holds x .null := by
        simp [holds_null, isNull, he]
      have hstring : ρ.Holds x (.string (.blankness whitespace)) :=
        (holds_string he ht).2 (by rw [allows_blankness, hblank])
      simp [hs, hnull, hstring, indicator]
  · simp [hs, indicator]

/-- Facts about the operands of a composite are assumed exactly if facts about each of them are. -/
theorem counts_operands {l r : Value}
    (hl : ∀ c t, ρ.Counts limit (assuming (propagate limit l) l c t)
      (indicator (ρ.Satisfies t ∧ ρ.Holds l c)))
    (hr : ∀ c t, ρ.Counts limit (assuming (propagate limit r) r c t)
      (indicator (ρ.Satisfies t ∧ ρ.Holds r c)))
    (facts : List (Side × Constraint)) (s : State) :
    ρ.Counts limit (inTurn limit (facts.map (assumeOperand limit l r)) [s])
      (indicator (ρ.Satisfies s ∧ ∀ k ∈ facts, ρ.Holds (operandAt l r k.1) k.2)) := by
  rw [indicator_and, ← models_singleton]
  refine counts_inTurn (f := assumeOperand limit l r) ?_ [s]
  rintro ⟨side, c⟩ - t
  cases side with
  | left => exact hl c t
  | right => exact hr c t

/-- Carrying a truth on to the operands of a value loses no run in which the value has it, and
repeats none. -/
theorem counts_propagate (hρ : ρ.Coherent) (v : Value) :
    ∀ truth s, (ρ.Satisfies s → ρ.Holds v (.bool truth)) →
      ρ.Counts limit (propagate limit v truth s) (indicator (ρ.Satisfies s)) := by
  induction v with
  | unknown | constant | member | group => exact fun truth s _ => .inr (models_singleton s)
  | not x ih =>
    intro truth s h
    have hiff : ρ.Satisfies s ↔ ρ.Satisfies s ∧ ρ.Holds x (.bool !truth) :=
      ⟨fun hs => ⟨hs, holds_bool.2 (hρ.not x truth (holds_bool.1 (h hs)))⟩, And.left⟩
    rw [hiff]
    exact counts_assuming ih (.bool !truth) s
  | logic op l r ihl ihr =>
    intro truth s h
    -- the ways exclude each other, so no run is counted in two of them
    rw [propagate_logic, ← sum_ways_satisfies hρ h]
    exact counts_flatMap fun way _ =>
      counts_operands (counts_assuming ihl) (counts_assuming ihr) _ s
  | equal kind l r ihl ihr =>
    intro truth s h
    cases hfacts : equalityFacts kind truth l r s with
    | none =>
      -- the comparison cannot have this outcome, so there is no run to lose
      have hs : ¬ρ.Satisfies s := by
        intro hs
        obtain ⟨facts, hsome, -⟩ := holds_equalityFacts hρ hs (h hs)
        rw [hfacts] at hsome
        exact absurd hsome (by simp)
      rw [propagate_equal_of_none hfacts, indicator_of_false hs]
      exact .inr rfl
    | some facts =>
      have hiff : ρ.Satisfies s ↔
          ρ.Satisfies s ∧ ∀ k ∈ facts, ρ.Holds (operandAt l r k.1) k.2 := by
        refine ⟨fun hs => ⟨hs, ?_⟩, And.left⟩
        obtain ⟨facts', hsome, hall⟩ := holds_equalityFacts hρ hs (h hs)
        rw [hfacts] at hsome
        cases hsome
        exact hall
      rw [propagate_equal hfacts, hiff]
      exact counts_operands (counts_assuming ihl) (counts_assuming ihr) facts s
  | blank x whitespace ih =>
    intro truth s h
    cases truth with
    | true =>
      rw [← sum_blank_satisfies hρ h]
      exact counts_flatMap fun c _ => counts_assuming ih c s
    | false =>
      have hiff : ρ.Satisfies s ↔
          ρ.Satisfies s ∧ ρ.Holds x (.string (.content whitespace)) := by
        refine ⟨fun hs => ⟨hs, ?_⟩, And.left⟩
        obtain ⟨e, t, he, ht, hfull⟩ := hρ.full x whitespace (holds_bool.1 (h hs))
        exact (holds_string he ht).2 (by rw [allows_content, hfull]; rfl)
      rw [hiff]
      exact counts_assuming ih (.string (.content whitespace)) s
  | ofType x ih =>
    intro truth s h
    cases truth with
    | true =>
      have hiff : ρ.Satisfies s ↔ ρ.Satisfies s ∧ ρ.Holds x .notNull :=
        ⟨fun hs => ⟨hs, holds_notNull.2 (hρ.ofType x (holds_bool.1 (h hs)))⟩, And.left⟩
      rw [hiff]
      exact counts_assuming ih .notNull s
    | false => exact .inr (models_singleton s)
  | hasValue x ih =>
    intro truth s h
    have hiff : ρ.Satisfies s ↔
        ρ.Satisfies s ∧ ρ.Holds x (if truth then .notNull else .null) := by
      refine ⟨fun hs => ⟨hs, ?_⟩, And.left⟩
      have hnull := hρ.hasValue x truth (holds_bool.1 (h hs))
      cases truth with
      | true => exact holds_notNull.2 hnull
      | false => exact holds_null.2 hnull
    rw [hiff]
    exact counts_assuming ih _ s

/-! ### The runs that states admit -/

/-- Some of the states admits the run. -/
def Lives (ρ : Valuation) (states : List State) : Prop := ∃ s ∈ states, ρ.Satisfies s

theorem lives_singleton {s : State} : ρ.Lives [s] ↔ ρ.Satisfies s := by simp [Lives]

theorem not_lives_nil : ¬ρ.Lives [] := by simp [Lives]

/-- An assumption keeps the runs in which it is true, and no others. -/
theorem lives_assume (hρ : ρ.Coherent) (solver : Solver) (s : State) (v : Value)
    (c : Constraint) : ρ.Lives (solver.assume s v c) ↔ ρ.Satisfies s ∧ ρ.Holds v c := by
  have hmodels : ∀ states, ρ.models states = indicator (ρ.Satisfies s ∧ ρ.Holds v c) →
      (ρ.Lives states ↔ ρ.Satisfies s ∧ ρ.Holds v c) := by
    intro states hcount
    have hpos : ρ.Lives states ↔ 0 < ρ.models states := by simp [Lives, models, List.countP_pos_iff]
    rw [hpos, hcount]
    by_cases h : ρ.Satisfies s ∧ ρ.Holds v c
    · exact iff_of_true (by rw [indicator_of_true h]; exact Nat.one_pos) h
    · exact iff_of_false (by rw [indicator_of_false h]; exact Nat.lt_irrefl 0) h
  rw [Solver.assume]
  split
  · exact hmodels _ (models_record? s v c)
  · next hfew =>
    exact hmodels _ ((counts_assuming (counts_propagate hρ v) c s).resolve_left hfew)

end Valuation

/-! ### Exactness -/

/-- A run satisfies one of the states that an assumption leads to, and only one, if it satisfies
the state in which the assumption is made and the assumed fact is true in it. Any other run
satisfies none of them. -/
theorem Solver.models_assume (solver : Solver) (s : State) (v : Value) (c : Constraint)
    {ρ : Valuation} (hρ : ρ.Coherent) :
    ρ.models (solver.assume s v c) = indicator (ρ.Satisfies s ∧ ρ.Holds v c) := by
  have hcounts : ρ.Counts solver.maxForks (solver.explore s v c)
      (indicator (ρ.Satisfies s ∧ ρ.Holds v c)) :=
    Valuation.counts_assuming (Valuation.counts_propagate hρ v) c s
  rw [Solver.assume]
  by_cases hover : solver.maxForks < (solver.explore s v c).length
  · -- too many states: only the fact itself is recorded, which is exact as well
    rw [if_pos hover]
    exact Valuation.models_record? s v c
  · rw [if_neg hover]
    exact hcounts.resolve_left hover

/-- A run in which one operand is true and the other is not satisfies one of the three states that
make a conjunction false, and the only state there is if three are too many. -/
theorem Solver.models_assume_conjunction :
    let ρ := Valuation.extend fun id => some (.ofTruth (some (id == 0)))
    let both : Value := .logic .and (.unknown 0) (.unknown 1)
    ρ.Coherent ∧ ρ.models ((Solver.ofLimit 16).assume .initial both (.bool false)) = 1 ∧
      ρ.models ((Solver.ofLimit 2).assume .initial both (.bool false)) = 1 := by
  intro ρ both
  have hρ : ρ.Coherent := Valuation.extend_coherent _
  have hholds : ρ.Satisfies .initial ∧ ρ.Holds both (.bool false) :=
    ⟨hρ.satisfies_initial, rfl⟩
  exact ⟨hρ, by rw [models_assume _ _ _ _ hρ, indicator_of_true hholds],
    by rw [models_assume _ _ _ _ hρ, indicator_of_true hholds]⟩

end Pathwise
