import Pathwise.Proofs.Solver.Exactness
import Pathwise.Proofs.Transfer.Effect

/-!
Tests that are decided when they are made. A comparison, a negation, a type test or a test on a
string is a composite of its operands (`Instruction.composite?`). Where the facts about the operands
settle the outcome, an instruction pushes a constant in place of the composite. This is a second
account of what composites mean, beside the one that the solver gives, and the two agree: in every
run that the state admits, what is pushed has the truth of the composite, if the composite has one.

Two things may come in between. A call that validates its arguments is carried out in a state in
which they are not null, so what it pushes is only right for runs in which they are not: in the
others the call does not return. And a comparison for inequality looks up the truth of the constant
that the comparison for equality came down to, if it came down to one, so the state has to know it.
-/

namespace Pathwise

/-! ### Composites that are decided by what is known -/

/-- A comparison comes down to a constant, or it stays a composite. -/
theorem State.equality_cases (s : State) (kind : EqualityKind) (l r : Value) :
    (∃ truth, s.equality kind l r = .ofBool truth) ∨ s.equality kind l r = .equal kind l r := by
  simp only [equality]
  split
  · exact .inl ⟨true, rfl⟩
  · split
    · exact .inl ⟨false, rfl⟩
    · exact .inr rfl

namespace Valuation

variable {ρ : Valuation} {s : State} {v w : Value}

/-- The first value has the truth of the second, if the second has one. -/
def Replaces (ρ : Valuation) (v w : Value) : Prop :=
  ∀ truth, ρ.truth w = some truth → ρ.truth v = some truth

theorem Replaces.refl (ρ : Valuation) (v : Value) : ρ.Replaces v v := fun _ => id

theorem Coherent.truth_ofBool (hρ : ρ.Coherent) (truth : Bool) :
    ρ.truth (.ofBool truth) = some truth := by
  cases truth with
  | true => exact hρ.yes
  | false => exact hρ.no

theorem isNull_of_has (hs : ρ.Satisfies s) (h : s.has v .null) : ρ.isNull v = true :=
  holds_null.1 (holds_of_has hs h)

theorem isNull_of_has_notNull (hs : ρ.Satisfies s) (h : s.has v .notNull) : ρ.isNull v = false :=
  holds_notNull.1 (holds_of_has hs h)

/-- The truth that a state knows of a value is the one that the value has. -/
theorem truth_of_bool {truth : Bool} (hs : ρ.Satisfies s)
    (h : (s.factsOf v).bool = some truth) : ρ.truth v = some truth :=
  holds_bool.1 (holds_of_has hs (Facts.implies_iff.2 h))

theorem replaces_equality (hρ : ρ.Coherent) (hs : ρ.Satisfies s) (kind : EqualityKind)
    (l r : Value) : ρ.Replaces (s.equality kind l r) (.equal kind l r) := by
  intro truth htruth
  simp only [State.equality, Bool.or_eq_true, Bool.and_eq_true, decide_eq_true_eq]
  split
  · next hsame =>
    cases truth with
    | true => exact hρ.yes
    | false =>
      obtain ⟨hne, hnull, -⟩ := hρ.unequal kind l r htruth
      rcases hsame with heq | ⟨hl, hr⟩
      · exact absurd heq hne
      · exact absurd ⟨isNull_of_has hs hl, isNull_of_has hs hr⟩ hnull
  · split
    · next hapart =>
      cases truth with
      | true =>
        obtain ⟨hnull, -⟩ := hρ.equal kind l r htruth
        rcases hapart with ⟨hl, hr⟩ | ⟨hr, hl⟩
        · rw [isNull_of_has hs hl, isNull_of_has_notNull hs hr] at hnull
          cases hnull
        · rw [isNull_of_has hs hr, isNull_of_has_notNull hs hl] at hnull
          cases hnull
      | false => exact hρ.no
    · exact htruth

/-- A negation looks up the truth of what is negated, and is a composite if it is not known. -/
theorem replaces_negate_of_replaces (hρ : ρ.Coherent) (hs : ρ.Satisfies s) (hv : ρ.Replaces v w)
    (hknown : v = w ∨ ∃ truth, s.has v (.bool truth)) : ρ.Replaces (s.negate v) (.not w) := by
  intro truth htruth
  have hvalue : ρ.truth v = some !truth := hv _ (hρ.not w truth htruth)
  unfold State.negate
  split
  · next known hbool =>
    have hsame := Option.some.inj (hvalue.symm.trans (truth_of_bool hs hbool))
    rw [hρ.truth_ofBool, ← hsame, Bool.not_not]
  · next hbool =>
    rcases hknown with rfl | ⟨known, hknown⟩
    · exact htruth
    · exact absurd (hbool.symm.trans (Facts.implies_iff.1 hknown)) (by simp)

theorem replaces_negate_equality (hρ : ρ.Coherent) (hs : ρ.Satisfies s) {kind : EqualityKind}
    {l r : Value}
    (hknown : ∀ truth, s.equality kind l r = .ofBool truth → s.has (.ofBool truth) (.bool truth)) :
    ρ.Replaces (s.negate (s.equality kind l r)) (.not (.equal kind l r)) := by
  refine replaces_negate_of_replaces hρ hs (replaces_equality hρ hs kind l r) ?_
  rcases s.equality_cases kind l r with ⟨truth, hfolded⟩ | hcomposite
  · exact .inr ⟨truth, hfolded ▸ hknown truth hfolded⟩
  · exact .inl hcomposite

theorem replaces_blankness (hρ : ρ.Coherent) (hs : ρ.Satisfies s) (v : Value) (whitespace : Bool) :
    ρ.Replaces (s.blankness v whitespace) (.blank v whitespace) := by
  intro truth htruth
  simp only [State.blankness, Bool.or_eq_true]
  split
  · next hblank =>
    cases truth with
    | true => exact hρ.yes
    | false =>
      obtain ⟨e, t, he, ht, hfull⟩ := hρ.full v whitespace htruth
      rcases hblank with hnull | hshape
      · have hnull := isNull_of_has hs hnull
        rw [isNull, he] at hnull
        cases hnull
      · have hallows := (holds_string he ht).1 (holds_of_has hs hshape)
        rw [allows_blankness, hfull] at hallows
        cases hallows
  · split
    · next hcontent =>
      cases truth with
      | true =>
        have hholds := holds_of_has hs hcontent
        rcases hρ.blank v whitespace htruth with hnull | ⟨e, t, he, ht, hblank⟩
        · have hobject := holds_notNull.1 (Facts.isTrueOf_notNull rfl hholds)
          rw [hnull] at hobject
          cases hobject
        · have hallows := (holds_string he ht).1 hholds
          rw [allows_content, hblank] at hallows
          cases hallows
      | false => exact hρ.no
    · exact htruth

theorem replaces_typeTest (hρ : ρ.Coherent) (hs : ρ.Satisfies s) (v : Value) :
    ρ.Replaces (s.typeTest v) (.ofType v) := by
  intro truth htruth
  unfold State.typeTest
  split
  · next hnull =>
    cases truth with
    | true =>
      have hobject := hρ.ofType v htruth
      rw [isNull_of_has hs hnull] at hobject
      cases hobject
    | false => exact hρ.no
  · exact htruth

end Valuation

/-! ### The composites of instructions -/

/-- The composite that a call to a method of known meaning stands for, if it has the operands that
the method expects. A comparison of references has none if an argument is boxed. -/
def Method.composite? (method : Method) (receiver : Option Value) (arguments : List Value) :
    Option Value :=
  match method.known, receiver, arguments with
  | .staticEquals, _, [l, r] => some (.equal .value l r)
  | .instanceEquals, some receiver, [argument] => some (.equal .value receiver argument)
  | .referenceEquals, _, [l, r] =>
    if method.valueTypeArguments.any (· < 2) then none else some (.equal .reference l r)
  | .stringIsNullOrEmpty, _, [argument] => some (.blank argument false)
  | .stringIsNullOrWhiteSpace, _, [argument] => some (.blank argument true)
  | _, _, _ => none

namespace Instruction

/-- The composite that an instruction stands for, if it is a test. The operands are listed in the
order in which they were pushed; those of a call are the method and the arguments. -/
def composite? : Instruction → List Value → Option Value
  | .binary (.equals kind), [l, r] => some (.equal kind l r)
  | .binary (.notEquals kind), [l, r] => some (.not (.equal kind l r))
  | .unary .not, [x] => some (.not x)
  | .isType _, [x] => some (.ofType x)
  | .isPattern .null, [x] => some (.equal .reference x .null)
  | .isPattern (.type _ _), [x] => some (.ofType x)
  | .invocation method argCount, group :: arguments =>
    if arguments.length = argCount then method.composite? group.receiver? arguments else none
  | _, _ => none

/-- The operands that are not null if the instruction is carried out. -/
def validated : Instruction → List Value → List Value
  | .invocation method _, _ :: arguments => method.validatedNotNull.filterMap (arguments[·]?)
  | _, _ => []

end Instruction

/-! ### Instructions -/

namespace Transfer

variable {t : Transfer} {ρ : Valuation} {s : State} {v w : Value} {rest : List Value}

/-- A run in which a value is not null is not lost when this is learned. -/
theorem exists_narrow?_notNull (solver : Solver) (hs : ρ.Satisfies s)
    (hv : ρ.isNull v = false) : ∃ u, solver.narrow? s v .notNull = some u ∧ ρ.Satisfies u := by
  have hholds : ρ.Holds v .notNull := Valuation.holds_notNull.2 hv
  by_cases hknown : s.has v .notNull
  · exact ⟨s, by rw [Solver.narrow?, Solver.assume_of_has hknown]; rfl, hs⟩
  · obtain ⟨u, hu⟩ := Valuation.exists_record? hs hholds
    have hexplore : solver.explore s v .notNull = [u] := by
      rw [Solver.explore, assuming, if_neg hknown, hu]
    have hassume : solver.assume s v .notNull = [u] := by
      rw [Solver.assume_of_le (by rw [hexplore]; exact solver.maxForks_pos), hexplore]
    exact ⟨u, by rw [Solver.narrow?, hassume]; rfl, (Valuation.satisfies_record? hu).2 ⟨hs, hholds⟩⟩

/-- A call is carried out in every run in which the arguments that it validates are not null. -/
theorem exists_validate {arguments : List Value} {positions : List Nat} (hs : ρ.Satisfies s)
    (hvalid : ∀ x ∈ positions.filterMap (arguments[·]?), ρ.isNull x = false) :
    ∃ u, t.validate arguments positions s = some u ∧ ρ.Satisfies u := by
  induction positions generalizing s with
  | nil => exact ⟨s, rfl, hs⟩
  | cons position rest ih =>
    unfold validate
    cases hx : arguments[position]? with
    | none =>
      rw [List.filterMap_cons_none hx] at hvalid
      exact ih hs hvalid
    | some x =>
      rw [List.filterMap_cons_some hx, List.forall_mem_cons] at hvalid
      obtain ⟨u, hu, hsat⟩ := exists_narrow?_notNull t.solver hs hvalid.1
      obtain ⟨u', hu', hsat'⟩ := ih hsat hvalid.2
      exact ⟨u', by simp only [hu, Option.bind_some, hu'], hsat'⟩

/-- A method of known meaning gives what stands for its composite. -/
theorem exists_knownResult (hρ : ρ.Coherent) (hs : ρ.Satisfies s) {method : Method}
    {receiver : Option Value} {arguments : List Value}
    (hw : method.composite? receiver arguments = some w) :
    ∃ v, knownResult method arguments receiver s = some v ∧ ρ.Replaces v w := by
  unfold Method.composite? at hw
  unfold knownResult
  split at hw
  · next l r hknown =>
    cases hw
    exact ⟨_, by rw [hknown], Valuation.replaces_equality hρ hs _ l r⟩
  · next receiver argument hknown =>
    cases hw
    exact ⟨_, by rw [hknown], Valuation.replaces_equality hρ hs _ receiver argument⟩
  · next l r hknown =>
    obtain ⟨hboxed, heq⟩ := Option.ite_none_left_eq_some.1 hw
    cases heq
    exact ⟨_, by rw [hknown]; exact if_neg hboxed, Valuation.replaces_equality hρ hs _ l r⟩
  · next argument hknown =>
    cases hw
    exact ⟨_, by rw [hknown], Valuation.replaces_blankness hρ hs argument _⟩
  · next argument hknown =>
    cases hw
    exact ⟨_, by rw [hknown], Valuation.replaces_blankness hρ hs argument _⟩
  · cases hw

/-- A value that stands for the composite was pushed. -/
def Folds (ρ : Valuation) (w : Value) (rest : List Value) (r : Option (State × Supply)) : Prop :=
  ∃ u ids v, r = some (u, ids) ∧ u.stack = v :: rest ∧ ρ.Replaces v w

theorem visitInvocation_folds (hρ : ρ.Coherent) (hs : ρ.Satisfies s) {method : Method}
    {group : Value} {arguments : List Value}
    (hstack : s.stack = (group :: arguments).reverse ++ rest)
    (hw : method.composite? group.receiver? arguments = some w)
    (hvalid : ∀ x ∈ method.validatedNotNull.filterMap (arguments[·]?), ρ.isNull x = false)
    (ids : Supply) :
    ∃ r, t.visitInvocation method arguments.length s ids = .ok r ∧ Folds ρ w rest r := by
  have hstack' : s.stack = arguments.reverse ++ group :: rest := by simpa using hstack
  have hsat : ρ.Satisfies { s with stack := rest } := hs
  obtain ⟨u, hu, hsat⟩ := exists_validate (t := t) hsat hvalid
  obtain ⟨v, hv, hreplaces⟩ := exists_knownResult hρ hsat hw
  have hustack : u.stack = rest := (factsOnly_of_validate hu).stack
  refine ⟨_, ?_, (if method.keepsFields then u else t.clearFields u).push v, ids, v, rfl, ?_,
    hreplaces⟩
  · unfold visitInvocation
    rw [State.popMany_of_stack hstack']
    dsimp only [bind, Except.bind, State.pop]
    rw [hu]
    dsimp only
    rw [hv]
    rfl
  · rw [State.stack_push]
    split
    · rw [hustack]
    · exact congrArg (v :: ·) hustack

theorem visitIsPattern_folds (hρ : ρ.Coherent) (hs : ρ.Satisfies s) (type : TypeInfo)
    (designation : Designation) (hstack : s.stack = v :: rest) (ids : Supply) :
    Meets (t.Undeclared designation.symbols) (Folds ρ (.ofType v) rest)
      (t.visitIsPattern (.type type designation) s ids) := by
  have hreplaces := Valuation.replaces_typeTest hρ hs v
  unfold visitIsPattern
  rw [State.pop_of_stack hstack]
  dsimp only [bind, Except.bind]
  split
  · next hnull =>
    have hno : s.typeTest v = .no := if_pos hnull
    exact ⟨_, ids, .no, rfl, rfl, hno ▸ hreplaces⟩
  · next hobject =>
    refine (t.bindDesignation_meets { s with stack := rest } designation v ids).bind ?_
    rintro ⟨u, ids'⟩ hu
    exact ⟨_, ids', .ofType v, rfl, congrArg (Value.ofType v :: ·) hu.stack, .refl ρ _⟩

/-- A test pushes a value that has the truth of its composite in every run that the state admits, if
the run goes on after the test and the state knows the constant, if any, that a comparison for
inequality has come down to. It fails only if it binds a symbol that is not declared. -/
theorem visit_folds (t : Transfer) {i : Instruction} {s : State} {operands rest : List Value}
    {w : Value} (hstack : s.stack = operands.reverse ++ rest)
    (hw : i.composite? operands = some w) {ρ : Valuation} (hρ : ρ.Coherent) (hs : ρ.Satisfies s)
    (hvalid : ∀ x ∈ i.validated operands, ρ.isNull x = false)
    (hconstants : ∀ kind l r truth, i = .binary (.notEquals kind) → operands = [l, r] →
      s.equality kind l r = .ofBool truth → s.has (.ofBool truth) (.bool truth)) (ids : Supply) :
    Meets (t.Undeclared i.symbols) (Folds ρ w rest) (t.visit i s ids) := by
  unfold Instruction.composite? at hw
  split at hw
  · next kind l r =>
    cases hw
    have hpop : s.popMany 2 = .ok ({ s with stack := rest }, [l, r]) :=
      State.popMany_of_stack hstack
    rw [visit, visitBinary, hpop]
    exact ⟨_, ids, _, rfl, rfl, Valuation.replaces_equality hρ hs kind l r⟩
  · next kind l r =>
    cases hw
    have hpop : s.popMany 2 = .ok ({ s with stack := rest }, [l, r]) :=
      State.popMany_of_stack hstack
    have hknown := fun truth => hconstants kind l r truth rfl rfl
    rw [visit, visitBinary, hpop]
    exact ⟨_, ids, _, rfl, rfl, Valuation.replaces_negate_equality hρ hs hknown⟩
  · next x =>
    cases hw
    rw [visit, State.pop_of_stack hstack]
    exact ⟨_, ids, _, rfl, rfl,
      Valuation.replaces_negate_of_replaces hρ hs (.refl ρ x) (.inl rfl)⟩
  · next type x =>
    cases hw
    rw [visit, State.pop_of_stack hstack]
    exact ⟨_, ids, _, rfl, rfl, Valuation.replaces_typeTest hρ hs x⟩
  · next x =>
    cases hw
    rw [visit, visitIsPattern, State.pop_of_stack hstack]
    exact ⟨_, ids, _, rfl, rfl, Valuation.replaces_equality hρ hs .reference x .null⟩
  · next type designation x =>
    cases hw
    exact visitIsPattern_folds hρ hs type designation hstack ids
  · next method argCount group arguments =>
    obtain ⟨rfl, hcomposite⟩ := Option.ite_none_right_eq_some.1 hw
    obtain ⟨r, hr, hfolds⟩ := visitInvocation_folds hρ hs hstack hcomposite hvalid ids
    rw [visit, hr]
    exact hfolds
  · cases hw

end Transfer

/-- A comparison that does not return if its first argument is null. -/
def refusingEquals : Method :=
  ⟨"Equals", .staticEquals, true, ⟨"bool", .value, false, false⟩, [0], true, []⟩

/-- An unknown is about to be compared with another one that is null. -/
def comparedWithNull : State :=
  { State.initial with
    stack := [.unknown 1, .unknown 0, .unknown 2]
    facts := State.initial.facts.insert (.unknown 1) { Facts.nothing with object := some .null } }

theorem Valuation.satisfies_comparedWithNull {ρ : Valuation} (hρ : ρ.Coherent)
    (hnull : ρ.isNull (.unknown 1) = true) : ρ.Satisfies comparedWithNull := by
  have hrecord : State.initial.record? (.unknown 1) .null =
      some { comparedWithNull with stack := [] } := rfl
  exact (satisfies_record? hrecord).2 ⟨hρ.satisfies_initial, holds_null.2 hnull⟩

/-- A call that may refuse its first argument finds that it differs from the second, which is null.
Comparing a reference with itself for inequality gives false, for which it does not matter that it
was forgotten that false is false. -/
theorem Transfer.visit_folds_comparedWithNull :
    let t : Transfer := ⟨⟨[]⟩, .ofLimit 16⟩
    let ρ := Valuation.extend fun id => if id = 0 then some (.ofTruth none) else none
    let call := Instruction.invocation refusingEquals 2
    let unequal := Instruction.binary (.notEquals .reference)
    let twice : State := { State.initial.forget .no with stack := [.unknown 0, .unknown 0] }
    ρ.Coherent ∧
    (ρ.Satisfies comparedWithNull ∧ ρ.isNull (.unknown 0) = false ∧
      ρ.truth (.equal .value (.unknown 0) (.unknown 1)) = some false ∧
      Meets (t.Undeclared call.symbols) (Folds ρ (.equal .value (.unknown 0) (.unknown 1)) [])
        (t.visit call comparedWithNull .odd)) ∧
    ρ.Satisfies twice ∧ twice.has .yes (.bool true) ∧ twice.has .no (.bool false) = false ∧
      ρ.truth (.not (.equal .reference (.unknown 0) (.unknown 0))) = some false ∧
      Meets (t.Undeclared unequal.symbols)
        (Folds ρ (.not (.equal .reference (.unknown 0) (.unknown 0))) [])
        (t.visit unequal twice .odd) := by
  intro t ρ call unequal twice
  have hρ : ρ.Coherent := Valuation.extend_coherent _
  have hsat : ρ.Satisfies comparedWithNull := Valuation.satisfies_comparedWithNull hρ rfl
  have htwice : ρ.Satisfies twice := Valuation.satisfies_forget hρ.satisfies_initial .no
  refine ⟨hρ, ⟨hsat, rfl, rfl, ?_⟩, htwice, rfl, rfl, rfl, ?_⟩
  · have hstack : comparedWithNull.stack = [.unknown 2, .unknown 0, .unknown 1].reverse ++ [] := rfl
    have hw : call.composite? [.unknown 2, .unknown 0, .unknown 1] =
      some (.equal .value (.unknown 0) (.unknown 1)) := rfl
    have hvalid : ∀ x ∈ [Value.unknown 0], ρ.isNull x = false := List.forall_mem_singleton.2 rfl
    exact t.visit_folds hstack hw hρ hsat hvalid (fun _ _ _ _ => nofun) .odd
  · have hstack : twice.stack = [.unknown 0, .unknown 0].reverse ++ [] := rfl
    have hconstants : ∀ kind l r truth, unequal = .binary (.notEquals kind) →
        [Value.unknown 0, .unknown 0] = [l, r] → twice.equality kind l r = .ofBool truth →
        twice.has (.ofBool truth) (.bool truth) := by
      intro kind l r truth hkind hoperands hfolded
      have hkind : Instruction.binary (.notEquals .reference) = .binary (.notEquals kind) := hkind
      cases hkind
      cases hoperands
      cases truth with
      | true => rfl
      | false => cases hfolded
    exact t.visit_folds hstack rfl hρ htwice (List.forall_mem_nil _) hconstants .odd

/-! ### Runs that are left out -/

/-- A run in which a reference was compared with itself, and in which no other composite has a
truth. -/
def Valuation.ofSelfComparison : Valuation := fun v =>
  let same : Value := .equal .reference (.unknown 0) (.unknown 0)
  if v = .null then none
  else if v = .yes ∨ v = same then some (.ofTruth true)
  else if v = .no ∨ v = .not same then some (.ofTruth false)
  else some (.ofTruth none)

theorem Valuation.eq_of_ofSelfComparison_equal {kind : EqualityKind} {l r : Value} {truth : Bool}
    (h : ofSelfComparison.truth (.equal kind l r) = some truth) :
    l = r ∧ truth = true := by
  by_cases hsame : Value.equal kind l r = .equal .reference (.unknown 0) (.unknown 0)
  · cases hsame
    cases h
    exact ⟨rfl, rfl⟩
  · simp [Valuation.truth, ofSelfComparison, hsame, Entity.ofTruth] at h

theorem Valuation.ofSelfComparison_coherent : ofSelfComparison.Coherent where
  yes := rfl
  no := rfl
  null := rfl
  self := rfl
  not := by
    intro x truth h
    by_cases hx : x = .equal .reference (.unknown 0) (.unknown 0)
    · subst hx
      cases h
      rfl
    · simp [Valuation.truth, ofSelfComparison, hx, Entity.ofTruth] at h
  logic := by
    intro op l r truth h
    cases h
  equal := by
    intro kind l r h
    obtain ⟨rfl, -⟩ := eq_of_ofSelfComparison_equal h
    exact ⟨rfl, fun _ => rfl⟩
  unequal := by
    intro kind l r h
    obtain ⟨-, hfalse⟩ := eq_of_ofSelfComparison_equal h
    cases hfalse
  blank := by
    intro x whitespace h
    cases h
  full := by
    intro x whitespace h
    cases h
  ofType := by
    intro x h
    cases h
  hasValue := by
    intro x truth h
    cases h

/-- In a run in which both arguments are null the comparison holds, but the call that refuses its
first argument pushes false. And where it is forgotten that true is true, comparing a reference with
itself for inequality pushes the negation of true, which need not have a truth. -/
theorem Transfer.visit_not_folds :
    let t : Transfer := ⟨⟨[]⟩, .ofLimit 16⟩
    let ρ := Valuation.extend fun _ => none
    let σ := Valuation.ofSelfComparison
    let forgotten : State := { State.initial.forget .yes with stack := [.unknown 0, .unknown 0] }
    (ρ.Coherent ∧ ρ.Satisfies comparedWithNull ∧
      ρ.truth (.equal .value (.unknown 0) (.unknown 1)) = some true ∧
      ∃ u, t.visit (.invocation refusingEquals 2) comparedWithNull .odd = .ok (some (u, .odd)) ∧
        u.stack = [.no] ∧ ρ.truth .no = some false) ∧
    σ.Coherent ∧ σ.Satisfies forgotten ∧
      σ.truth (.not (.equal .reference (.unknown 0) (.unknown 0))) = some false ∧
      ∃ u, t.visit (.binary (.notEquals .reference)) forgotten .odd = .ok (some (u, .odd)) ∧
        u.stack = [.not .yes] ∧ σ.truth (.not .yes) = none := by
  intro t ρ σ forgotten
  have hρ : ρ.Coherent := Valuation.extend_coherent _
  have hσ : σ.Coherent := Valuation.ofSelfComparison_coherent
  have hforgotten : σ.Satisfies forgotten := Valuation.satisfies_forget hσ.satisfies_initial .yes
  exact ⟨⟨hρ, Valuation.satisfies_comparedWithNull hρ rfl, rfl, _, rfl, rfl, rfl⟩,
    hσ, hforgotten, rfl, _, rfl, rfl, rfl⟩

end Pathwise
