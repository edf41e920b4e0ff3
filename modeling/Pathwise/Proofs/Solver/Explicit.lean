import Pathwise.Proofs.Solver.Alternatives
import Pathwise.Proofs.Solver.Valuation

/-!
Explicit states. What a state knows about the truth of a composite says something about the operands
of the composite. The state is explicit if it knows that as well, so that nothing has to be worked
out when an operand is looked at. Comparisons are left out: what they say depends on what is known
about the operands at the time.

An assumption does not go again into an operand whose truth is known, and on the way a truth is
recorded before the facts that bear it out. What holds at every moment is that these facts are known
or still on the list of what is to be assumed (`State.ExplicitUpTo`). At the end the list is empty.
-/

namespace Pathwise

/-! ### What bears out a truth -/

/-- The facts about its operands that a truth of a value comes with are known. -/
def Value.BorneOut (known : Value → Constraint → Prop) : Value → Bool → Prop
  | .not x, truth => known x (.bool !truth)
  | .logic op l r, truth => ∃ a b, known l (.bool a) ∧ known r (.bool b) ∧ op.apply a b = truth
  | .blank x whitespace, true => known x .null ∨ known x (.string (.blankness whitespace))
  | .blank x whitespace, false => known x (.string (.content whitespace))
  | .ofType x, true => known x .notNull
  | .hasValue x, true => known x .notNull
  | .hasValue x, false => known x .null
  | _, _ => True

/-- Whatever truth the state knows, it knows the facts that bear it out. -/
def State.Explicit (s : State) : Prop :=
  ∀ v truth, s.has v (.bool truth) → v.BorneOut (fun x c => s.has x c) truth

theorem Connective.apply_of_mem_ways {op : Connective} {truth : Bool} {way : Bool × Bool}
    (h : way ∈ op.ways truth) : op.apply way.1 way.2 = truth := by
  obtain ⟨a, b⟩ := way
  revert h
  cases op <;> cases truth <;> cases a <;> cases b <;> decide

namespace Value.BorneOut

variable {known known' : Value → Constraint → Prop} {v : Value} {truth : Bool}

theorem mono (h : v.BorneOut known truth) (hsub : ∀ x c, known x c → known' x c) :
    v.BorneOut known' truth := by
  cases v with
  | not x => exact hsub _ _ h
  | logic op l r =>
    obtain ⟨a, b, ha, hb, hab⟩ := h
    exact ⟨a, b, hsub _ _ ha, hsub _ _ hb, hab⟩
  | blank x whitespace =>
    cases truth with
    | true => exact h.imp (hsub _ _) (hsub _ _)
    | false => exact hsub _ _ h
  | ofType x =>
    cases truth with
    | true => exact hsub _ _ h
    | false => trivial
  | hasValue x => cases truth <;> exact hsub _ _ h
  | unknown | constant | equal | member | group => trivial

/-- Each of the ways in which a truth comes about bears it out. -/
theorem of_mem_alternatives {s : State} {facts : List (Value × Constraint)}
    (hfacts : facts ∈ v.alternatives truth s) (hknown : ∀ k ∈ facts, known k.1 k.2) :
    v.BorneOut known truth := by
  have hone : ∀ {x c}, (∀ k ∈ [(x, c)], known k.1 k.2) → known x c :=
    fun h => h _ List.mem_cons_self
  cases v with
  | not x =>
    obtain rfl := List.mem_singleton.1 hfacts
    exact hone hknown
  | logic op l r =>
    obtain ⟨way, hway, rfl⟩ := List.mem_map.1 hfacts
    obtain ⟨hl, hr⟩ := List.forall_mem_cons.1 hknown
    exact ⟨way.1, way.2, hl, hone hr, Connective.apply_of_mem_ways hway⟩
  | blank x whitespace =>
    cases truth with
    | true =>
      rcases List.mem_cons.1 hfacts with rfl | hfacts
      · exact .inl (hone hknown)
      · obtain rfl := List.mem_singleton.1 hfacts
        exact .inr (hone hknown)
    | false =>
      obtain rfl := List.mem_singleton.1 hfacts
      exact hone hknown
  | ofType x =>
    cases truth with
    | true =>
      obtain rfl := List.mem_singleton.1 hfacts
      exact hone hknown
    | false => trivial
  | hasValue x =>
    obtain rfl := List.mem_singleton.1 hfacts
    cases truth <;> exact hone hknown
  | unknown | constant | equal | member | group => trivial

end Value.BorneOut

/-! ### What holds on the way -/

/-- Whatever truth the state knows, the facts that bear it out are known or on the list. -/
def State.ExplicitUpTo (todo : List (Value × Constraint)) (s : State) : Prop :=
  ∀ v truth, s.has v (.bool truth) → v.BorneOut (fun x c => s.has x c ∨ (x, c) ∈ todo) truth

namespace State

variable {s t : State} {v : Value} {c : Constraint} {facts rest todo : List (Value × Constraint)}

theorem Explicit.upTo (hs : s.Explicit) (todo : List (Value × Constraint)) : s.ExplicitUpTo todo :=
  fun v truth hv => (hs v truth hv).mono fun _ _ => .inl

/-- A known fact need not be on the list. -/
theorem ExplicitUpTo.drop (hs : s.ExplicitUpTo ((v, c) :: rest)) (hknown : s.has v c) :
    s.ExplicitUpTo rest := by
  intro w truth hw
  refine (hs w truth hw).mono fun x k hk => ?_
  rcases hk with hk | hk
  · exact .inl hk
  · rcases List.mem_cons.1 hk with heq | hk
    · obtain ⟨rfl, rfl⟩ := Prod.mk.inj heq
      exact .inl hknown
    · exact .inr hk

/-- A fact that is recorded leaves the list, and the facts that come with it are put there. -/
theorem ExplicitUpTo.record (hs : s.ExplicitUpTo ((v, c) :: rest))
    (hrecord : s.record? v c = some t) (hfacts : facts ∈ v.consequences c t) :
    t.ExplicitUpTo (facts ++ rest) := by
  intro w truth hw
  rcases has_bool_of_record? hrecord hw with hold | ⟨rfl, rfl⟩
  · refine (hs w truth hold).mono fun x k hk => ?_
    rcases hk with hk | hk
    · exact .inl (has_of_record? hrecord hk)
    · rcases List.mem_cons.1 hk with heq | hk
      · obtain ⟨rfl, rfl⟩ := Prod.mk.inj heq
        exact .inl (has_record? hrecord)
      · exact .inr (List.mem_append_right _ hk)
  · exact .of_mem_alternatives hfacts fun k hk => .inr (List.mem_append_left _ hk)

/-- Once the list is worked off, the state is explicit. -/
theorem Completes.explicit (h : Completes todo s t) (hs : s.ExplicitUpTo todo) : t.Explicit := by
  induction h with
  | done s =>
    intro v truth hv
    exact (hs v truth hv).mono fun x c hc => hc.resolve_right List.not_mem_nil
  | known hknown _ ih => exact ih (hs.drop hknown)
  | record _ hrecord hfacts _ ih => exact ih (hs.record hrecord hfacts)

/-- At the start only the truth of constants is known. -/
theorem explicit_initial : initial.Explicit := by
  intro v truth hv
  cases v with
  | constant c => trivial
  | _ =>
    rw [has, factsOf_initial] at hv
    exact absurd hv Bool.false_ne_true

end State

/-! ### Assumptions make truths explicit -/

/-- The initial state is explicit. From an explicit state, an assumption leads to explicit states in
which the assumed fact is known, as long as there are not too many of them. -/
theorem Solver.assume_keeps_explicit :
    State.initial.Explicit ∧
      ∀ (solver : Solver) (s : State) (v : Value) (c : Constraint), s.Explicit →
        (solver.explore s v c).length ≤ solver.maxForks →
        ∀ t ∈ solver.assume s v c, t.Explicit ∧ t.has v c := by
  refine ⟨State.explicit_initial, fun solver s v c hs hfew t ht => ⟨?_, has_of_mem_assume ht⟩⟩
  rw [assume_of_le hfew] at ht
  exact (State.Completes.of_mem_assumeFact v c s t hfew ht).explicit (hs.upTo _)

/-- A value of the form `!(a & IsNullOrEmpty(b))`. -/
def notBothBlank : Value := .not (.logic .and (.unknown 0) (.blank (.unknown 1) false))

/-- That `!(a & IsNullOrEmpty(b))` is true comes about in four ways, and the state of each says what
holds of `a` and of `b`. -/
theorem Solver.assume_keeps_explicit_notBothBlank :
    ((ofLimit 16).assume .initial notBothBlank (.bool true)).length = 4 ∧
      ∀ t ∈ (ofLimit 16).assume .initial notBothBlank (.bool true),
        t.Explicit ∧ t.has notBothBlank (.bool true) := by
  have hfew : ((ofLimit 16).explore .initial notBothBlank (.bool true)).length = 4 := by
    decide +kernel
  have hlimit : ((ofLimit 16).explore .initial notBothBlank (.bool true)).length ≤
      (ofLimit 16).maxForks := by
    rw [hfew]
    decide
  obtain ⟨hinitial, hkeeps⟩ := assume_keeps_explicit
  exact ⟨by rw [assume_of_le hlimit, hfew], hkeeps _ _ _ _ hinitial hlimit⟩

end Pathwise
