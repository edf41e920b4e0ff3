import Pathwise.Proofs.Solver.Narrowing

/-!
What the limit on the number of states does to an assumption. A truth comes about in one of several
ways, and each way is a list of facts about operands (`Value.alternatives`). To assume the truth is
to take every way on its own, and to take a way is to assume all its facts in turn, which may lead
to facts about operands of operands. `State.Completes` says what it means to have taken a way to its
end, without regard to any limit.

The limit stops the work in the middle of a way. Where it does, there are more states than it
allows. Every enclosing step passes them on or adds to them, so at the top it is seen that something
was cut off, and the assumption falls back on recording the fact. A state that went only part of a
way is never given out.
-/

namespace Pathwise

/-! ### The ways in which a truth comes about -/

namespace Value

/-- The ways in which a value can have a truth: each is a list of facts about operands. A truth that
says nothing about operands comes about in one way, which has no facts. One that is impossible in
the state comes about in none. -/
def alternatives : Value → Bool → State → List (List (Value × Constraint))
  | .not x, truth, _ => [[(x, .bool !truth)]]
  | .logic op l r, truth, _ =>
    (op.ways truth).map fun way => [(l, .bool way.1), (r, .bool way.2)]
  | .equal kind l r, truth, s =>
    (equalityFacts kind truth l r s).toList.map fun facts =>
      facts.map fun k => (operandAt l r k.1, k.2)
  | .blank x whitespace, true, _ => [[(x, .null)], [(x, .string (.blankness whitespace))]]
  | .blank x whitespace, false, _ => [[(x, .string (.content whitespace))]]
  | .ofType x, true, _ => [[(x, .notNull)]]
  | .hasValue x, truth, _ => [[(x, if truth then .notNull else .null)]]
  | _, _, _ => [[]]

/-- The ways in which a fact can be true of a value. Only a truth says something about operands. -/
def consequences (v : Value) (c : Constraint) (s : State) : List (List (Value × Constraint)) :=
  match c with
  | .bool truth => v.alternatives truth s
  | _ => [[]]

theorem operandAt_mem (l r : Value) (side : Side) : operandAt l r side ∈ [l, r] := by
  cases side <;> simp [operandAt]

/-- Every way speaks of operands only. -/
theorem mem_operands_of_mem_alternatives {v : Value} {truth : Bool} {s : State}
    {facts : List (Value × Constraint)} (h : facts ∈ v.alternatives truth s) :
    ∀ k ∈ facts, k.1 ∈ v.operands := by
  intro k hk
  cases v with
  | unknown | constant | member | group => simp_all [alternatives]
  | not x | hasValue x => simp_all [alternatives, operands]
  | blank x whitespace =>
    cases truth with
    | true =>
      simp only [alternatives, List.mem_cons, List.not_mem_nil, or_false] at h
      rcases h with rfl | rfl <;> simp_all [operands]
    | false => simp_all [alternatives, operands]
  | ofType x => cases truth <;> simp_all [alternatives, operands]
  | logic op l r =>
    obtain ⟨way, -, rfl⟩ := List.mem_map.1 h
    simp only [List.mem_cons, List.not_mem_nil, or_false] at hk
    rcases hk with rfl | rfl <;> simp [operands]
  | equal kind l r =>
    obtain ⟨sides, -, rfl⟩ := List.mem_map.1 h
    obtain ⟨j, -, rfl⟩ := List.mem_map.1 hk
    exact operandAt_mem l r j.1

theorem mem_operands_of_mem_consequences {v : Value} {c : Constraint} {s : State}
    {facts : List (Value × Constraint)} (h : facts ∈ v.consequences c s) :
    ∀ k ∈ facts, k.1 ∈ v.operands := by
  cases c with
  | bool truth => exact mem_operands_of_mem_alternatives h
  | _ => simp_all [consequences]

end Value

/-- Assumes a fact about a value, with all that follows for its operands. -/
def assumeFact (limit : Nat) (k : Value × Constraint) : State → List State :=
  assuming (propagate limit k.1) k.1 k.2

/-- Assumes all facts of a way, one after the other. -/
def assumeAll (limit : Nat) (s : State) (facts : List (Value × Constraint)) : List State :=
  inTurn limit (facts.map (assumeFact limit)) [s]

theorem assumeAll_singleton (limit : Nat) (s : State) (k : Value × Constraint) :
    assumeAll limit s [k] = assumeFact limit k s := by
  simp [assumeAll, inTurn]

/-- To carry a truth on to the operands is to take each way in which it comes about. -/
theorem propagate_eq (limit : Nat) (v : Value) (truth : Bool) (s : State) :
    propagate limit v truth s = (v.alternatives truth s).flatMap (assumeAll limit s) := by
  cases v with
  | unknown | constant | member | group => rfl
  | not x | hasValue x =>
    rw [Value.alternatives, List.flatMap_singleton, assumeAll_singleton]
    rfl
  | logic op l r =>
    rw [propagate_logic, Value.alternatives, List.flatMap_map]
    rfl
  | equal kind l r =>
    rw [Value.alternatives]
    cases hfacts : equalityFacts kind truth l r s with
    | none => exact propagate_equal_of_none hfacts
    | some facts =>
      rw [propagate_equal hfacts, Option.toList_some, List.map_singleton, List.flatMap_singleton,
        assumeAll, List.map_map]
      rfl
  | blank x whitespace =>
    cases truth with
    | true =>
      simp only [Value.alternatives, List.flatMap_cons, List.flatMap_nil, assumeAll_singleton]
      rfl
    | false =>
      rw [Value.alternatives, List.flatMap_singleton, assumeAll_singleton]
      rfl
  | ofType x =>
    cases truth with
    | true =>
      rw [Value.alternatives, List.flatMap_singleton, assumeAll_singleton]
      rfl
    | false => rfl

/-- A fact that is known changes nothing; one that is new is recorded, and then each of the ways in
which it can be true is taken. -/
theorem assumeFact_of_has {limit : Nat} {v : Value} {c : Constraint} {s : State} (h : s.has v c) :
    assumeFact limit (v, c) s = [s] := if_pos h

theorem assumeFact_of_none {limit : Nat} {v : Value} {c : Constraint} {s : State} (h : ¬s.has v c)
    (hrecord : s.record? v c = none) : assumeFact limit (v, c) s = [] := by
  rw [assumeFact, assuming, if_neg h, hrecord]

theorem assumeFact_of_some {limit : Nat} {v : Value} {c : Constraint} {s t : State}
    (h : ¬s.has v c) (hrecord : s.record? v c = some t) :
    assumeFact limit (v, c) s = (v.consequences c t).flatMap (assumeAll limit t) := by
  rw [assumeFact, assuming, if_neg h, hrecord]
  cases c with
  | bool truth => exact propagate_eq limit v truth t
  | _ => rfl

/-! ### Higher limits -/

/-- The second list is the first, unless the first is longer than the limit. -/
def Stays (limit : Nat) (states states' : List State) : Prop :=
  limit < states.length ∨ states' = states

section

variable {limit limit' : Nat}

/-- If any part has too many states, the whole has. -/
theorem stays_flatMap {α : Type} {f g : α → List State} {xs : List α}
    (h : ∀ x ∈ xs, Stays limit (f x) (g x)) : Stays limit (xs.flatMap f) (xs.flatMap g) := by
  induction xs with
  | nil => exact .inr rfl
  | cons x xs ih =>
    have hlength : (f x ++ xs.flatMap f).length = (f x).length + (xs.flatMap f).length :=
      List.length_append
    rw [List.flatMap_cons, List.flatMap_cons]
    rcases h x List.mem_cons_self with hx | hx
    · exact .inl (by omega)
    · rcases ih fun y hy => h y (List.mem_cons_of_mem _ hy) with hxs | hxs
      · exact .inl (by omega)
      · exact .inr (by rw [hx, hxs])

/-- Assumptions in turn stop where there are too many states, and these are passed on. -/
theorem inTurn_of_over {f : State → List State} {rest : List (State → List State)}
    {states : List State} (h : limit < (states.flatMap f).length) :
    inTurn limit (f :: rest) states = states.flatMap f := by
  rw [inTurn, if_pos (Bool.or_eq_true_iff.2 (.inr (decide_eq_true h)))]

/-- They go on otherwise. To stop where no state is left makes no difference. -/
theorem inTurn_of_le {f : State → List State} {rest : List (State → List State)}
    {states : List State} (h : (states.flatMap f).length ≤ limit) :
    inTurn limit (f :: rest) states = inTurn limit rest (states.flatMap f) := by
  rw [inTurn]
  generalize states.flatMap f = left at h ⊢
  cases left with
  | nil => cases rest <;> simp [inTurn]
  | cons t left => exact if_neg (by simpa using h)

theorem stays_inTurn {κ : Type} {f g : κ → State → List State} {ks : List κ}
    (hlimit : limit ≤ limit') (h : ∀ k ∈ ks, ∀ s, Stays limit (f k s) (g k s))
    (states : List State) :
    Stays limit (inTurn limit (ks.map f) states) (inTurn limit' (ks.map g) states) := by
  induction ks generalizing states with
  | nil => exact .inr rfl
  | cons k ks ih =>
    rw [List.map_cons, List.map_cons]
    rcases stays_flatMap fun s (_ : s ∈ states) => h k List.mem_cons_self s with hover | hsame
    · rw [inTurn_of_over hover]
      exact .inl hover
    · by_cases hover : limit < (states.flatMap (f k)).length
      · rw [inTurn_of_over hover]
        exact .inl hover
      · rw [inTurn_of_le (by omega), inTurn_of_le (by rw [hsame]; omega), hsame]
        exact ih (fun k' hk' => h k' (List.mem_cons_of_mem _ hk')) _

/-- A higher limit leads to the same states, unless the lower one was exceeded. -/
theorem stays_assumeFact (hlimit : limit ≤ limit') (v : Value) :
    ∀ c s, Stays limit (assumeFact limit (v, c) s) (assumeFact limit' (v, c) s) := by
  induction v using Value.operands_induction with
  | step v ih =>
    intro c s
    by_cases hknown : s.has v c
    · rw [assumeFact_of_has hknown, assumeFact_of_has hknown]
      exact .inr rfl
    · cases hrecord : s.record? v c with
      | none =>
        rw [assumeFact_of_none hknown hrecord, assumeFact_of_none hknown hrecord]
        exact .inr rfl
      | some t =>
        rw [assumeFact_of_some hknown hrecord, assumeFact_of_some hknown hrecord]
        refine stays_flatMap fun facts hfacts => stays_inTurn hlimit (fun k hk u => ?_) [t]
        exact ih k.1 (Value.mem_operands_of_mem_consequences hfacts k hk) k.2 u

end

/-! ### Ways taken to the end -/

/-- The second state comes about from the first by assuming every fact of a list. A fact that is
known changes nothing. One that is new is recorded, and all facts of one of its ways are to be
assumed as well. -/
inductive State.Completes : List (Value × Constraint) → State → State → Prop where
  | done (s : State) : Completes [] s s
  | known {v : Value} {c : Constraint} {rest : List (Value × Constraint)} {s t : State}
      (hknown : s.has v c) (h : Completes rest s t) : Completes ((v, c) :: rest) s t
  | record {v : Value} {c : Constraint} {facts rest : List (Value × Constraint)} {s t u : State}
      (hnew : ¬s.has v c) (hrecord : s.record? v c = some t) (hfacts : facts ∈ v.consequences c t)
      (h : Completes (facts ++ rest) t u) : Completes ((v, c) :: rest) s u

namespace State.Completes

variable {limit : Nat} {s t u : State} {facts rest : List (Value × Constraint)}

theorem append (h : Completes facts s t) (h' : Completes rest t u) :
    Completes (facts ++ rest) s u := by
  induction h with
  | done => exact h'
  | known hknown _ ih => exact .known hknown (ih h')
  | record hnew hrecord hfacts _ ih =>
    exact .record hnew hrecord hfacts (List.append_assoc .. ▸ ih h')

/-- Where assumptions in turn were not stopped, each of them was made. -/
theorem of_mem_inTurn {ks : List (Value × Constraint)}
    (hone : ∀ k ∈ ks, ∀ s t, (assumeFact limit k s).length ≤ limit → t ∈ assumeFact limit k s →
      Completes [k] s t) {states : List State}
    (hfew : (inTurn limit (ks.map (assumeFact limit)) states).length ≤ limit)
    (ht : t ∈ inTurn limit (ks.map (assumeFact limit)) states) :
    ∃ s ∈ states, Completes ks s t := by
  induction ks generalizing states with
  | nil => exact ⟨t, ht, .done t⟩
  | cons k ks ih =>
    rw [List.map_cons] at hfew ht
    by_cases hover : limit < (states.flatMap (assumeFact limit k)).length
    · rw [inTurn_of_over hover] at hfew
      omega
    · rw [inTurn_of_le (by omega)] at hfew ht
      obtain ⟨u, hu, hut⟩ := ih (fun k' hk' => hone k' (List.mem_cons_of_mem _ hk')) hfew ht
      obtain ⟨s, hs, hsu⟩ := List.mem_flatMap.1 hu
      have hpart : (assumeFact limit k s).length ≤ (states.flatMap (assumeFact limit k)).length :=
        (List.sublist_flatten_of_mem (List.mem_map_of_mem hs)).length_le
      exact ⟨s, hs, (hone k List.mem_cons_self s u (by omega) hsu).append hut⟩

/-- Where there are not too many states, nothing was cut off. -/
theorem of_mem_assumeFact (v : Value) :
    ∀ c s t, (assumeFact limit (v, c) s).length ≤ limit → t ∈ assumeFact limit (v, c) s →
      Completes [(v, c)] s t := by
  induction v using Value.operands_induction with
  | step v ih =>
    intro c s t hfew ht
    by_cases hknown : s.has v c
    · rw [assumeFact_of_has hknown] at ht
      obtain rfl := List.mem_singleton.1 ht
      exact .known hknown (.done _)
    · cases hrecord : s.record? v c with
      | none =>
        rw [assumeFact_of_none hknown hrecord] at ht
        exact absurd ht List.not_mem_nil
      | some u =>
        rw [assumeFact_of_some hknown hrecord] at hfew ht
        obtain ⟨facts, hfacts, htaken⟩ := List.mem_flatMap.1 ht
        have hpart : (assumeAll limit u facts).length ≤
            ((v.consequences c u).flatMap (assumeAll limit u)).length :=
          (List.sublist_flatten_of_mem (List.mem_map_of_mem hfacts)).length_le
        obtain ⟨u', hu', htaken⟩ := of_mem_inTurn
          (fun k hk => ih k.1 (Value.mem_operands_of_mem_consequences hfacts k hk) k.2)
          (Nat.le_trans hpart hfew) htaken
        obtain rfl := List.mem_singleton.1 hu'
        exact .record hknown hrecord hfacts (by rwa [List.append_nil])

end State.Completes

/-! ### What the limit does -/

namespace Solver

/-- An assumption leads to no more states than the limit allows. They are those to which a higher
limit leads, each with all facts of the ways that it took; or else the fact is recorded about the
value and nothing more is. -/
theorem assume_eq_or_records (small large : Solver) (hlimit : small.maxForks ≤ large.maxForks)
    (s : State) (v : Value) (c : Constraint) :
    (small.assume s v c).length ≤ small.maxForks ∧
      ((small.assume s v c = large.assume s v c ∧
          ∀ t ∈ small.assume s v c, State.Completes [(v, c)] s t) ∨
        small.assume s v c = (s.record? v c).toList) := by
  refine ⟨small.length_assume_le s v c, ?_⟩
  by_cases hover : small.maxForks < (small.explore s v c).length
  · exact .inr (assume_of_lt hover)
  · have hfew : (small.explore s v c).length ≤ small.maxForks := Nat.not_lt.1 hover
    have hsame : large.explore s v c = small.explore s v c :=
      (stays_assumeFact hlimit v c s).resolve_left hover
    refine .inl ⟨?_, fun t ht => ?_⟩
    · rw [assume_of_le hfew, assume_of_le (by rw [hsame]; omega), hsame]
    · rw [assume_of_le hfew] at ht
      exact .of_mem_assumeFact v c s t hfew ht

/-- A value of the form `(a | b) & c`. -/
def eitherAndThird : Value := .logic .and (.logic .or (.unknown 0) (.unknown 1)) (.unknown 2)

/-- That `(a | b) & c` is true comes about in three ways. With a limit of two the work stops before
`c` is reached, and none of the three states is given out. -/
theorem assume_eq_or_records_nested :
    ((ofLimit 3).assume .initial eitherAndThird (.bool true)).length = 3 ∧
      (ofLimit 3).assume .initial eitherAndThird (.bool true) =
        (ofLimit 16).assume .initial eitherAndThird (.bool true) ∧
      (∀ t ∈ (ofLimit 3).assume .initial eitherAndThird (.bool true),
        State.Completes [(eitherAndThird, .bool true)] .initial t) ∧
      (ofLimit 2).assume .initial eitherAndThird (.bool true) =
        (State.initial.record? eitherAndThird (.bool true)).toList := by
  have hthree : ((ofLimit 3).assume .initial eitherAndThird (.bool true)).length = 3 := by
    decide +kernel
  have hrecord : (State.initial.record? eitherAndThird (.bool true)).toList.length ≤ 1 :=
    Option.length_toList_le
  obtain ⟨-, ⟨hsame, hcomplete⟩ | hplain⟩ := assume_eq_or_records (ofLimit 3) (ofLimit 16)
    (by decide) .initial eitherAndThird (.bool true)
  · obtain ⟨hlength, ⟨hsmall, -⟩ | hcut⟩ := assume_eq_or_records (ofLimit 2) (ofLimit 3)
      (by decide) .initial eitherAndThird (.bool true)
    · rw [hsmall, hthree] at hlength
      exact absurd hlength (by decide)
    · exact ⟨hthree, hsame, hcomplete, hcut⟩
  · rw [← hplain, hthree] at hrecord
    exact absurd hrecord (by decide)

end Solver

end Pathwise
