import Pathwise.Symbolic.Solver
import Pathwise.Symbolic.State.Lemmas

/-!
How an assumption changes a state: by recording facts, one after the other, about parts of the
value that the assumption is made of, and in no other way. What recording a fact keeps, an
assumption keeps, so whatever is to be said about all states that an assumption leads to follows by
induction on `Narrows`. That a lock is held is not among the facts that are carried on to parts: it
is only recorded if it is assumed itself.

So assumptions only add facts, and only about parts of the value; and since the fact itself is among
them, to assume it a second time changes nothing.
-/

namespace Pathwise

/-- The second state comes about from the first by recording facts of a kind. -/
inductive State.Narrows (about : Value → Constraint → Prop) : State → State → Prop where
  | refl (s : State) : Narrows about s s
  | record {s t u : State} {v : Value} {c : Constraint} (h : Narrows about s t) (hv : about v c)
      (hu : t.record? v c = some u) : Narrows about s u

namespace State.Narrows

variable {about : Value → Constraint → Prop} {s t u : State}

theorem trans (h : Narrows about s t) (h' : Narrows about t u) : Narrows about s u := by
  induction h' with
  | refl => exact h
  | record _ hv hu ih => exact .record ih hv hu

theorem mono {about' : Value → Constraint → Prop} (hsub : ∀ v c, about v c → about' v c)
    (h : Narrows about s t) : Narrows about' s t := by
  induction h with
  | refl => exact .refl _
  | record _ hv hu ih => exact .record ih (hsub _ _ hv) hu

/-- What every such fact keeps when it is recorded, they all keep. -/
theorem keeps {P : State → Prop} (h : Narrows about s t)
    (hrecord : ∀ {s t v c}, about v c → s.record? v c = some t → P s → P t) (hs : P s) : P t := by
  induction h with
  | refl => exact hs
  | record _ hv hu ih => exact hrecord hv hu ih

/-- What is known stays known. -/
theorem has {w : Value} {k : Constraint} (h : Narrows about s t) (hw : s.has w k) : t.has w k :=
  h.keeps (fun _ hu => has_of_record? hu) hw

/-- Nothing is learned about a value of which no fact is recorded. -/
theorem factsOf_eq {w : Value} (h : Narrows about s t) (hw : ∀ c, ¬about w c) :
    t.factsOf w = s.factsOf w := by
  induction h with
  | refl => rfl
  | @record t u v c _ hv hu ih =>
    have hvw : v ≠ w := by
      rintro rfl
      exact hw c hv
    have hfacts := factsOf_record? hu w
    rw [if_neg hvw] at hfacts
    rw [Option.some.inj hfacts, ih]

end State.Narrows

/-- The second state differs from the first in its facts at most. -/
structure State.FactsOnly (s t : State) : Prop where
  stack : t.stack = s.stack
  bindings : t.bindings = s.bindings
  visits : t.visits = s.visits

namespace State.FactsOnly

variable {s t u : State}

theorem refl (s : State) : FactsOnly s s := ⟨rfl, rfl, rfl⟩

theorem trans (h : FactsOnly s t) (h' : FactsOnly t u) : FactsOnly s u :=
  ⟨h'.stack.trans h.stack, h'.bindings.trans h.bindings, h'.visits.trans h.visits⟩

theorem of_record? {v : Value} {c : Constraint} (h : s.record? v c = some t) : FactsOnly s t := by
  obtain ⟨facts, -, rfl⟩ := Option.map_eq_some_iff.1 h
  exact ⟨rfl, rfl, rfl⟩

theorem of_narrows {about : Value → Constraint → Prop} (h : Narrows about s t) : FactsOnly s t := by
  induction h with
  | refl => exact .refl _
  | record _ _ hu ih => exact ih.trans (of_record? hu)

theorem forgetIn (s : State) (v : Value) (d : Domain) : FactsOnly s (s.forgetIn v d) :=
  ⟨rfl, rfl, rfl⟩

end State.FactsOnly

/-- The second state comes about from the first by recording facts, and by forgetting what was known
of values as collections and as locks. -/
inductive State.Learns : State → State → Prop where
  | refl (s : State) : Learns s s
  | record {s t u : State} {v : Value} {c : Constraint} (h : Learns s t)
      (hu : t.record? v c = some u) : Learns s u
  | forget {s t : State} {d : Domain} (h : Learns s t) (v : Value)
      (hd : d = .collection ∨ d = .lock) : Learns s (t.forgetIn v d)

namespace State.Learns

variable {s t u : State}

theorem factsOnly (h : Learns s t) : FactsOnly s t := by
  induction h with
  | refl => exact .refl _
  | record _ hu ih => exact ih.trans (.of_record? hu)
  | forget _ v _ ih => exact ih.trans (.forgetIn _ v _)

end State.Learns

/-! ### The operands of a composite -/

/-- The operand on a side. -/
def operandAt (l r : Value) : Side → Value
  | .left => l
  | .right => r

/-- Assumes a fact about the operand on a side. -/
def assumeOperand (limit : Nat) (l r : Value) (k : Side × Constraint) : State → List State :=
  assuming (propagate limit (operandAt l r k.1)) (operandAt l r k.1) k.2

theorem propagate_logic (limit : Nat) (op : Connective) (l r : Value) (truth : Bool) (s : State) :
    propagate limit (.logic op l r) truth s = (op.ways truth).flatMap fun way =>
      inTurn limit
        ([(Side.left, Constraint.bool way.1), (.right, .bool way.2)].map (assumeOperand limit l r))
        [s] :=
  rfl

theorem propagate_equal {limit : Nat} {kind : EqualityKind} {l r : Value} {truth : Bool} {s : State}
    {facts : List (Side × Constraint)} (h : equalityFacts kind truth l r s = some facts) :
    propagate limit (.equal kind l r) truth s =
      inTurn limit (facts.map (assumeOperand limit l r)) [s] := by
  unfold propagate
  rw [h]
  refine congrArg (fun f => inTurn limit (facts.map f) [s]) ?_
  funext ⟨side, c⟩
  cases side <;> rfl

theorem propagate_equal_of_none {limit : Nat} {kind : EqualityKind} {l r : Value} {truth : Bool}
    {s : State} (h : equalityFacts kind truth l r s = none) :
    propagate limit (.equal kind l r) truth s = [] := by
  unfold propagate
  rw [h]

/-- What is known about operands that compare equal or do not: nothing about locks. -/
theorem ne_held_of_equalityFacts {kind : EqualityKind} {truth : Bool} {l r : Value} {s : State}
    {facts : List (Side × Constraint)} (h : equalityFacts kind truth l r s = some facts) :
    ∀ k ∈ facts, k.2 ≠ .held := by
  have hshared : ∀ source target, ∀ k ∈ sharedFacts kind source target s, k.2 ≠ .held := by
    intro source target k hk
    obtain ⟨c, hc, rfl⟩ := List.mem_map.1 hk
    rcases List.mem_append.1 hc with hc | hc
    · obtain ⟨n, -, rfl⟩ := Option.map_eq_some_iff.1 (Option.mem_toList.1 hc)
      simp
    · split at hc
      · obtain ⟨b, -, rfl⟩ := Option.map_eq_some_iff.1 (Option.mem_toList.1 hc)
        simp
      · exact absurd hc List.not_mem_nil
  have hopposed : ∀ source target, ∀ k ∈ opposedFacts kind source target s, k.2 ≠ .held := by
    intro source target k hk
    obtain ⟨c, hc, rfl⟩ := List.mem_map.1 hk
    rcases List.mem_append.1 hc with hc | hc
    · split at hc
      · obtain rfl := List.mem_singleton.1 hc
        simp
      · exact absurd hc List.not_mem_nil
    · obtain ⟨b, -, rfl⟩ := Option.map_eq_some_iff.1 (Option.mem_toList.1 hc)
      simp
  have hboth : ∀ {xs ys : List (Side × Constraint)}, (∀ k ∈ xs, k.2 ≠ .held) →
      (∀ k ∈ ys, k.2 ≠ .held) → ∀ k ∈ xs ++ ys, k.2 ≠ .held := fun hxs hys k hk =>
    (List.mem_append.1 hk).elim (hxs k) (hys k)
  unfold equalityFacts at h
  split at h
  · split at h
    · obtain rfl := Option.some.inj h
      exact fun k hk => absurd hk List.not_mem_nil
    · obtain rfl := Option.some.inj h
      exact hboth (hshared l .right) (hshared r .left)
  · split at h
    · cases h
    · obtain rfl := Option.some.inj h
      exact hboth (hopposed l .right) (hopposed r .left)

/-! ### The steps of an assumption -/

section

variable {about : Value → Constraint → Prop} {s t : State}

theorem narrows_of_mem_assuming {deeper : Bool → State → List State} {v : Value} {c : Constraint}
    (hv : about v c)
    (hdeeper : ∀ truth s t, t ∈ deeper truth s → State.Narrows about s t)
    (h : t ∈ assuming deeper v c s) : State.Narrows about s t := by
  unfold assuming at h
  split at h
  · obtain rfl := List.mem_singleton.1 h
    exact .refl _
  · cases hrecord : s.record? v c with
    | none => simp [hrecord] at h
    | some u =>
      have hu : State.Narrows about s u := .record (.refl s) hv hrecord
      rw [hrecord] at h
      cases c with
      | bool truth => exact hu.trans (hdeeper truth u t h)
      | _ =>
        obtain rfl := List.mem_singleton.1 h
        exact hu

/-- What was assumed is known. -/
theorem has_of_mem_assuming {deeper : Bool → State → List State} {v : Value} {c : Constraint}
    (hdeeper : ∀ truth s t, t ∈ deeper truth s → State.Narrows about s t)
    (h : t ∈ assuming deeper v c s) : t.has v c := by
  unfold assuming at h
  split at h
  · next hknown =>
    obtain rfl := List.mem_singleton.1 h
    exact hknown
  · cases hrecord : s.record? v c with
    | none => simp [hrecord] at h
    | some u =>
      have hu : u.has v c := State.has_record? hrecord
      rw [hrecord] at h
      cases c with
      | bool truth => exact (hdeeper truth u t h).has hu
      | _ =>
        obtain rfl := List.mem_singleton.1 h
        exact hu

theorem narrows_of_mem_inTurn {limit : Nat} {assumptions : List (State → List State)}
    (hassume : ∀ f ∈ assumptions, ∀ s t, t ∈ f s → State.Narrows about s t)
    {states : List State} (h : t ∈ inTurn limit assumptions states) :
    ∃ s ∈ states, State.Narrows about s t := by
  induction assumptions generalizing states with
  | nil => exact ⟨t, h, .refl t⟩
  | cons f rest ih =>
    have hfirst : ∀ u ∈ states.flatMap f, ∃ s ∈ states, State.Narrows about s u := by
      intro u hu
      obtain ⟨s, hs, hu⟩ := List.mem_flatMap.1 hu
      exact ⟨s, hs, hassume f List.mem_cons_self s u hu⟩
    rw [inTurn] at h
    split at h
    · exact hfirst t h
    · obtain ⟨u, hu, hut⟩ := ih (fun f' hf' => hassume f' (List.mem_cons_of_mem _ hf')) h
      obtain ⟨s, hs, hsu⟩ := hfirst u hu
      exact ⟨s, hs, hsu.trans hut⟩

end

namespace Solver

variable {limit : Nat} {s t : State}

/-- The facts that the truth of a value can carry on: they are about its parts. -/
def Carried (v w : Value) (c : Constraint) : Prop := w ∈ v.parts ∧ c ≠ .held

theorem Carried.mono {v x : Value} (hx : ∀ w ∈ x.parts, w ∈ v.parts) (w : Value) (c : Constraint) :
    Carried x w c → Carried v w c
  | ⟨hw, hc⟩ => ⟨hx w hw, hc⟩

/-- What is carried on to a part of a value is about parts of the value. -/
theorem narrows_of_mem_operand {v x : Value} {c : Constraint} (hx : ∀ w ∈ x.parts, w ∈ v.parts)
    (hc : c ≠ .held)
    (ih : ∀ truth s t, t ∈ propagate limit x truth s → State.Narrows (Carried x) s t)
    (h : t ∈ assuming (propagate limit x) x c s) : State.Narrows (Carried v) s t :=
  narrows_of_mem_assuming ⟨hx x x.self_mem_parts, hc⟩
    (fun truth s t ht => (ih truth s t ht).mono (Carried.mono hx)) h

theorem narrows_of_mem_operands {v l r : Value} (hl : ∀ w ∈ l.parts, w ∈ v.parts)
    (hr : ∀ w ∈ r.parts, w ∈ v.parts)
    (ihl : ∀ truth s t, t ∈ propagate limit l truth s → State.Narrows (Carried l) s t)
    (ihr : ∀ truth s t, t ∈ propagate limit r truth s → State.Narrows (Carried r) s t)
    {facts : List (Side × Constraint)} (hfacts : ∀ k ∈ facts, k.2 ≠ .held)
    (h : t ∈ inTurn limit (facts.map (assumeOperand limit l r)) [s]) :
    State.Narrows (Carried v) s t := by
  have hassume : ∀ f ∈ facts.map (assumeOperand limit l r), ∀ s t, t ∈ f s →
      State.Narrows (Carried v) s t := by
    intro f hf s t ht
    obtain ⟨⟨side, c⟩, hk, rfl⟩ := List.mem_map.1 hf
    cases side with
    | left => exact narrows_of_mem_operand hl (hfacts _ hk) ihl ht
    | right => exact narrows_of_mem_operand hr (hfacts _ hk) ihr ht
  obtain ⟨u, hu, hut⟩ := narrows_of_mem_inTurn hassume h
  obtain rfl := List.mem_singleton.1 hu
  exact hut

theorem narrows_of_mem_propagate (v : Value) :
    ∀ truth s t, t ∈ propagate limit v truth s → State.Narrows (Carried v) s t := by
  induction v with
  | unknown | constant | member | group =>
    intro truth s t h
    obtain rfl := List.mem_singleton.1 h
    exact .refl _
  | not x ih =>
    intro truth s t h
    exact narrows_of_mem_operand (fun w hw => List.mem_cons_of_mem _ hw) (by simp) ih h
  | logic op l r ihl ihr =>
    intro truth s t h
    rw [propagate_logic] at h
    obtain ⟨way, -, h⟩ := List.mem_flatMap.1 h
    exact narrows_of_mem_operands (fun w hw => List.mem_cons_of_mem _ (List.mem_append_left _ hw))
      (fun w hw => List.mem_cons_of_mem _ (List.mem_append_right _ hw)) ihl ihr (by simp) h
  | equal kind l r ihl ihr =>
    intro truth s t h
    cases hfacts : equalityFacts kind truth l r s with
    | none =>
      rw [propagate_equal_of_none hfacts] at h
      exact absurd h List.not_mem_nil
    | some facts =>
      rw [propagate_equal hfacts] at h
      exact narrows_of_mem_operands
        (fun w hw => List.mem_cons_of_mem _ (List.mem_append_left _ hw))
        (fun w hw => List.mem_cons_of_mem _ (List.mem_append_right _ hw)) ihl ihr
        (ne_held_of_equalityFacts hfacts) h
  | blank x whitespace ih =>
    intro truth s t h
    have hx : ∀ w ∈ x.parts, w ∈ (Value.blank x whitespace).parts :=
      fun w hw => List.mem_cons_of_mem _ hw
    cases truth with
    | true =>
      obtain ⟨c, hc, h⟩ := List.mem_flatMap.1
        (show t ∈ [Constraint.null, .string (.blankness whitespace)].flatMap _ from h)
      refine narrows_of_mem_operand hx ?_ ih h
      rintro rfl
      simp at hc
    | false => exact narrows_of_mem_operand hx (by simp) ih h
  | ofType x ih =>
    intro truth s t h
    cases truth with
    | true => exact narrows_of_mem_operand (fun w hw => List.mem_cons_of_mem _ hw) (by simp) ih h
    | false =>
      obtain rfl := List.mem_singleton.1 h
      exact .refl _
  | hasValue x ih =>
    intro truth s t h
    refine narrows_of_mem_operand (fun w hw => List.mem_cons_of_mem _ hw) ?_ ih h
    cases truth <;> simp

/-- The facts that an assumption can record. -/
def Assumed (v : Value) (c : Constraint) (w : Value) (c' : Constraint) : Prop :=
  (w = v ∧ c' = c) ∨ Carried v w c'

/-- There are two outcomes: all states in which the fact holds are given out, or, if these are too
many, the fact is recorded about the value. -/
theorem assume_of_le {solver : Solver} {v : Value} {c : Constraint}
    (h : (solver.explore s v c).length ≤ solver.maxForks) :
    solver.assume s v c = solver.explore s v c :=
  if_neg (Nat.not_lt.2 h)

theorem assume_of_lt {solver : Solver} {v : Value} {c : Constraint}
    (h : solver.maxForks < (solver.explore s v c).length) :
    solver.assume s v c = (s.record? v c).toList :=
  if_pos h

/-- An assumption records the fact itself and facts about parts of the value that it is made of, and
does nothing else. -/
theorem narrows_of_mem_assume {solver : Solver} {v : Value} {c : Constraint}
    (h : t ∈ solver.assume s v c) : State.Narrows (Assumed v c) s t := by
  rw [assume] at h
  split at h
  · exact .record (.refl s) (.inl ⟨rfl, rfl⟩) (Option.mem_toList.1 h)
  · exact narrows_of_mem_assuming (.inl ⟨rfl, rfl⟩)
      (fun truth s t ht => (narrows_of_mem_propagate v truth s t ht).mono fun _ _ => .inr) h

/-- What recording a fact keeps, an assumption keeps. That a lock is held is only recorded if it is
assumed. -/
theorem keeps_of_mem_assume {P : State → Prop} {solver : Solver} {v : Value} {c : Constraint}
    (hrecord : ∀ {s t w d}, (d = .held → c = .held) → s.record? w d = some t → P s → P t)
    (hs : P s) (h : t ∈ solver.assume s v c) : P t := by
  refine (narrows_of_mem_assume h).keeps (fun hassumed => hrecord ?_) hs
  rcases hassumed with ⟨-, rfl⟩ | ⟨-, hcarried⟩
  · exact id
  · exact fun hheld => absurd hheld hcarried

/-- An assumption leads to no more states than the limit allows. -/
theorem length_assume_le (solver : Solver) (s : State) (v : Value) (c : Constraint) :
    (solver.assume s v c).length ≤ solver.maxForks := by
  rw [assume]
  split
  · exact Nat.le_trans (Option.length_toList_le) solver.maxForks_pos
  · omega

theorem has_of_mem_assume {solver : Solver} {v : Value} {c : Constraint}
    (h : t ∈ solver.assume s v c) : t.has v c := by
  rw [assume] at h
  split at h
  · exact State.has_record? (Option.mem_toList.1 h)
  · exact has_of_mem_assuming (narrows_of_mem_propagate v) h

/-- To assume what is known changes nothing. -/
theorem assume_of_has {solver : Solver} {v : Value} {c : Constraint} (h : s.has v c) :
    solver.assume s v c = [s] := by
  have hexplore : solver.explore s v c = [s] := if_pos h
  rw [assume_of_le (by rw [hexplore]; exact solver.maxForks_pos), hexplore]

theorem narrows_of_narrow? {solver : Solver} {v : Value} {c : Constraint}
    (h : solver.narrow? s v c = some t) : State.Narrows (Assumed v c) s t :=
  narrows_of_mem_assume (List.mem_of_mem_head? h)

/-! ### Assumptions only add facts -/

/-- In every state that an assumption leads to, the stack, the bindings and the visits are as they
were. What was known is known, and the assumed fact is known as well. About values that are no parts
of the one that the assumption is made of, nothing else is known than before. The same assumption,
made again, leads to this state and no other. -/
theorem assume_only_adds {solver : Solver} {v : Value} {c : Constraint}
    (h : t ∈ solver.assume s v c) :
    (t.stack = s.stack ∧ t.bindings = s.bindings ∧ t.visits = s.visits) ∧
      (∀ w k, s.has w k → t.has w k) ∧ t.has v c ∧
      (∀ w, w ∉ v.parts → t.factsOf w = s.factsOf w) ∧ solver.assume t v c = [t] := by
  have hnarrows := narrows_of_mem_assume h
  have honly := State.FactsOnly.of_narrows hnarrows
  have hknown := has_of_mem_assume h
  refine ⟨⟨honly.stack, honly.bindings, honly.visits⟩, fun w k => hnarrows.has, hknown,
    fun w hw => hnarrows.factsOf_eq ?_, assume_of_has hknown⟩
  rintro k (⟨rfl, -⟩ | ⟨hpart, -⟩)
  · exact hw w.self_mem_parts
  · exact hw hpart

/-- A value of the form `a == !b`. -/
def equalsOpposite : Value := .equal .value (.unknown 0) (.not (.unknown 1))

/-- If `a` is true, then `a == !b` tells that `b` is false, and what is known of `c` stays as it
was. -/
theorem assume_only_adds_equalsOpposite :
    ∃ s ∈ (ofLimit 16).assume (State.initial.push .self) (.unknown 0) (.bool true),
      ∃ t ∈ (ofLimit 16).assume s equalsOpposite (.bool true),
        t.has (.unknown 1) (.bool false) ∧ t.stack = [.self] ∧ t.has (.unknown 0) (.bool true) ∧
          t.factsOf (.unknown 2) = s.factsOf (.unknown 2) ∧
          (ofLimit 16).assume t equalsOpposite (.bool true) = [t] := by
  have hfound : ∃ s ∈ (ofLimit 16).assume (State.initial.push .self) (.unknown 0) (.bool true),
      ∃ t ∈ (ofLimit 16).assume s equalsOpposite (.bool true),
        t.has (.unknown 1) (.bool false) := by
    decide +kernel
  obtain ⟨s, hs, t, ht, hfalse⟩ := hfound
  obtain ⟨⟨hstack, -, -⟩, -, htrue, -, -⟩ := assume_only_adds hs
  obtain ⟨⟨hstack', -, -⟩, hkeeps, -, hframe, hagain⟩ := assume_only_adds ht
  exact ⟨s, hs, t, ht, hfalse, hstack'.trans hstack, hkeeps _ _ htrue, hframe _ (by decide), hagain⟩

end Solver

end Pathwise
