import Pathwise.Exploration.Way
import Pathwise.Proofs.Alike.State
import Pathwise.Proofs.Solver.Narrowing

/-!
Assumptions do not depend on the identities of unknowns: the same assumption about values that are
alike, made in states that are alike, leads to the same number of states, and they are alike in
pairs.

Nor do they depend on anything about a state but its facts. So the argument is made for any relation
between states under which values that are alike have the same facts.
-/

namespace Pathwise

open Relator (BiUnique)

variable {R : Identity → Identity → Prop} {Rel : State → State → Prop} {s t : State} {v w : Value}

/-- Related states know the same of values that are alike, and stay related when the same fact is
recorded. -/
structure KnowAlike (R : Identity → Identity → Prop) (Rel : State → State → Prop) : Prop where
  factsOf_eq {s t : State} {v w : Value} : Rel s t → v.Like R w → s.factsOf v = t.factsOf w
  record? {s t : State} {v w : Value} : Rel s t → v.Like R w →
    ∀ c, Option.Rel Rel (s.record? v c) (t.record? w c)

theorem State.Like.knowAlike (hR : BiUnique R) : KnowAlike R (State.Like R) where
  factsOf_eq h hvw := h.factsOf_eq hR hvw
  record? h hvw c := h.record? hR hvw c

/-- The two ways to go on lead from related states to related states. -/
def GoAlike (Rel : State → State → Prop) (f g : State → List State) : Prop :=
  ∀ s t, Rel s t → List.Forall₂ Rel (f s) (g t)

namespace KnowAlike

theorem has_eq (hRel : KnowAlike R Rel) (h : Rel s t) (hvw : v.Like R w) (c : Constraint) :
    s.has v c = t.has w c := by
  rw [State.has, State.has, hRel.factsOf_eq h hvw]

theorem assuming (hRel : KnowAlike R Rel) {deeper deeper' : Bool → State → List State}
    (hdeeper : ∀ truth, GoAlike Rel (deeper truth) (deeper' truth)) (hvw : v.Like R w)
    (c : Constraint) : GoAlike Rel (assuming deeper v c) (assuming deeper' w c) := by
  intro s t h
  unfold Pathwise.assuming
  rw [hRel.has_eq h hvw]
  split
  · exact .cons h .nil
  · obtain ⟨hs, ht⟩ | ⟨s', t', hs, ht, h'⟩ := optionRel_cases (hRel.record? h hvw c)
    · rw [hs, ht]
      exact .nil
    · rw [hs, ht]
      cases c with
      | bool truth => exact hdeeper truth s' t' h'
      | _ => exact .cons h' .nil

theorem inTurn {limit : Nat} {fs gs : List (State → List State)}
    (hfs : List.Forall₂ (GoAlike Rel) fs gs) {states states' : List State}
    (h : List.Forall₂ Rel states states') :
    List.Forall₂ Rel (inTurn limit fs states) (inTurn limit gs states') := by
  induction hfs generalizing states states' with
  | nil => exact h
  | @cons f g fs gs hfg _ ih =>
    have hstates : List.Forall₂ Rel (states.flatMap f) (states'.flatMap g) :=
      List.rel_flatMap h fun s t hst => hfg s t hst
    rw [Pathwise.inTurn, Pathwise.inTurn]
    rw [isEmpty_eq_of_forall₂ hstates, hstates.length_eq]
    split
    · exact hstates
    · exact ih hstates

theorem sharedFacts_eq (hRel : KnowAlike R Rel) (h : Rel s t) (hvw : v.Like R w)
    (kind : EqualityKind) (side : Side) :
    sharedFacts kind v side s = sharedFacts kind w side t := by
  simp only [sharedFacts, State.factIn, hRel.factsOf_eq h hvw]

theorem opposedFacts_eq (hRel : KnowAlike R Rel) (h : Rel s t) (hvw : v.Like R w)
    (kind : EqualityKind) (side : Side) :
    opposedFacts kind v side s = opposedFacts kind w side t := by
  rw [opposedFacts, opposedFacts, hRel.has_eq h hvw, hRel.factsOf_eq h hvw]

/-- The outcome of a comparison says the same about operands that are alike. -/
theorem equalityFacts_eq (hRel : KnowAlike R Rel) (hR : BiUnique R) (h : Rel s t) {v' w' : Value}
    (hvw : v.Like R w) (hvw' : v'.Like R w') (kind : EqualityKind) (holds : Bool) :
    equalityFacts kind holds v v' s = equalityFacts kind holds w w' t := by
  unfold equalityFacts
  simp only [hvw.eq_iff hR hvw', hRel.has_eq h hvw, hRel.has_eq h hvw', hRel.sharedFacts_eq h hvw,
    hRel.sharedFacts_eq h hvw', hRel.opposedFacts_eq h hvw, hRel.opposedFacts_eq h hvw']

theorem assumeOperands {limit : Nat} {l r l' r' : Value} (hRel : KnowAlike R Rel)
    (hl : l.Like R l') (hr : r.Like R r')
    (ihl : ∀ truth, GoAlike Rel (propagate limit l truth) (propagate limit l' truth))
    (ihr : ∀ truth, GoAlike Rel (propagate limit r truth) (propagate limit r' truth))
    (h : Rel s t) (facts : List (Side × Constraint)) :
    List.Forall₂ Rel (Pathwise.inTurn limit (facts.map (assumeOperand limit l r)) [s])
      (Pathwise.inTurn limit (facts.map (assumeOperand limit l' r')) [t]) := by
  refine inTurn ?_ (.cons h .nil)
  induction facts with
  | nil => exact .nil
  | cons k rest ih =>
    refine .cons ?_ ih
    obtain ⟨side, c⟩ := k
    cases side with
    | left => exact hRel.assuming ihl hl c
    | right => exact hRel.assuming ihr hr c

/-- Truths are carried over to the operands alike, at any depth. -/
theorem propagate {limit : Nat} (hRel : KnowAlike R Rel) (hR : BiUnique R) (hvw : v.Like R w) :
    ∀ truth, GoAlike Rel (propagate limit v truth) (propagate limit w truth) := by
  induction hvw with
  | unknown | constant | member | group => exact fun truth s t h => .cons h .nil
  | not hvw ih => exact fun truth => hRel.assuming ih hvw _
  | logic op hl hr ihl ihr =>
    intro truth s t h
    rw [propagate_logic, propagate_logic]
    refine List.rel_flatMap (List.forall₂_eq_eq_eq ▸ rfl) ?_
    rintro way way' rfl
    exact hRel.assumeOperands hl hr ihl ihr h _
  | equal kind hl hr ihl ihr =>
    intro truth s t h
    have hfacts := hRel.equalityFacts_eq hR h hl hr kind truth
    cases hs : equalityFacts kind truth _ _ s with
    | none =>
      rw [propagate_equal_of_none hs, propagate_equal_of_none (hfacts.symm.trans hs)]
      exact .nil
    | some facts =>
      rw [propagate_equal hs, propagate_equal (hfacts.symm.trans hs)]
      exact hRel.assumeOperands hl hr ihl ihr h facts
  | blank hvw whitespace ih =>
    intro truth s t h
    cases truth with
    | true =>
      refine List.rel_append (hRel.assuming ih hvw _ s t h)
        (List.rel_append (hRel.assuming ih hvw _ s t h) .nil)
    | false => exact hRel.assuming ih hvw _ s t h
  | ofType hvw ih =>
    intro truth s t h
    cases truth with
    | true => exact hRel.assuming ih hvw _ s t h
    | false => exact .cons h .nil
  | hasValue hvw ih => exact fun truth => hRel.assuming ih hvw _

theorem assume (hRel : KnowAlike R Rel) (hR : BiUnique R) (solver : Solver) (h : Rel s t)
    (hvw : v.Like R w) (c : Constraint) :
    List.Forall₂ Rel (solver.assume s v c) (solver.assume t w c) := by
  have hstates : List.Forall₂ Rel (solver.explore s v c) (solver.explore t w c) :=
    hRel.assuming (hRel.propagate hR hvw) hvw c s t h
  rw [Solver.assume, Solver.assume]
  rw [hstates.length_eq]
  split
  · obtain ⟨hs, ht⟩ | ⟨s', t', hs, ht, h'⟩ := optionRel_cases (hRel.record? h hvw c)
    · rw [hs, ht]
      exact .nil
    · rw [hs, ht]
      exact .cons h' .nil
  · exact hstates

theorem narrow? (hRel : KnowAlike R Rel) (hR : BiUnique R) (solver : Solver) (h : Rel s t)
    (hvw : v.Like R w) (c : Constraint) :
    Option.Rel Rel (solver.narrow? s v c) (solver.narrow? t w c) := by
  rw [Solver.narrow?, Solver.narrow?, List.head?_eq_getElem?, List.head?_eq_getElem?]
  exact optionRel_getElem? (hRel.assume hR solver h hvw c) 0

/-- The guard of a way admits related states, in pairs. -/
theorem admitted (hRel : KnowAlike R Rel) (hR : BiUnique R) (solver : Solver) (h : Rel s t)
    (hvw : v.Like R w) (guard : Guard) :
    List.Forall₂ Rel (guard.admitted solver v s) (guard.admitted solver w t) := by
  cases guard with
  | nothing => exact .cons h .nil
  | holds c => exact hRel.assume hR solver h hvw c
  | notKnown c =>
    simp only [Guard.admitted, hRel.has_eq h hvw c]
    split
    · exact .nil
    · exact .cons h .nil

end KnowAlike

namespace Solver

theorem assume_alike (solver : Solver) (hR : BiUnique R) (h : s.Like R t) (hvw : v.Like R w)
    (c : Constraint) :
    List.Forall₂ (State.Like R) (solver.assume s v c) (solver.assume t w c) :=
  (State.Like.knowAlike hR).assume hR solver h hvw c

theorem narrow?_alike (solver : Solver) (hR : BiUnique R) (h : s.Like R t) (hvw : v.Like R w)
    (c : Constraint) :
    Option.Rel (State.Like R) (solver.narrow? s v c) (solver.narrow? t w c) :=
  (State.Like.knowAlike hR).narrow? hR solver h hvw c

end Solver

end Pathwise
