import Mathlib.Data.List.Forall2
import Mathlib.Logic.Relation
import Mathlib.Logic.Relator
import Pathwise.Symbolic.State.Lemmas
import Pathwise.Transfer.Call
import Pathwise.Transfer.Folding

/-!
Values and states that are alike but for the identities of their unknowns. Identities are paired by
a relation; values are alike if they have the same shape and paired identities in the same places,
and states are alike if their stacks, their bindings and their facts are. Where a path has been does
not matter.

As long as the pairs match identities one to one, nothing that can be asked about a state tells it
from one that is alike, and operations lead from states that are alike to states that are alike.
This is all that is known about the identities of unknowns, and all that the analysis depends on.
-/

namespace Pathwise

open Relator (BiUnique)

variable {R S : Identity → Identity → Prop}

/-! ### Options and outcomes -/

section

variable {α α' β β' γ : Type} {P : α → β → Prop} {Q : α' → β' → Prop}

theorem optionRel_cases {x : Option α} {y : Option β} (h : Option.Rel P x y) :
    (x = none ∧ y = none) ∨ ∃ a b, x = some a ∧ y = some b ∧ P a b := by
  cases h with
  | some h => exact .inr ⟨_, _, rfl, rfl, h⟩
  | none => exact .inl ⟨rfl, rfl⟩

theorem optionRel_swap {P' : β → α → Prop} (himp : ∀ a b, P a b → P' b a) {x : Option α}
    {y : Option β} (h : Option.Rel P x y) : Option.Rel P' y x := by
  cases h with
  | some h => exact .some (himp _ _ h)
  | none => exact .none

theorem optionRel_imp {P' : α → β → Prop} (himp : ∀ a b, P a b → P' a b) {x : Option α}
    {y : Option β} (h : Option.Rel P x y) : Option.Rel P' x y := by
  cases h with
  | some h => exact .some (himp _ _ h)
  | none => exact .none

theorem optionRel_comp {P' : β → γ → Prop} {x : Option α} {y : Option β} {z : Option γ}
    (h : Option.Rel P x y) (h' : Option.Rel P' y z) :
    Option.Rel (Relation.Comp P P') x z := by
  cases h with
  | some h =>
    cases h' with
    | some h' => exact .some ⟨_, h, h'⟩
  | none =>
    cases h' with
    | none => exact .none

theorem optionRel_bind {f : α → Option α'} {g : β → Option β'} {x : Option α} {y : Option β}
    (h : Option.Rel P x y) (hfg : ∀ a b, P a b → Option.Rel Q (f a) (g b)) :
    Option.Rel Q (x.bind f) (y.bind g) := by
  cases h with
  | some h => exact hfg _ _ h
  | none => exact .none

theorem optionRel_map {f : α → α'} {g : β → β'} {x : Option α} {y : Option β}
    (h : Option.Rel P x y) (hfg : ∀ a b, P a b → Q (f a) (g b)) :
    Option.Rel Q (x.map f) (y.map g) := by
  cases h with
  | some h => exact .some (hfg _ _ h)
  | none => exact .none

theorem optionRel_getD {x : Option α} {y : Option β} {a : α} {b : β} (h : Option.Rel P x y)
    (hab : P a b) : P (x.getD a) (y.getD b) := by
  cases h with
  | some h => exact h
  | none => exact hab

/-- Whether two options are the same can be told on either side. -/
theorem optionRel_eq_iff (hP : BiUnique P) {x x' : Option α} {y y' : Option β}
    (h : Option.Rel P x y) (h' : Option.Rel P x' y') : x = x' ↔ y = y' := by
  cases h with
  | none => cases h' <;> simp
  | some h =>
    cases h' with
    | none => simp
    | some h' => simpa using Relator.rel_eq hP h h'

theorem forall₂_comp {P' : β → γ → Prop} {xs : List α} {ys : List β} {zs : List γ}
    (h : List.Forall₂ P xs ys) (h' : List.Forall₂ P' ys zs) :
    List.Forall₂ (Relation.Comp P P') xs zs := by
  induction h generalizing zs with
  | nil =>
    cases h' with
    | nil => exact .nil
  | cons h _ ih =>
    cases h' with
    | cons h' hrest => exact .cons ⟨_, h, h'⟩ (ih hrest)

theorem forall₂_map_pointwise {f : γ → α} {g : γ → β} (h : ∀ c, P (f c) (g c)) (xs : List γ) :
    List.Forall₂ P (xs.map f) (xs.map g) := by
  rw [List.forall₂_map_left_iff, List.forall₂_map_right_iff, List.forall₂_same]
  exact fun c _ => h c

theorem exists_of_forall₂ {xs : List α} {ys : List β} (h : List.Forall₂ P xs ys) {a : α}
    (ha : a ∈ xs) : ∃ b ∈ ys, P a b := by
  induction h with
  | nil => cases ha
  | cons hab _ ih =>
    rcases List.mem_cons.1 ha with rfl | ha
    · exact ⟨_, List.mem_cons_self, hab⟩
    · obtain ⟨b, hb, hab⟩ := ih ha
      exact ⟨b, List.mem_cons_of_mem _ hb, hab⟩

theorem isEmpty_eq_of_forall₂ {xs : List α} {ys : List β} (h : List.Forall₂ P xs ys) :
    xs.isEmpty = ys.isEmpty := by
  cases h <;> rfl

theorem all_eq_of_forall₂ {xs : List α} {ys : List β} (h : List.Forall₂ P xs ys) {f : α → Bool}
    {g : β → Bool} (hfg : ∀ a b, P a b → f a = g b) : xs.all f = ys.all g := by
  induction h with
  | nil => rfl
  | cons hab _ ih => rw [List.all_cons, List.all_cons, hfg _ _ hab, ih]

theorem any_eq_of_forall₂ {xs : List α} {ys : List β} (h : List.Forall₂ P xs ys) {f : α → Bool}
    {g : β → Bool} (hfg : ∀ a b, P a b → f a = g b) : xs.any f = ys.any g := by
  induction h with
  | nil => rfl
  | cons hab _ ih => rw [List.any_cons, List.any_cons, hfg _ _ hab, ih]

theorem forall₂_imp_of_mem {P' : α → β → Prop} {xs : List α} {ys : List β}
    (h : List.Forall₂ P xs ys) (himp : ∀ a ∈ xs, ∀ b ∈ ys, P a b → P' a b) :
    List.Forall₂ P' xs ys := by
  induction h with
  | nil => exact .nil
  | cons hab _ ih =>
    exact .cons (himp _ List.mem_cons_self _ List.mem_cons_self hab)
      (ih fun a ha b hb => himp a (List.mem_cons_of_mem _ ha) b (List.mem_cons_of_mem _ hb))

theorem optionRel_getElem? {xs : List α} {ys : List β} (h : List.Forall₂ P xs ys) (k : Nat) :
    Option.Rel P xs[k]? ys[k]? := by
  induction h generalizing k with
  | nil => exact .none
  | cons h _ ih =>
    cases k with
    | zero => exact .some h
    | succ k => exact ih k

/-- Both outcomes are results that go together, or both are the same fault. -/
inductive Agree (P : α → β → Prop) : Except Fault α → Except Fault β → Prop where
  | ok {a : α} {b : β} (h : P a b) : Agree P (.ok a) (.ok b)
  | error (fault : Fault) : Agree P (.error fault) (.error fault)

theorem Agree.cases {x : Except Fault α} {y : Except Fault β} (h : Agree P x y) :
    (∃ fault, x = .error fault ∧ y = .error fault) ∨ ∃ a b, x = .ok a ∧ y = .ok b ∧ P a b := by
  cases h with
  | ok h => exact .inr ⟨_, _, rfl, rfl, h⟩
  | error fault => exact .inl ⟨fault, rfl, rfl⟩

theorem Agree.bind {x : Except Fault α} {y : Except Fault β} {f : α → Except Fault α'}
    {g : β → Except Fault β'} (h : Agree P x y) (hfg : ∀ a b, P a b → Agree Q (f a) (g b)) :
    Agree Q (x >>= f) (y >>= g) := by
  cases h with
  | ok h => exact hfg _ _ h
  | error fault => exact .error fault

theorem Agree.imp {P' : α → β → Prop} {x : Except Fault α} {y : Except Fault β} (h : Agree P x y)
    (himp : ∀ a b, P a b → P' a b) : Agree P' x y := by
  cases h with
  | ok h => exact .ok (himp _ _ h)
  | error fault => exact .error fault

/-- Both sides start with the same. -/
theorem Agree.bind_same {x : Except Fault γ} {f : γ → Except Fault α} {g : γ → Except Fault β}
    (hfg : ∀ c, Agree P (f c) (g c)) : Agree P (x >>= f) (x >>= g) := by
  cases x with
  | ok c => exact hfg c
  | error fault => exact .error fault

end

theorem biUnique_eq {α : Type} : BiUnique fun x y : α => x = y :=
  ⟨fun _ _ _ h h' => h.trans h'.symm, fun _ _ _ h h' => h.symm.trans h'⟩

theorem biUnique_flip (hR : BiUnique R) : BiUnique (flip R) :=
  ⟨fun _ _ _ h h' => hR.2 h h', fun _ _ _ h h' => hR.1 h h'⟩

/-! ### Values -/

/-- The values differ in the identities of their unknowns at most, and those are paired. -/
inductive Value.Like (R : Identity → Identity → Prop) : Value → Value → Prop where
  | unknown {x y : Identity} (h : R x y) : Like R (.unknown x) (.unknown y)
  | constant (c : Constant) : Like R (.constant c) (.constant c)
  | not {v w : Value} (h : Like R v w) : Like R (.not v) (.not w)
  | logic (op : Connective) {v v' w w' : Value} (h : Like R v w) (h' : Like R v' w') :
      Like R (.logic op v v') (.logic op w w')
  | equal (kind : EqualityKind) {v v' w w' : Value} (h : Like R v w) (h' : Like R v' w') :
      Like R (.equal kind v v') (.equal kind w w')
  | blank {v w : Value} (h : Like R v w) (whitespace : Bool) :
      Like R (.blank v whitespace) (.blank w whitespace)
  | ofType {v w : Value} (h : Like R v w) : Like R (.ofType v) (.ofType w)
  | hasValue {v w : Value} (h : Like R v w) : Like R (.hasValue v) (.hasValue w)
  | member {v w : Value} (h : Like R v w) (symbol : SymbolId) :
      Like R (.member v symbol) (.member w symbol)
  | group {v w : Value} (h : Like R v w) (name : String) : Like R (.group v name) (.group w name)

namespace Value.Like

variable {u v w : Value}

/-- The pairs may be turned round, and more pairs do no harm. -/
theorem swap (hsub : ∀ x y, R x y → S y x) (h : v.Like R w) : w.Like S v := by
  induction h with
  | unknown h => exact .unknown (hsub _ _ h)
  | constant c => exact .constant c
  | not _ ih => exact .not ih
  | logic op _ _ ih ih' => exact .logic op ih ih'
  | equal kind _ _ ih ih' => exact .equal kind ih ih'
  | blank _ whitespace ih => exact .blank ih whitespace
  | ofType _ ih => exact .ofType ih
  | hasValue _ ih => exact .hasValue ih
  | member _ symbol ih => exact .member ih symbol
  | group _ name ih => exact .group ih name

theorem symm (h : v.Like R w) : w.Like (flip R) v := h.swap fun _ _ hxy => hxy

theorem mono (hsub : ∀ x y, R x y → S x y) (h : v.Like R w) : v.Like S w :=
  (h.swap (S := flip S) hsub).symm

theorem comp (h : u.Like R v) (h' : v.Like S w) : u.Like (Relation.Comp R S) w := by
  induction h generalizing w with
  | unknown h =>
    cases h' with
    | unknown h' => exact .unknown ⟨_, h, h'⟩
  | constant c =>
    cases h' with
    | constant => exact .constant c
  | not _ ih =>
    cases h' with
    | not h' => exact .not (ih h')
  | logic op _ _ ih₁ ih₂ =>
    cases h' with
    | logic _ h₁ h₂ => exact .logic op (ih₁ h₁) (ih₂ h₂)
  | equal kind _ _ ih₁ ih₂ =>
    cases h' with
    | equal _ h₁ h₂ => exact .equal kind (ih₁ h₁) (ih₂ h₂)
  | blank _ whitespace ih =>
    cases h' with
    | blank h' => exact .blank (ih h') whitespace
  | ofType _ ih =>
    cases h' with
    | ofType h' => exact .ofType (ih h')
  | hasValue _ ih =>
    cases h' with
    | hasValue h' => exact .hasValue (ih h')
  | member _ symbol ih =>
    cases h' with
    | member h' => exact .member (ih h') symbol
  | group _ name ih =>
    cases h' with
    | group h' => exact .group (ih h') name

theorem refl (v : Value) : v.Like (· = ·) v := by
  induction v with
  | unknown id => exact .unknown rfl
  | constant c => exact .constant c
  | not _ ih => exact .not ih
  | logic op _ _ ih ih' => exact .logic op ih ih'
  | equal kind _ _ ih ih' => exact .equal kind ih ih'
  | blank _ whitespace ih => exact .blank ih whitespace
  | ofType _ ih => exact .ofType ih
  | hasValue _ ih => exact .hasValue ih
  | member _ symbol ih => exact .member ih symbol
  | group _ name ih => exact .group ih name

theorem eq_of_like (h : v.Like (· = ·) w) : v = w := by
  induction h <;> simp_all

/-- A value determines the value on the other side. -/
theorem rightUnique (hR : Relator.RightUnique R) : Relator.RightUnique (Value.Like R) := by
  intro u v w h h'
  have hcomp := h.symm.comp h'
  refine eq_of_like (hcomp.mono ?_)
  rintro x y ⟨z, hzx, hzy⟩
  exact hR hzx hzy

theorem biUnique (hR : BiUnique R) : BiUnique (Value.Like R) :=
  ⟨fun _ _ _ h h' => rightUnique hR.1.flip h.symm h'.symm, rightUnique hR.2⟩

/-- Whether two values are the same can be told on either side. -/
theorem eq_iff (hR : BiUnique R) {v' w' : Value} (h : v.Like R w) (h' : v'.Like R w') :
    v = v' ↔ w = w' :=
  Relator.rel_eq (biUnique hR) h h'

theorem compare_eq_iff (hR : BiUnique R) {v' w' : Value} (h : v.Like R w) (h' : v'.Like R w') :
    compare v v' = .eq ↔ compare w w' = .eq := by
  rw [Std.LawfulEqCmp.compare_eq_iff_eq, Std.LawfulEqCmp.compare_eq_iff_eq]
  exact h.eq_iff hR h'

theorem ofBool (truth : Bool) : Value.Like R (.ofBool truth) (.ofBool truth) := by
  cases truth with
  | true => exact .constant .yes
  | false => exact .constant .no

theorem receiver? (h : v.Like R w) : Option.Rel (Value.Like R) v.receiver? w.receiver? := by
  cases h with
  | member h => exact .some h
  | group h => exact .some h
  | _ => exact .none

theorem isConstant (h : v.Like R w) : v.isConstant = w.isConstant := by
  cases h <;> rfl

theorem operands (h : v.Like R w) : List.Forall₂ (Value.Like R) v.operands w.operands := by
  cases h with
  | unknown | constant => exact .nil
  | logic _ h h' | equal _ h h' => exact .cons h (.cons h' .nil)
  | not h | blank h | ofType h | hasValue h | member h | group h => exact .cons h .nil

theorem parts (h : v.Like R w) : List.Forall₂ (Value.Like R) v.parts w.parts := by
  induction h with
  | unknown h => exact .cons (.unknown h) .nil
  | constant c => exact .cons (.constant c) .nil
  | not h ih => exact .cons (.not h) ih
  | logic op h h' ih ih' => exact .cons (.logic op h h') (List.rel_append ih ih')
  | equal kind h h' ih ih' => exact .cons (.equal kind h h') (List.rel_append ih ih')
  | blank h whitespace ih => exact .cons (.blank h whitespace) ih
  | ofType h ih => exact .cons (.ofType h) ih
  | hasValue h ih => exact .cons (.hasValue h) ih
  | member h symbol ih => exact .cons (.member h symbol) ih
  | group h name ih => exact .cons (.group h name) ih

end Value.Like

/-! ### Facts -/

/-- Whatever is known of a value in the first map is known of one that is alike in the second. -/
def Carries (R : Identity → Identity → Prop) (m m' : Std.ExtTreeMap Value Facts) : Prop :=
  ∀ (v : Value) (f : Facts), m[v]? = some f → ∃ w, v.Like R w ∧ m'[w]? = some f

namespace Carries

variable {m m' m'' : Std.ExtTreeMap Value Facts} {v w : Value}

theorem mono (hsub : ∀ x y, R x y → S x y) (h : Carries R m m') : Carries S m m' := by
  intro v f hv
  obtain ⟨w, hvw, hw⟩ := h v f hv
  exact ⟨w, hvw.mono hsub, hw⟩

theorem comp (h : Carries R m m') (h' : Carries S m' m'') :
    Carries (Relation.Comp R S) m m'' := by
  intro v f hv
  obtain ⟨w, hvw, hw⟩ := h v f hv
  obtain ⟨u, hwu, hu⟩ := h' w f hw
  exact ⟨u, hvw.comp hwu, hu⟩

theorem insert (hR : BiUnique R) (h : Carries R m m') (hvw : v.Like R w) (f : Facts) :
    Carries R (m.insert v f) (m'.insert w f) := by
  intro u g hu
  rw [Std.ExtTreeMap.getElem?_insert] at hu
  split at hu
  · next heq =>
    obtain rfl := Std.LawfulEqCmp.eq_of_compare heq
    exact ⟨w, hvw, by rw [Std.ExtTreeMap.getElem?_insert_self]; exact hu⟩
  · next hne =>
    obtain ⟨w', huw', hw'⟩ := h u g hu
    -- a value that keeps its facts on one side is not overwritten on the other
    refine ⟨w', huw', ?_⟩
    rw [Std.ExtTreeMap.getElem?_insert, if_neg (mt (Value.Like.compare_eq_iff hR hvw huw').2 hne)]
    exact hw'

theorem erase (hR : BiUnique R) (h : Carries R m m') (hvw : v.Like R w) :
    Carries R (m.erase v) (m'.erase w) := by
  intro u g hu
  rw [Std.ExtTreeMap.getElem?_erase] at hu
  split at hu
  · cases hu
  · next hne =>
    obtain ⟨w', huw', hw'⟩ := h u g hu
    refine ⟨w', huw', ?_⟩
    rw [Std.ExtTreeMap.getElem?_erase, if_neg (mt (Value.Like.compare_eq_iff hR hvw huw').2 hne)]
    exact hw'

theorem filter (h : Carries R m m') {test test' : Value → Facts → Bool}
    (htest : ∀ v w f, v.Like R w → test v f = test' w f) :
    Carries R (m.filter test) (m'.filter test') := by
  intro v f hv
  obtain ⟨hv, hkept⟩ : m[v]? = some f ∧ test v f = true := by
    simpa [Std.ExtTreeMap.getElem?_filter] using hv
  obtain ⟨w, hvw, hw⟩ := h v f hv
  refine ⟨w, hvw, ?_⟩
  simp [Std.ExtTreeMap.getElem?_filter, hw, ← htest v w f hvw, hkept]

end Carries

/-! ### States -/

/-- The states differ in the identities of unknowns and in where their paths have been at most. -/
structure State.Like (R : Identity → Identity → Prop) (s t : State) : Prop where
  stack : List.Forall₂ (Value.Like R) s.stack t.stack
  bindings : ∀ id, Option.Rel (Value.Like R) (s.lookup id) (t.lookup id)
  facts : Carries R s.facts t.facts
  back : Carries (flip R) t.facts s.facts

namespace State.Like

variable {s t u : State} {v w : Value}

theorem mono (hsub : ∀ x y, R x y → S x y) (h : s.Like R t) : s.Like S t where
  stack := h.stack.imp fun _ _ hvw => hvw.mono hsub
  bindings id := optionRel_imp (fun _ _ hvw => hvw.mono hsub) (h.bindings id)
  facts := h.facts.mono hsub
  back := h.back.mono fun x y hxy => hsub y x hxy

theorem symm (h : s.Like R t) : t.Like (flip R) s where
  stack := (h.stack.imp fun _ _ hvw => hvw.symm).flip
  bindings id := optionRel_swap (fun _ _ hvw => hvw.symm) (h.bindings id)
  facts := h.back
  back := h.facts

theorem comp (h : s.Like R t) (h' : t.Like S u) : s.Like (Relation.Comp R S) u where
  stack := (forall₂_comp h.stack h'.stack).imp fun _ _ ⟨_, hv, hw⟩ => hv.comp hw
  bindings id := optionRel_imp (fun _ _ ⟨_, hv, hw⟩ => hv.comp hw)
    (optionRel_comp (h.bindings id) (h'.bindings id))
  facts := h.facts.comp h'.facts
  back := (h'.back.comp h.back).mono fun _ _ ⟨z, hz, hz'⟩ => ⟨z, hz', hz⟩

/-! What is known about values that are alike -/

theorem facts_eq (hR : BiUnique R) (h : s.Like R t) (hvw : v.Like R w) :
    s.facts[v]? = t.facts[w]? := by
  cases hs : s.facts[v]? with
  | some f =>
    obtain ⟨w', hvw', hw'⟩ := h.facts v f hs
    rw [(Value.Like.biUnique hR).2 hvw hvw', hw']
  | none =>
    cases ht : t.facts[w]? with
    | none => rfl
    | some f =>
      obtain ⟨v', hwv', hv'⟩ := h.back w f ht
      rw [← (Value.Like.biUnique hR).1 hvw hwv'.symm, hs] at hv'
      cases hv'

theorem factsOf_eq (hR : BiUnique R) (h : s.Like R t) (hvw : v.Like R w) :
    s.factsOf v = t.factsOf w := by
  rw [factsOf, factsOf, Std.ExtTreeMap.getD_eq_getD_getElem?, Std.ExtTreeMap.getD_eq_getD_getElem?,
    h.facts_eq hR hvw]

theorem has_eq (hR : BiUnique R) (h : s.Like R t) (hvw : v.Like R w) (c : Constraint) :
    s.has v c = t.has w c := by
  rw [has, has, h.factsOf_eq hR hvw]

/-! The stack -/

theorem push (h : s.Like R t) (hvw : v.Like R w) : (s.push v).Like R (t.push w) :=
  ⟨.cons hvw h.stack, h.bindings, h.facts, h.back⟩

/-- Only the stack changes. -/
theorem withStack (h : s.Like R t) {vs ws : List Value}
    (hstack : List.Forall₂ (Value.Like R) vs ws) :
    ({ s with stack := vs } : State).Like R { t with stack := ws } :=
  ⟨hstack, h.bindings, h.facts, h.back⟩

theorem pop (h : s.Like R t) :
    Agree (fun r r' => r.1.Like R r'.1 ∧ r.2.Like R r'.2) s.pop t.pop := by
  have hstack := h.stack
  unfold State.pop
  cases hs : s.stack with
  | nil =>
    rw [hs] at hstack
    rw [List.forall₂_nil_left_iff.1 hstack]
    exact .error _
  | cons v vs =>
    rw [hs] at hstack
    obtain ⟨w, ws, hvw, hrest, ht⟩ := List.forall₂_cons_left_iff.1 hstack
    rw [ht]
    exact .ok ⟨h.withStack hrest, hvw⟩

theorem popMany (h : s.Like R t) (count : Nat) :
    Agree (fun r r' => r.1.Like R r'.1 ∧ List.Forall₂ (Value.Like R) r.2 r'.2) (s.popMany count)
      (t.popMany count) := by
  unfold State.popMany
  rw [h.stack.length_eq]
  split
  · exact .error _
  · exact .ok ⟨h.withStack (List.forall₂_drop count h.stack),
      List.rel_reverse (List.forall₂_take count h.stack)⟩

theorem peek (h : s.Like R t) (depth : Nat) :
    Agree (Value.Like R) (s.peek depth) (t.peek depth) := by
  unfold State.peek
  obtain ⟨hs, ht⟩ | ⟨v, w, hs, ht, hvw⟩ := optionRel_cases (optionRel_getElem? h.stack depth)
  · rw [hs, ht]
    exact .error _
  · rw [hs, ht]
    exact .ok hvw

/-! Bindings -/

theorem assign (h : s.Like R t) (id : SymbolId) (hvw : v.Like R w) :
    (s.assign id v).Like R (t.assign id w) := by
  refine ⟨h.stack, fun id' => ?_, h.facts, h.back⟩
  rw [lookup_assign, lookup_assign]
  split
  · exact .some hvw
  · exact h.bindings id'

theorem unbind (h : s.Like R t) (id : SymbolId) : (s.unbind id).Like R (t.unbind id) := by
  refine ⟨h.stack, fun id' => ?_, h.facts, h.back⟩
  rw [lookup_unbind, lookup_unbind]
  split
  · exact .none
  · exact h.bindings id'

theorem unbindWhere (h : s.Like R t) (test : SymbolId → Bool) :
    (s.unbindWhere fun id _ => test id).Like R (t.unbindWhere fun id _ => test id) := by
  refine ⟨h.stack, fun id => ?_, h.facts, h.back⟩
  rw [lookup_unbindWhere, lookup_unbindWhere]
  obtain ⟨hs, ht⟩ | ⟨v, w, hs, ht, hvw⟩ := optionRel_cases (h.bindings id)
  · rw [hs, ht]
    exact .none
  · rw [hs, ht, Option.filter_some, Option.filter_some]
    split
    · exact .some hvw
    · exact .none

/-! Facts -/

theorem record? (hR : BiUnique R) (h : s.Like R t) (hvw : v.Like R w) (c : Constraint) :
    Option.Rel (State.Like R) (s.record? v c) (t.record? w c) := by
  unfold State.record?
  rw [h.factsOf_eq hR hvw]
  cases (t.factsOf w).add? c with
  | none => exact .none
  | some facts =>
    exact .some ⟨h.stack, h.bindings, h.facts.insert hR hvw facts,
      h.back.insert (biUnique_flip hR) hvw.symm facts⟩

theorem forgetIn (hR : BiUnique R) (h : s.Like R t) (hvw : v.Like R w) (d : Domain) :
    (s.forgetIn v d).Like R (t.forgetIn w d) := by
  unfold State.forgetIn
  dsimp only
  rw [h.factsOf_eq hR hvw]
  split
  · exact ⟨h.stack, h.bindings, h.facts.erase hR hvw, h.back.erase (biUnique_flip hR) hvw.symm⟩
  · exact ⟨h.stack, h.bindings, h.facts.insert hR hvw _,
      h.back.insert (biUnique_flip hR) hvw.symm _⟩

theorem forget (hR : BiUnique R) (h : s.Like R t) (hvw : v.Like R w) :
    (s.forget v).Like R (t.forget w) :=
  ⟨h.stack, h.bindings, h.facts.erase hR hvw, h.back.erase (biUnique_flip hR) hvw.symm⟩

/-! Garbage -/

/-- What can be come across on one side can be come across on the other. -/
theorem reachable_of_like (hR : BiUnique R) (h : s.Like R t) (hvw : v.Like R w)
    (hv : v ∈ s.reachable) : w ∈ t.reachable := by
  obtain ⟨root, hroot, hpart⟩ := mem_reachable.1 hv
  obtain ⟨root', hlike, hroot'⟩ :
      ∃ root', root.Like R root' ∧ (root' ∈ t.stack ∨ ∃ id, t.lookup id = some root') := by
    rcases hroot with hroot | ⟨id, hid⟩
    · obtain ⟨root', hroot', hlike⟩ := exists_of_forall₂ h.stack hroot
      exact ⟨root', hlike, .inl hroot'⟩
    · obtain ⟨hs, -⟩ | ⟨v', w', hs, ht, hlike⟩ := optionRel_cases (h.bindings id)
      · cases hs.symm.trans hid
      · obtain rfl := Option.some.inj (hs.symm.trans hid)
        exact ⟨w', hlike, .inr ⟨id, ht⟩⟩
  obtain ⟨w', hw', hvw'⟩ := exists_of_forall₂ hlike.parts hpart
  rw [(Value.Like.biUnique hR).2 hvw hvw']
  exact mem_reachable.2 ⟨root', hroot', hw'⟩

theorem reachable_contains_eq (hR : BiUnique R) (h : s.Like R t) (hvw : v.Like R w) :
    s.reachable.contains v = t.reachable.contains w := by
  rw [Bool.eq_iff_iff, List.contains_iff_mem, List.contains_iff_mem]
  exact ⟨h.reachable_of_like hR hvw, h.symm.reachable_of_like (biUnique_flip hR) hvw.symm⟩

theorem keeps_eq (hR : BiUnique R) (h : s.Like R t) (hvw : v.Like R w) (f : Facts) :
    keeps s.reachable v f = keeps t.reachable w f := by
  have hempty : v.operands.isEmpty = w.operands.isEmpty := isEmpty_eq_of_forall₂ hvw.operands
  have hall : (v.operands.all fun o => s.reachable.contains o) =
      w.operands.all fun o => t.reachable.contains o :=
    all_eq_of_forall₂ hvw.operands fun _ _ ho => h.reachable_contains_eq hR ho
  rw [keeps, keeps, hvw.isConstant, h.reachable_contains_eq hR hvw, hempty, hall]

theorem collectGarbage (hR : BiUnique R) (h : s.Like R t) :
    s.collectGarbage.Like R t.collectGarbage :=
  ⟨h.stack, h.bindings, h.facts.filter fun _ _ f hvw => h.keeps_eq hR hvw f,
    h.back.filter fun _ _ f hvw => (h.keeps_eq hR hvw.symm f).symm⟩

/-! Settled composites -/

theorem equality (hR : BiUnique R) (h : s.Like R t) (kind : EqualityKind) {v' w' : Value}
    (hvw : v.Like R w) (hvw' : v'.Like R w') :
    (s.equality kind v v').Like R (t.equality kind w w') := by
  unfold State.equality
  simp only [h.has_eq hR hvw, h.has_eq hR hvw', hvw.eq_iff hR hvw']
  split
  · exact .constant .yes
  · split
    · exact .constant .no
    · exact .equal kind hvw hvw'

theorem negate (hR : BiUnique R) (h : s.Like R t) (hvw : v.Like R w) :
    (s.negate v).Like R (t.negate w) := by
  unfold State.negate
  rw [h.factsOf_eq hR hvw]
  split
  · exact .ofBool _
  · exact .not hvw

theorem blankness (hR : BiUnique R) (h : s.Like R t) (hvw : v.Like R w) (whitespace : Bool) :
    (s.blankness v whitespace).Like R (t.blankness w whitespace) := by
  unfold State.blankness
  simp only [h.has_eq hR hvw]
  split
  · exact .constant .yes
  · split
    · exact .constant .no
    · exact .blank hvw whitespace

theorem typeTest (hR : BiUnique R) (h : s.Like R t) (hvw : v.Like R w) :
    (s.typeTest v).Like R (t.typeTest w) := by
  unfold State.typeTest
  rw [h.has_eq hR hvw]
  split
  · exact .constant .no
  · exact .ofType hvw

theorem peekCall (h : s.Like R t) (argCount : Nat) :
    Agree (fun c c' => Option.Rel (Value.Like R) c.receiver c'.receiver ∧
      List.Forall₂ (Value.Like R) c.arguments c'.arguments) (s.peekCall argCount)
      (t.peekCall argCount) :=
  (h.peek argCount).bind fun _ _ hgroup =>
    .ok ⟨hgroup.receiver?, List.rel_reverse (List.forall₂_take argCount h.stack)⟩

/-! Where states come from -/

/-- At the start only constants are known. -/
theorem initial (R : Identity → Identity → Prop) : State.initial.Like R State.initial := by
  have hcarries : ∀ S, Carries S State.initial.facts State.initial.facts := by
    intro S v f hv
    refine ⟨v, ?_, hv⟩
    rw [State.facts_initial] at hv
    cases v with
    | constant c => exact .constant c
    | _ => cases hv
  exact ⟨.nil, fun _ => .none, hcarries R, hcarries (flip R)⟩

theorem of_same (h : s.Like R t) (hsame : t.same u) : s.Like R u := by
  simp only [State.same, Bool.and_eq_true, beq_iff_eq] at hsame
  obtain ⟨⟨hstack, hbindings⟩, hfacts⟩ := hsame
  refine ⟨hstack ▸ h.stack, fun id => ?_, hfacts ▸ h.facts, hfacts ▸ h.back⟩
  have hlookup : u.lookup id = t.lookup id := by rw [State.lookup, State.lookup, hbindings]
  exact hlookup ▸ h.bindings id

/-! Whether two states are the same can be told on either side. -/

theorem facts_eq_of_facts_eq (hR : BiUnique R) {s' t' : State} (h : s.Like R t)
    (h' : s'.Like R t') (heq : s.facts = s'.facts) : t.facts = t'.facts := by
  refine Std.ExtTreeMap.ext_getElem? fun w => ?_
  cases ht : t.facts[w]? with
  | some f =>
    obtain ⟨v, hwv, hv⟩ := h.back w f ht
    rw [← h'.facts_eq hR hwv.symm, ← heq, hv]
  | none =>
    cases ht' : t'.facts[w]? with
    | none => rfl
    | some f =>
      obtain ⟨v, hwv, hv⟩ := h'.back w f ht'
      rw [← heq, h.facts_eq hR hwv.symm, ht] at hv
      cases hv

theorem same_eq (hR : BiUnique R) {s' t' : State} (h : s.Like R t) (h' : s'.Like R t') :
    s.same s' = t.same t' := by
  have hvalue := Value.Like.biUnique hR
  have hstack : s.stack = s'.stack ↔ t.stack = t'.stack :=
    Relator.rel_eq hvalue.forall₂ h.stack h'.stack
  have hbindings : s.bindings = s'.bindings ↔ t.bindings = t'.bindings := by
    rw [Std.ExtTreeMap.ext_getElem?_iff, Std.ExtTreeMap.ext_getElem?_iff]
    exact forall_congr' fun id => optionRel_eq_iff hvalue (h.bindings id) (h'.bindings id)
  have hfacts : s.facts = s'.facts ↔ t.facts = t'.facts :=
    ⟨h.facts_eq_of_facts_eq hR h', h.symm.facts_eq_of_facts_eq (biUnique_flip hR) h'.symm⟩
  rw [Bool.eq_iff_iff]
  simp only [same, Bool.and_eq_true, beq_iff_eq, hstack, hbindings, hfacts]

end State.Like

end Pathwise
