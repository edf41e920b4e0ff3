import Pathwise.Proofs.Solver.Narrowing
import Pathwise.Rule.Basic

/-!
What a rule may do to a state. However a rule changes a state, it does so by recording facts, and
some rules forget what was known of values as collections or as locks. Only the rule about locks
records that a lock is held. The stack, the bindings and the visits of the path are left alone, in
whatever order the rules look.

A property that outlives each of these outlives the rule. `Rule.before_keeps` says so for all rules
at once, and whatever rules leave alone is read off it.
-/

namespace Pathwise

/-! ### The ways in which a state may change -/

/-- The domain in which a rule forgets facts. -/
def Rule.forgets? : Rule → Option Domain
  | .lockRelease => some .lock
  | .emptyCollection => some .collection
  | _ => none

/-- The property outlives each of the ways in which the rule may change a state. -/
structure Rule.Outlives (rule : Rule) (P : State → Prop) : Prop where
  record : ∀ {s t : State} {v : Value} {c : Constraint}, (c = .held → rule = .lockRelease) →
    s.record? v c = some t → P s → P t
  forget : ∀ {s : State} {d : Domain} (v : Value), rule.forgets? = some d → P s →
    P (s.forgetIn v d)

/-- What is left of the state, if the path goes on, is as described. -/
def Sighting.Keeps (P : State → Prop) (seen : Sighting) : Prop := ∀ t, seen.state = some t → P t

namespace Sighting

variable {P : State → Prop} {s : State} {observations : List Observation}

theorem keeps_some (hs : P s) : Keeps P ⟨observations, some s⟩ := by
  intro t ht
  obtain rfl := Option.some.inj ht
  exact hs

theorem keeps_unchanged (hs : P s) : (unchanged s).Keeps P := keeps_some hs

theorem keeps_none : Keeps P ⟨observations, none⟩ := fun _ ht => absurd ht (by simp)

theorem Keeps.mono {Q : State → Prop} {seen : Sighting} (h : seen.Keeps P) (hQ : ∀ t, P t → Q t) :
    seen.Keeps Q :=
  fun t ht => hQ t (h t ht)

/-- What each of the rules keeps, they keep together. -/
theorem keeps_inTurn {looks : List (State → Sighting)}
    (h : ∀ look ∈ looks, ∀ s, P s → (look s).Keeps P) (hs : P s) : (inTurn looks s).Keeps P := by
  induction looks generalizing s with
  | nil => exact keeps_unchanged hs
  | cons look looks ih =>
    have hfirst := h look List.mem_cons_self s hs
    rw [inTurn]
    split
    · exact keeps_none
    · next observations t hlook =>
      rw [hlook] at hfirst
      exact ih (fun l hl => h l (List.mem_cons_of_mem _ hl)) (hfirst t rfl)

end Sighting

/-! ### One rule -/

namespace Rule.Outlives

open Sighting

variable {rule : Rule} {P : State → Prop} {s t : State} {v : Value} {c : Constraint} {site : Site}

theorem constrain (hP : rule.Outlives P) (hs : P s) (hc : c = .held → rule = .lockRelease)
    (h : site.constrain s v c = some t) : P t :=
  Solver.keeps_of_mem_assume (fun hheld => hP.record fun hd => hc (hheld hd)) hs
    (List.mem_of_mem_head? h)

theorem keeps_constrain (hP : rule.Outlives P) (hs : P s) (hc : c = .held → rule = .lockRelease)
    {observations : List Observation} : Keeps P ⟨observations, site.constrain s v c⟩ :=
  fun _ ht => hP.constrain hs hc ht

theorem demandNotNull (hP : rule.Outlives P) (hs : P s) (depth : Option Nat) (name : String)
    (message : String → String) : (site.demandNotNull s depth name message).Keeps P := by
  unfold Site.demandNotNull
  split
  · exact keeps_unchanged hs
  split
  · exact keeps_unchanged hs
  split
  · exact keeps_none
  · exact hP.keeps_constrain hs (by simp)

theorem dispose (hP : rule.Outlives P) (hs : P s) (resource : Value) (name : Option String) :
    (DisposedTwice.dispose site resource name s).Keeps P := by
  unfold DisposedTwice.dispose
  split
  · exact keeps_unchanged hs
  split
  · exact keeps_some hs
  · exact hP.keeps_constrain hs (by simp)

theorem forgetAll (hP : rule.Outlives P) (hs : P s) {d : Domain} (hd : rule.forgets? = some d)
    (vs : List Value) : P (vs.foldl (fun s v => s.forgetIn v d) s) := by
  induction vs generalizing s with
  | nil => exact hs
  | cons v vs ih => exact ih (hP.forget v hd hs)

theorem access (hs : P s) (collection : Value) (what : String) :
    (EmptyCollection.access site collection what s).Keeps P := by
  unfold EmptyCollection.access
  split
  · exact keeps_some hs
  · exact keeps_unchanged hs

theorem call (hP : Rule.emptyCollection.Outlives P) (hs : P s) (method : Method)
    (operands : CallOperands) : (EmptyCollection.call site method operands s).Keeps P := by
  unfold EmptyCollection.call
  split
  · exact access hs _ _
  · exact hP.keeps_constrain (hP.forget _ rfl hs) (by simp)
  · exact hP.keeps_constrain (hP.forget _ rfl hs) (by simp)
  · split
    · exact keeps_unchanged hs
    · exact keeps_unchanged (hP.forgetAll hs rfl _)
  · exact keeps_unchanged hs

theorem beforeBy (hP : rule.Outlives P) (hs : P s) (site : Site) (i : Instruction) :
    (beforeBy site i rule s).Keeps P := by
  have hsame : (unchanged s).Keeps P := keeps_unchanged hs
  cases rule with
  | nullDereference | emptyNullable => exact hP.demandNotNull hs _ _ _
  | disposedTwice =>
    show (DisposedTwice.before site i s).Keeps P
    unfold DisposedTwice.before
    split
    · split
      · split
        · exact hP.dispose hs _ _
        · exact hsame
      · exact hsame
    · exact hsame
  | lockRelease =>
    show (LockRelease.before site i s).Keeps P
    unfold LockRelease.before
    split
    · split
      · exact hP.keeps_constrain hs fun _ => rfl
      · exact keeps_unchanged (hP.forget _ rfl hs)
      · exact hsame
    · exact hsame
  | emptyCollection =>
    show (EmptyCollection.before site i s).Keeps P
    unfold EmptyCollection.before
    split
    · split
      · exact hP.call hs _ _
      · exact hsame
    · split
      · exact access hs _ _
      · exact hsame
    · exact hsame
  | constantCondition => exact hsame
  | journal => exact keeps_some hs

end Rule.Outlives

/-! ### All rules, in turn -/

namespace Rule

variable {P : State → Prop} {s : State} {rules : List Rule}

theorem before_keeps (hP : ∀ rule ∈ rules, rule.Outlives P) (hs : P s) (site : Site)
    (i : Instruction) : (before rules site i s).Keeps P := by
  refine Sighting.keeps_inTurn ?_ hs
  intro look hlook s hs
  obtain ⟨rule, hrule, rfl⟩ := List.mem_map.1 hlook
  exact (hP rule hrule).beforeBy hs site i

/-- Where a scope takes over a resource, only the rule about resources has something to say. -/
theorem usingScope_keeps (hP : Rule.disposedTwice.Outlives P) (hs : P s) (site : Site)
    (resource : Value) : (usingScope rules site resource s).Keeps P := by
  refine Sighting.keeps_inTurn ?_ hs
  intro look hlook s hs
  obtain ⟨rule, -, rfl⟩ := List.mem_map.1 hlook
  cases rule with
  | disposedTwice => exact hP.dispose hs resource _
  | journal => exact Sighting.keeps_some hs
  | _ => exact Sighting.keeps_unchanged hs

/-- At an object that was created, only the rule about collections has something to say. -/
theorem created_keeps (hP : Rule.emptyCollection.Outlives P) (hs : P s) (site : Site)
    (type : TypeInfo) (argCount : Nat) (v : Value) :
    P (created rules site type argCount v s).2 := by
  unfold created EmptyCollection.created
  split
  · split
    · cases h : site.constrain s v .emptyCollection with
      | none => exact hs
      | some t => exact hP.constrain hs (by simp) h
    · exact hs
  · exact hs

/-! ### Facts that rules learn -/

theorem outlives_learns (rule : Rule) (s : State) : rule.Outlives s.Learns where
  record _ ht h := h.record ht
  forget v hd h := by
    refine .forget h v ?_
    cases rule <;> simp_all [forgets?]

theorem learns_before (rules : List Rule) (site : Site) (i : Instruction) (s : State) :
    (before rules site i s).Keeps s.Learns :=
  before_keeps (fun rule _ => rule.outlives_learns s) (.refl s) site i

theorem learns_usingScope (rules : List Rule) (site : Site) (resource : Value) (s : State) :
    (usingScope rules site resource s).Keeps s.Learns :=
  usingScope_keeps (outlives_learns _ s) (.refl s) site resource

theorem learns_created (rules : List Rule) (site : Site) (type : TypeInfo) (argCount : Nat)
    (v : Value) (s : State) : s.Learns (created rules site type argCount v s).2 :=
  created_keeps (outlives_learns _ s) (.refl s) site type argCount v

theorem factsOnly_beforeBy (site : Site) (i : Instruction) (rule : Rule) (s : State) :
    (beforeBy site i rule s).Keeps s.FactsOnly :=
  ((rule.outlives_learns s).beforeBy (.refl s) site i).mono fun _ h => h.factsOnly

theorem factsOnly_before (rules : List Rule) (site : Site) (i : Instruction) (s : State) :
    (before rules site i s).Keeps s.FactsOnly :=
  (learns_before rules site i s).mono fun _ h => h.factsOnly

theorem factsOnly_usingScope (rules : List Rule) (site : Site) (resource : Value) (s : State) :
    (usingScope rules site resource s).Keeps s.FactsOnly :=
  (learns_usingScope rules site resource s).mono fun _ h => h.factsOnly

theorem factsOnly_created (rules : List Rule) (site : Site) (type : TypeInfo) (argCount : Nat)
    (v : Value) (s : State) : s.FactsOnly (created rules site type argCount v s).2 :=
  (learns_created rules site type argCount v s).factsOnly

end Rule

end Pathwise
