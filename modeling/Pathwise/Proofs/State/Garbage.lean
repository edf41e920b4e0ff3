import Pathwise.Symbolic.Solver
import Pathwise.Symbolic.State.Lemmas

/-!
What garbage collection keeps. A later step can come across the values at hand: those on the stack,
those that symbols hold, and everything that these were computed from. A constant can be written
down at any time. Together these are the observable values, and what is known of them is kept; so is
what is known of a held lock.

A value that is not observable may come up again if it is computed a second time, for which all its
operands are needed. Here a constant counts only if it is at hand. What is known of the comparison
of a variable with a constant is therefore lost, although the comparison can be made again.
-/

namespace Pathwise.State

/-- The values at hand: the least set that contains the stack and what symbols hold, and with a
value its operands. -/
inductive AtHand (s : State) : Value → Prop where
  | stack {v : Value} (h : v ∈ s.stack) : AtHand s v
  | bound {v : Value} {id : SymbolId} (h : s.lookup id = some v) : AtHand s v
  | operand {v w : Value} (h : AtHand s w) (hv : v ∈ w.operands) : AtHand s v

/-- The observable values: the least set that contains the stack, what symbols hold and the
constants, and with a value its operands. -/
inductive Observable (s : State) : Value → Prop where
  | stack {v : Value} (h : v ∈ s.stack) : Observable s v
  | bound {v : Value} {id : SymbolId} (h : s.lookup id = some v) : Observable s v
  | constant (c : Constant) : Observable s (.constant c)
  | operand {v w : Value} (h : Observable s w) (hv : v ∈ w.operands) : Observable s v

variable {s : State} {u v : Value}

/-- What a value at hand was computed from, at any depth, is at hand. -/
theorem AtHand.of_mem_parts (h : s.AtHand v) (hu : u ∈ v.parts) : s.AtHand u := by
  induction v using Value.operands_induction with
  | step v ih =>
    rcases Value.mem_parts_iff.1 hu with rfl | ⟨x, hx, hux⟩
    · exact h
    · exact ih x hx (.operand h hx) hux

/-- The values that garbage collection takes for reachable are those at hand. -/
theorem mem_reachable_iff_atHand : v ∈ s.reachable ↔ s.AtHand v := by
  constructor
  · intro h
    obtain ⟨root, hroot, hpart⟩ := mem_reachable.1 h
    rcases hroot with hstack | ⟨id, hbound⟩
    · exact (AtHand.stack hstack).of_mem_parts hpart
    · exact (AtHand.bound hbound).of_mem_parts hpart
  · intro h
    induction h with
    | stack h => exact mem_reachable.2 ⟨_, .inl h, Value.self_mem_parts _⟩
    | bound h => exact mem_reachable.2 ⟨_, .inr ⟨_, h⟩, Value.self_mem_parts _⟩
    | operand _ hv ih =>
      obtain ⟨root, hroot, hpart⟩ := mem_reachable.1 ih
      exact mem_reachable.2 ⟨root, hroot, Value.mem_parts_of_mem_operands hpart hv⟩

theorem Observable.of_atHand (h : s.AtHand v) : s.Observable v := by
  induction h with
  | stack h => exact .stack h
  | bound h => exact .bound h
  | operand _ hv ih => exact .operand ih hv

/-- A constant has no operands, so it adds nothing but itself to what is observable. -/
theorem observable_iff : s.Observable v ↔ v.isConstant ∨ s.AtHand v := by
  constructor
  · intro h
    induction h with
    | stack h => exact .inr (.stack h)
    | bound h => exact .inr (.bound h)
    | constant c => exact .inl rfl
    | @operand v w _ hv ih =>
      rcases ih with hconstant | hw
      · cases w <;> simp_all [Value.isConstant, Value.operands]
      · exact .inr (.operand hw hv)
  · rintro (hconstant | h)
    · cases v with
      | constant c => exact .constant c
      | _ => cases hconstant
    · exact .of_atHand h

/-- The operands of a value are at hand exactly if they are observable, and the constants among them
are at hand. -/
theorem atHand_iff : s.AtHand v ↔ s.Observable v ∧ (v.isConstant → s.AtHand v) := by
  rw [observable_iff]
  constructor
  · exact fun h => ⟨.inr h, fun _ => h⟩
  · rintro ⟨hconstant | h, hhand⟩
    · exact hhand hconstant
    · exact h

/-- What is known of a value is kept if the value is observable, if all its operands are observable
and the constants among them are at hand, or if it is a held lock. -/
def Kept (s : State) (v : Value) : Prop :=
  s.Observable v ∨
    (v.operands ≠ [] ∧ ∀ x ∈ v.operands, s.Observable x ∧ (x.isConstant → s.AtHand x)) ∨
    s.has v .held

theorem keeps_iff : keeps s.reachable v (s.factsOf v) ↔ s.Kept v := by
  have hoperands : (∀ x ∈ v.operands, s.Observable x ∧ (x.isConstant → s.AtHand x)) ↔
      ∀ x ∈ v.operands, x ∈ s.reachable :=
    forall₂_congr fun _ _ => atHand_iff.symm.trans mem_reachable_iff_atHand.symm
  rw [Kept, hoperands, observable_iff, ← mem_reachable_iff_atHand]
  simp [keeps, has, or_assoc]

/-- Garbage collection changes nothing but what is known. Where it is to be kept it is unchanged,
and nothing is known of any other value. -/
theorem collectGarbage_exact (s : State) :
    (s.collectGarbage.stack = s.stack ∧ s.collectGarbage.bindings = s.bindings ∧
      s.collectGarbage.visits = s.visits) ∧
    ∀ v, (s.Kept v → s.collectGarbage.factsOf v = s.factsOf v) ∧
      (¬ s.Kept v → s.collectGarbage.factsOf v = .nothing) := by
  refine ⟨⟨rfl, rfl, rfl⟩, fun v => ⟨fun h => ?_, fun h => ?_⟩⟩
  · rw [factsOf_collectGarbage, if_pos (keeps_iff.2 h)]
  · rw [factsOf_collectGarbage, if_neg (mt keeps_iff.1 h)]

/-- The test whether an unknown is the current instance. -/
def selfTest : Value := .equal .reference (.unknown 0) .self

/-- A variable was found to hold the current instance. -/
def holdingSelf : State :=
  { State.initial.assign ⟨0⟩ (.unknown 0) with
    facts := State.initial.facts.insert selfTest
      { Facts.nothing with object := some .notNull, bool := some true } }

/-- Both operands of the test are observable, so it can be made again at any time. But its outcome
is lost, and the test may come out the other way. -/
theorem collectGarbage_drops_selfTest :
    selfTest.operands ≠ [] ∧ (∀ x ∈ selfTest.operands, holdingSelf.Observable x) ∧
      holdingSelf.has selfTest (.bool true) ∧
      (Solver.ofLimit 16).assume holdingSelf selfTest (.bool false) = [] ∧
      holdingSelf.collectGarbage.factsOf selfTest = .nothing ∧
      (Solver.ofLimit 16).assume holdingSelf.collectGarbage selfTest (.bool false) ≠ [] := by
  have hbound : holdingSelf.lookup ⟨0⟩ = some (.unknown 0) := rfl
  have hobservable : ∀ x ∈ selfTest.operands, holdingSelf.Observable x := by
    intro x hx
    simp only [selfTest, Value.operands, List.mem_cons, List.not_mem_nil, or_false] at hx
    rcases hx with rfl | rfl
    · exact .bound hbound
    · exact .constant .self
  exact ⟨by decide, hobservable, by decide, by decide, by decide +kernel, by decide +kernel⟩

end Pathwise.State
