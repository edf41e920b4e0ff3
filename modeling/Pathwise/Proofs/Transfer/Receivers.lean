import Pathwise.Proofs.Transfer.Facts

/-!
The receivers of instructions. Many instructions do something to one of their operands: they reach a
member or an element of it, call a method on it, wait for it or convert it. `Instruction.receiver?`
is the operand that an instruction takes in this role.

An instruction leaves alone what is known about its receiver as far as null is concerned. If a
receiver is known not to be null, then this is known after the instruction as well.
-/

namespace Pathwise

/-! ### Whether a value is null -/

namespace State

variable {s t : State} {v : Value}

theorem has_object_iff (s : State) (v : Value) (n : Nullness) :
    s.has v (.object n) ↔ (s.factsOf v).object = some n := by
  simp only [has, Facts.implies, Constraint.domain, Facts.get?]
  cases (s.factsOf v).object <;> simp

end State

/-! ### Receivers -/

namespace Instruction

/-- The operand that an instruction takes as the receiver of what it does, if there is one. A call
takes the receiver that its method was reached through. -/
def receiver? (i : Instruction) (s : State) : Option Value :=
  match i with
  | .memberAccess _ access | .methodGroup _ access =>
    (Transfer.popReceiver access s).toOption.bind Prod.snd
  | .await => s.pop.toOption.map Prod.snd
  | .cast _ => (s.peek 0).toOption
  | .elementAccess argCount => (s.popMany (nextCount argCount)).toOption.bind fun r => r.2.head?
  | .assignment target kind =>
    s.pop.toOption.bind fun (s, _) =>
      match target, kind with
      | _, .increment => none
      | .member _ access, _ => (Transfer.popReceiver access s).toOption.bind Prod.snd
      | .element argCount, _ => (s.popMany (nextCount argCount)).toOption.bind fun r => r.2.head?
      | _, _ => none
  | .invocation _ argCount =>
    (s.popMany argCount).toOption.bind fun (s, _) =>
      s.pop.toOption.bind fun (_, group) => group.receiver?
  | _ => none

end Instruction

namespace State

theorem toOption_pop (s : State) : s.pop.toOption.map Prod.snd = s.stack[0]? := by
  unfold pop
  cases s.stack <;> rfl

theorem toOption_peek (s : State) (depth : Nat) : (s.peek depth).toOption = s.stack[depth]? := by
  unfold peek
  cases s.stack[depth]? <;> rfl

/-- The value that was pushed first among those on top. -/
theorem head?_popMany (s : State) (count : Nat) :
    ((s.popMany (count + 1)).toOption.bind fun r => r.2.head?) = s.stack[count]? := by
  unfold popMany
  split
  · next hshort => exact (List.getElem?_eq_none (Nat.le_of_lt_succ hshort)).symm
  · next hlong =>
    simp only [Except.toOption, Option.bind_some, List.head?_reverse]
    rw [List.getLast?_eq_getElem?, List.length_take, List.getElem?_take]
    have hlength : min (count + 1) s.stack.length - 1 = count := by omega
    simp [hlength]

end State

namespace Instruction

variable {kind : AssignmentKind}

theorem toOption_popReceiver (s : State) :
    (Transfer.popReceiver .receiver s).toOption.bind Prod.snd = s.stack[0]? := by
  rw [← s.toOption_pop, Transfer.popReceiver]
  cases s.pop <;> rfl

theorem receiver?_memberAccess (id : SymbolId) (s : State) :
    (memberAccess id .receiver).receiver? s = s.stack[0]? :=
  toOption_popReceiver s

theorem receiver?_methodGroup (name : String) (s : State) :
    (methodGroup name .receiver).receiver? s = s.stack[0]? :=
  toOption_popReceiver s

theorem receiver?_await (s : State) : await.receiver? s = s.stack[0]? := s.toOption_pop

theorem receiver?_cast (kind : CastKind) (s : State) : (cast kind).receiver? s = s.stack[0]? :=
  s.toOption_peek 0

theorem receiver?_elementAccess {argCount : Nat} (hcount : argCount + 1 < UInt64.size) (s : State) :
    (elementAccess argCount).receiver? s = s.stack[argCount]? := by
  simp only [receiver?, nextCount_of_lt hcount]
  exact s.head?_popMany argCount

theorem receiver?_assignment_member (hkind : kind ≠ .increment) (id : SymbolId) (s : State) :
    (assignment (.member id .receiver) kind).receiver? s = s.stack[1]? := by
  simp only [receiver?]
  unfold State.pop
  cases s.stack with
  | nil => rfl
  | cons top rest =>
    cases kind with
    | increment => exact absurd rfl hkind
    | simple | compound => exact toOption_popReceiver { s with stack := rest }

theorem receiver?_assignment_element (hkind : kind ≠ .increment) {argCount : Nat}
    (hcount : argCount + 1 < UInt64.size) (s : State) :
    (assignment (.element argCount) kind).receiver? s = s.stack[argCount + 1]? := by
  simp only [receiver?, nextCount_of_lt hcount]
  unfold State.pop
  cases s.stack with
  | nil => rfl
  | cons top rest =>
    cases kind with
    | increment => exact absurd rfl hkind
    | simple | compound => exact State.head?_popMany { s with stack := rest } argCount

theorem receiver?_invocation (method : Method) (argCount : Nat) (s : State) :
    (invocation method argCount).receiver? s = s.stack[argCount]?.bind Value.receiver? := by
  simp only [receiver?]
  unfold State.popMany
  split
  · next hshort => rw [List.getElem?_eq_none (Nat.le_of_lt hshort)]; rfl
  · have hpop := State.toOption_pop { s with stack := s.stack.drop argCount }
    simp only [List.getElem?_drop, Nat.add_zero] at hpop
    rw [← hpop]
    simp only [Except.toOption, Option.bind_some]
    cases State.pop _ <;> rfl

end Instruction

/-! ### Instructions -/

end Pathwise
