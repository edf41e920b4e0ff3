import Pathwise.Proofs.Transfer.Effect
import Pathwise.Transfer.Call

/-!
The operands of a call, come by in two ways. A rule that looks at a call before it is made reads
them where they lie: each at its depth, the deepest first. The call itself takes them off the stack,
one after the other from the top. Both ways come to the same values, and they fail on the same
stacks.

Each way is described by the shape of the stack on which it succeeds: the arguments on top, the last
one first, and the method below them.
-/

namespace Pathwise

namespace State

variable {s t : State} {n : Nat} {v : Value} {vs : List Value}

/-! ### Taking values -/

/-- Takes a number of values, one at a time. The one that was on top is listed first. -/
def popEach : (count : Nat) → State → Except Fault (State × List Value)
  | 0, s => .ok (s, [])
  | count + 1, s => do
    let (s, v) ← s.pop
    let (s, vs) ← popEach count s
    return (s, v :: vs)

theorem pop_eq_ok_iff :
    s.pop = .ok (t, v) ↔ ∃ rest, s.stack = v :: rest ∧ t = { s with stack := rest } := by
  constructor
  · intro h
    unfold pop at h
    split at h
    · next w rest hstack =>
      obtain ⟨rfl, rfl⟩ := Prod.mk.inj (Except.ok.inj h)
      exact ⟨rest, hstack, rfl⟩
    · cases h
  · rintro ⟨rest, hstack, rfl⟩
    exact pop_of_stack hstack

theorem popMany_eq_ok_iff :
    s.popMany n = .ok (t, vs) ↔
      vs.length = n ∧ ∃ rest, s.stack = vs.reverse ++ rest ∧ t = { s with stack := rest } := by
  constructor
  · intro h
    refine ⟨length_of_popMany h, t.stack, stack_of_popMany h, ?_⟩
    unfold popMany at h
    split at h
    · cases h
    · obtain ⟨rfl, -⟩ := Prod.mk.inj (Except.ok.inj h)
      rfl
  · rintro ⟨rfl, rest, hstack, rfl⟩
    exact popMany_of_stack hstack

/-- One value is taken, and then the others from what is left. -/
theorem popEach_succ_eq_ok_iff :
    s.popEach (n + 1) = .ok (t, vs) ↔ ∃ u top below,
      s.pop = .ok (u, top) ∧ u.popEach n = .ok (t, below) ∧ vs = top :: below := by
  constructor
  · intro h
    cases hpop : s.pop with
    | error fault =>
      simp only [popEach, hpop] at h
      cases h
    | ok r =>
      cases hrest : r.1.popEach n with
      | error fault =>
        simp only [popEach, hpop, bind, Except.bind, hrest] at h
        cases h
      | ok r' =>
        simp only [popEach, hpop, bind, Except.bind, hrest, pure, Except.pure] at h
        obtain ⟨rfl, rfl⟩ := Prod.mk.inj (Except.ok.inj h)
        exact ⟨r.1, r.2, r'.2, rfl, hrest, rfl⟩
  · rintro ⟨u, top, below, hpop, hrest, rfl⟩
    simp only [popEach, hpop, bind, Except.bind, hrest, pure, Except.pure]

theorem popEach_eq_ok_iff :
    s.popEach n = .ok (t, vs) ↔
      vs.length = n ∧ ∃ rest, s.stack = vs ++ rest ∧ t = { s with stack := rest } := by
  induction n generalizing s vs with
  | zero =>
    constructor
    · intro h
      obtain ⟨rfl, rfl⟩ := Prod.mk.inj (Except.ok.inj h)
      exact ⟨rfl, s.stack, rfl, rfl⟩
    · rintro ⟨hlength, rest, hstack, rfl⟩
      obtain rfl := List.length_eq_zero_iff.1 hlength
      rw [List.nil_append] at hstack
      rw [popEach, ← hstack]
  | succ n ih =>
    rw [popEach_succ_eq_ok_iff]
    constructor
    · rintro ⟨u, top, below, hpop, hbelow, rfl⟩
      obtain ⟨left, hstack, rfl⟩ := pop_eq_ok_iff.1 hpop
      obtain ⟨hlength, rest, hleft, rfl⟩ := ih.1 hbelow
      dsimp only at hleft
      exact ⟨congrArg Nat.succ hlength, rest, by rw [hstack, hleft, List.cons_append], rfl⟩
    · rintro ⟨hlength, rest, hstack, rfl⟩
      obtain ⟨top, below, rfl⟩ := List.exists_cons_of_length_eq_add_one hlength
      exact ⟨_, top, below, pop_eq_ok_iff.2 ⟨_, hstack, rfl⟩,
        ih.2 ⟨Nat.succ.inj hlength, rest, rfl, rfl⟩, rfl⟩

/-! ### Reading values -/

/-- The value below a number of others lies at that depth. -/
theorem peek_of_stack {rest : List Value} (h : s.stack = vs.reverse ++ v :: rest) :
    s.peek vs.length = .ok v := by
  rw [peek_eq_ok_iff, h, List.getElem?_append_right (by simp)]
  simp

/-- Values are read in the order in which they were pushed by going from the deepest to the top. -/
theorem mapM_peek_of_stack {rest : List Value} (h : s.stack = vs.reverse ++ rest) :
    (List.range vs.length).reverse.mapM s.peek = .ok vs := by
  induction vs generalizing rest with
  | nil => rfl
  | cons v vs ih =>
    -- the value that was pushed first lies deepest, below all others
    have hstack : s.stack = vs.reverse ++ v :: rest := by
      rw [h, List.reverse_cons, List.append_assoc, List.singleton_append]
    rw [List.length_cons, List.range_succ, List.reverse_append, List.reverse_singleton,
      List.singleton_append, List.mapM_cons, peek_of_stack hstack, ih hstack]
    rfl

theorem exists_stack_of_lt (h : n < s.stack.length) :
    ∃ (vs : List Value) (v : Value) (rest : List Value),
      s.stack = vs.reverse ++ v :: rest ∧ vs.length = n := by
  refine ⟨(s.stack.take n).reverse, s.stack[n], s.stack.drop (n + 1), ?_, ?_⟩
  · rw [List.reverse_reverse, ← List.drop_eq_getElem_cons h, List.take_append_drop]
  · rw [List.length_reverse, List.length_take]
    omega

/-! ### Calls -/

theorem peekCall_of_stack {rest : List Value} (h : s.stack = vs.reverse ++ v :: rest) :
    s.peekCall vs.length = .ok ⟨v.receiver?, vs⟩ := by
  have htake : (s.stack.take vs.length).reverse = vs := by
    rw [h, List.take_left' List.length_reverse, List.reverse_reverse]
  rw [peekCall, peek_of_stack h, htake]
  rfl

theorem peekCall_of_le (h : s.stack.length ≤ n) : s.peekCall n = .error (.noSuchStackFrame n) := by
  rw [peekCall, peek, List.getElem?_eq_none h]
  rfl

theorem exists_peekCall_iff : (∃ c, s.peekCall n = .ok c) ↔ n + 1 ≤ s.stack.length := by
  constructor
  · rintro ⟨c, hc⟩
    rcases Nat.lt_or_ge n s.stack.length with hlt | hle
    · exact hlt
    · rw [peekCall_of_le hle] at hc
      cases hc
  · intro hlt
    obtain ⟨vs, group, rest, hstack, rfl⟩ := exists_stack_of_lt hlt
    exact ⟨_, peekCall_of_stack hstack⟩

/-- The operands are read one by one, each at its depth. -/
theorem peekCall_eq_peeks (s : State) (n : Nat) :
    s.peekCall n = do
      let group ← s.peek n
      let args ← (List.range n).reverse.mapM s.peek
      return ⟨group.receiver?, args⟩ := by
  rcases Nat.lt_or_ge n s.stack.length with hlt | hle
  · obtain ⟨vs, group, rest, hstack, rfl⟩ := exists_stack_of_lt hlt
    rw [peekCall_of_stack hstack, peek_of_stack hstack, mapM_peek_of_stack hstack]
    rfl
  · rw [peekCall_of_le hle, peek, List.getElem?_eq_none hle]
    rfl

/-- What a call takes off the stack: the arguments on top of it, and the method below them. -/
theorem popMany_pop_eq_ok_iff {args : List Value} {group : Value} :
    (∃ t u, s.popMany n = .ok (t, args) ∧ t.pop = .ok (u, group)) ↔
      args.length = n ∧ ∃ rest, s.stack = args.reverse ++ group :: rest := by
  constructor
  · rintro ⟨t, u, hmany, hpop⟩
    obtain ⟨hlength, below, hstack, rfl⟩ := popMany_eq_ok_iff.1 hmany
    obtain ⟨rest, hbelow, -⟩ := pop_eq_ok_iff.1 hpop
    dsimp only at hbelow
    exact ⟨hlength, rest, hbelow ▸ hstack⟩
  · rintro ⟨hlength, rest, hstack⟩
    exact ⟨_, _, popMany_eq_ok_iff.2 ⟨hlength, _, hstack, rfl⟩, pop_eq_ok_iff.2 ⟨rest, rfl, rfl⟩⟩

/-- Puts values onto the stack, the first one first. -/
def pushEach (s : State) (vs : List Value) : State := vs.foldl push s

theorem stack_pushEach (s : State) (vs : List Value) :
    (s.pushEach vs).stack = vs.reverse ++ s.stack := by
  induction vs generalizing s with
  | nil => rfl
  | cons v vs ih =>
    show ((s.push v).pushEach vs).stack = _
    rw [ih, stack_push, List.reverse_cons, List.append_assoc, List.singleton_append]

/-- A call goes through exactly if the stack holds its arguments and the method. -/
theorem exists_visit_invocation_iff (t : Transfer) (method : Method) (ids : Supply) :
    (∃ r, t.visit (.invocation method n) s ids = .ok r) ↔ n + 1 ≤ s.stack.length := by
  have hmeets := t.visitInvocation_meets method n s ids
  rw [Transfer.visit]
  constructor
  · rintro ⟨r, hr⟩
    rw [hr] at hmeets
    exact hmeets.1
  · intro hle
    cases hvisit : t.visitInvocation method n s ids with
    | ok r => exact ⟨r, rfl⟩
    | error fault =>
      rw [hvisit] at hmeets
      obtain ⟨-, -, -, hshort⟩ := hmeets
      omega

/-- What is seen of the operands of a call is what the call takes. Looking at them succeeds exactly
if taking them does, which is if the stack holds the arguments and the method, and on these stacks
alone a call goes through. Then the arguments are those that are taken, and the receiver is that of
the method that is taken after them. Arguments are read one by one from their depths, and taken one
by one from the top. And what was pushed is what is seen. -/
theorem peekCall_exact (s : State) (n : Nat) :
    ((∃ c, s.peekCall n = .ok c) ↔
      ∃ t args u group, s.popMany n = .ok (t, args) ∧ t.pop = .ok (u, group)) ∧
    ((∃ c, s.peekCall n = .ok c) ↔ n + 1 ≤ s.stack.length) ∧
    (∀ (t : Transfer) method ids,
      (∃ c, s.peekCall n = .ok c) ↔ ∃ r, t.visit (.invocation method n) s ids = .ok r) ∧
    (∀ t args u group, s.popMany n = .ok (t, args) → t.pop = .ok (u, group) →
      s.peekCall n = .ok ⟨group.receiver?, args⟩) ∧
    (s.peekCall n = do
      let group ← s.peek n
      let args ← (List.range n).reverse.mapM s.peek
      return ⟨group.receiver?, args⟩) ∧
    (∀ t args, s.popMany n = .ok (t, args) ↔ s.popEach n = .ok (t, args.reverse)) ∧
    ∀ (group : Value) (args : List Value),
      ((s.push group).pushEach args).peekCall args.length = .ok ⟨group.receiver?, args⟩ := by
  have htaken : ∀ t args u group, s.popMany n = .ok (t, args) → t.pop = .ok (u, group) →
      s.peekCall n = .ok ⟨group.receiver?, args⟩ := by
    intro t args u group hmany hpop
    obtain ⟨rfl, rest, hstack⟩ := popMany_pop_eq_ok_iff.1 ⟨t, u, hmany, hpop⟩
    exact peekCall_of_stack hstack
  refine ⟨⟨?_, ?_⟩, exists_peekCall_iff, fun t method ids => ?_, htaken, peekCall_eq_peeks s n,
    fun t args => ?_, fun group args => ?_⟩
  · intro hseen
    obtain ⟨args, group, rest, hstack, hlength⟩ := exists_stack_of_lt (exists_peekCall_iff.1 hseen)
    obtain ⟨t, u, hmany, hpop⟩ := popMany_pop_eq_ok_iff.2 ⟨hlength, rest, hstack⟩
    exact ⟨t, args, u, group, hmany, hpop⟩
  · rintro ⟨t, args, u, group, hmany, hpop⟩
    exact ⟨_, htaken t args u group hmany hpop⟩
  · rw [exists_peekCall_iff, exists_visit_invocation_iff]
  · rw [popMany_eq_ok_iff, popEach_eq_ok_iff, List.length_reverse]
  · exact peekCall_of_stack (stack_pushEach _ _)

end State

end Pathwise
