import Pathwise.Symbolic.State

/-!
Assuming facts. To assume a fact about a value is to ask for the states in which it holds. There
are none if it contradicts what is known, and there may be several: that `a & b` is false can come
about in three ways. A truth is carried over to the operands of the value it is assumed of, at any
depth, so that each resulting state says what makes the assumption true.

The number of states that one assumption may lead to is limited. Beyond the limit the fact is
recorded about the value alone.
-/

namespace Pathwise

/-- The truths of two operands under which a connective has a given truth. -/
def Connective.ways : Connective → Bool → List (Bool × Bool)
  | .and, true => [(true, true)]
  | .and, false => [(false, true), (true, false), (false, false)]
  | .or, true => [(true, false), (false, true), (true, true)]
  | .or, false => [(false, false)]
  | .xor, true => [(true, false), (false, true)]
  | .xor, false => [(true, true), (false, false)]

/-- One of the two operands of a comparison. -/
inductive Side where
  | left
  | right
  deriving DecidableEq

/-- What operands that compare equal share: whether they are null and, if values are compared,
their truth. Each fact about `source` is carried over to the other side. -/
def sharedFacts (kind : EqualityKind) (source : Value) (target : Side) (s : State) :
    List (Side × Constraint) :=
  let nullness := s.factIn source .object
  let truth := if kind = .value then s.factIn source .bool else none
  (nullness.toList ++ truth.toList).map fun c => (target, c)

/-- What sets operands apart that do not compare equal: they are not both null and, if values are
compared, do not have the same truth. -/
def opposedFacts (kind : EqualityKind) (source : Value) (target : Side) (s : State) :
    List (Side × Constraint) :=
  let nullness := if s.has source .null then [.notNull] else []
  let truth := if kind = .value then (s.factsOf source).bool.map Bool.not else none
  (nullness ++ (truth.map Constraint.bool).toList).map fun c => (target, c)

/-- The facts that the outcome of a comparison adds about its operands, or `none` if the comparison
cannot have this outcome. -/
def equalityFacts (kind : EqualityKind) (holds : Bool) (l r : Value) (s : State) :
    Option (List (Side × Constraint)) :=
  if holds then
    if l = r then some []
    else some (sharedFacts kind l .right s ++ sharedFacts kind r .left s)
  else if l = r || (s.has l .null && s.has r .null) then none
  else some (opposedFacts kind l .right s ++ opposedFacts kind r .left s)

/-- Assumes a fact about a value: nothing changes if it is known, and otherwise it is recorded. A
truth is then carried on by `deeper`. -/
def assuming (deeper : Bool → State → List State) (v : Value) (c : Constraint) (s : State) :
    List State :=
  if s.has v c then [s]
  else
    match s.record? v c with
    | none => []
    | some s =>
      match c with
      | .bool truth => deeper truth s
      | _ => [s]

/-- Makes assumptions one after the other. It stops as soon as no state is left, or more than the
limit are. -/
def inTurn (limit : Nat) : List (State → List State) → List State → List State
  | [], states => states
  | assumption :: rest, states =>
    let states := states.flatMap assumption
    if states.isEmpty || limit < states.length then states else inTurn limit rest states

/-- Carries the truth of a value over to its operands, in a state in which it is recorded about the
value itself. -/
def propagate (limit : Nat) : Value → Bool → State → List State
  | .not x, truth, s => assuming (propagate limit x) x (.bool !truth) s
  | .logic op l r, truth, s =>
    (op.ways truth).flatMap fun (left, right) =>
      inTurn limit
        [assuming (propagate limit l) l (.bool left), assuming (propagate limit r) r (.bool right)]
        [s]
  | .equal kind l r, truth, s =>
    match equalityFacts kind truth l r s with
    | none => []
    | some facts =>
      let assumption : Side × Constraint → State → List State
        | (.left, c) => assuming (propagate limit l) l c
        | (.right, c) => assuming (propagate limit r) r c
      inTurn limit (facts.map assumption) [s]
  | .blank x whitespace, true, s =>
    [Constraint.null, .string (.blankness whitespace)].flatMap fun c =>
      assuming (propagate limit x) x c s
  | .blank x whitespace, false, s =>
    assuming (propagate limit x) x (.string (.content whitespace)) s
  | .ofType x, true, s => assuming (propagate limit x) x .notNull s
  | .hasValue x, truth, s =>
    assuming (propagate limit x) x (if truth then .notNull else .null) s
  | _, _, s => [s]

/-- Reasons about facts, allowing an assumption to lead to a limited number of states. -/
structure Solver where
  maxForks : Nat
  maxForks_pos : 0 < maxForks

namespace Solver

/-- A solver with the given limit, which is at least one. -/
def ofLimit (limit : Nat) : Solver := ⟨max limit 1, by omega⟩

/-- Every state in which the fact holds, before the limit is applied. -/
def explore (solver : Solver) (s : State) (v : Value) (c : Constraint) : List State :=
  assuming (propagate solver.maxForks v) v c s

/-- The states in which the fact holds. -/
def assume (solver : Solver) (s : State) (v : Value) (c : Constraint) : List State :=
  let states := solver.explore s v c
  if solver.maxForks < states.length then (s.record? v c).toList else states

/-- The states in which the fact does not hold. There are none if it is known. Where its opposite
is no fact, nothing is learned. -/
def refute (solver : Solver) (s : State) (v : Value) (c : Constraint) : List State :=
  if s.has v c then []
  else
    match c.opposite with
    | some opposite => solver.assume s v opposite
    | none => [s]

/-- The first state in which the fact holds, if there is one. -/
def narrow? (solver : Solver) (s : State) (v : Value) (c : Constraint) : Option State :=
  (solver.assume s v c).head?

end Solver

end Pathwise
