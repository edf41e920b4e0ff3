import Pathwise.Symbolic.Value

/-!
The order of symbolic values: first by kind, in the order of the constructors, then part by part
from left to right. It is the key order of maps from values, and the order in which such maps list
their entries.

`order_chained` says that the order is transitive. It is stated for the three comparisons of a
chain at once, because in this form it passes through a comparison part by part.
-/

namespace Pathwise

/-- The position of a constant in the order. -/
def Constant.rank : Constant → Nat
  | .yes => 0
  | .no => 1
  | .null => 2
  | .self => 3

/-- The position of a connective in the order. -/
def Connective.rank : Connective → Nat
  | .and => 0
  | .or => 1
  | .xor => 2

/-- The position of an equality in the order. -/
def EqualityKind.rank : EqualityKind → Nat
  | .reference => 0
  | .value => 1

namespace Value

/-- The position of a value's kind in the order. -/
def rank : Value → Nat
  | .unknown _ => 0
  | .constant _ => 1
  | .not _ => 2
  | .logic .. => 3
  | .equal .. => 4
  | .blank .. => 5
  | .ofType _ => 6
  | .hasValue _ => 7
  | .member .. => 8
  | .group .. => 9

/-- Compares two values: first by kind, then part by part. -/
def order : Value → Value → Ordering
  | .unknown a, .unknown b => compare a b
  | .constant a, .constant b => compare a.rank b.rank
  | .not a, .not b => order a b
  | .logic o l r, .logic o' l' r' =>
    (compare o.rank o'.rank).then ((order l l').then (order r r'))
  | .equal k l r, .equal k' l' r' =>
    (compare k.rank k'.rank).then ((order l l').then (order r r'))
  | .blank a w, .blank b w' => (order a b).then (compare w w')
  | .ofType a, .ofType b => order a b
  | .hasValue a, .hasValue b => order a b
  | .member a s, .member b s' => (order a b).then (compare s s')
  | .group a n, .group b n' => (order a b).then (compare n n')
  | a, b => compare a.rank b.rank

/-- A comparison starts with the kinds. -/
theorem order_eq_then (a b : Value) : order a b = (compare a.rank b.rank).then (order a b) := by
  cases a <;> cases b <;> simp [order, rank, Std.compare_self]

end Value

/-! ### Chains of comparisons -/

/-- Can `ab`, `bc` and `ac` be the comparisons of `a` with `b`, of `b` with `c` and of `a` with `c`
in a total order? -/
def Chained (ab bc ac : Ordering) : Prop :=
  match ab, bc with
  | .eq, o | o, .eq => ac = o
  | .lt, .lt => ac = .lt
  | .gt, .gt => ac = .gt
  | _, _ => True

instance (ab bc ac : Ordering) : Decidable (Chained ab bc ac) := by
  unfold Chained; split <;> infer_instance

/-- Chains are compared part by part; later parts matter only where the first ones agree. -/
theorem Chained.then {ab bc ac ab' bc' ac' : Ordering} (h : Chained ab bc ac)
    (h' : ab = .eq → bc = .eq → Chained ab' bc' ac') :
    Chained (ab.then ab') (bc.then bc') (ac.then ac') := by
  revert ab bc ac ab' bc' ac'; decide

/-- Comparisons in a total order are chained. -/
theorem chained_compare {α : Type} [Ord α] [Std.TransOrd α] (a b c : α) :
    Chained (compare a b) (compare b c) (compare a c) := by
  cases hab : compare a b <;> cases hbc : compare b c <;> simp only [Chained]
  · exact Std.TransCmp.lt_trans hab hbc
  · exact Std.TransCmp.lt_of_lt_of_eq hab hbc
  · exact Std.TransCmp.lt_of_eq_of_lt hab hbc
  · exact Std.TransCmp.eq_trans hab hbc
  · exact Std.TransCmp.gt_of_eq_of_gt hab hbc
  · exact Std.TransCmp.gt_of_gt_of_eq hab hbc
  · exact Std.TransCmp.gt_trans hab hbc

/-! ### The order is total -/

namespace Value

theorem constantRank_inj {a b : Constant} (h : a.rank = b.rank) : a = b := by
  cases a <;> cases b <;> simp_all [Constant.rank]

theorem connectiveRank_inj {a b : Connective} (h : a.rank = b.rank) : a = b := by
  cases a <;> cases b <;> simp_all [Connective.rank]

theorem equalityRank_inj {a b : EqualityKind} (h : a.rank = b.rank) : a = b := by
  cases a <;> cases b <;> simp_all [EqualityKind.rank]

theorem order_swap (a b : Value) : order a b = (order b a).swap := by
  induction a generalizing b <;> cases b <;>
    simp_all [order, Ordering.swap_then, rank, ← Std.OrientedOrd.eq_swap]

/-- Only values of one kind need to be compared part by part. -/
theorem order_chained_of_rank {a b c : Value}
    (h : a.rank = b.rank → b.rank = c.rank → Chained (order a b) (order b c) (order a c)) :
    Chained (order a b) (order b c) (order a c) := by
  rw [order_eq_then a b, order_eq_then b c, order_eq_then a c]
  exact (chained_compare a.rank b.rank c.rank).then fun hab hbc =>
    h (Std.LawfulEqOrd.eq_of_compare hab) (Std.LawfulEqOrd.eq_of_compare hbc)

/-- The order is transitive. -/
theorem order_chained (a b c : Value) : Chained (order a b) (order b c) (order a c) := by
  induction a generalizing b c
  all_goals
    refine order_chained_of_rank fun hab hbc => ?_
    cases b <;> simp [rank] at hab
    cases c <;> simp [rank] at hbc
    simp only [order]
  case unknown => exact chained_compare _ _ _
  case constant => exact chained_compare _ _ _
  case not ih _ _ => exact ih _ _
  case logic ihl ihr _ _ _ _ _ _ =>
    exact (chained_compare _ _ _).then fun _ _ => (ihl _ _).then fun _ _ => ihr _ _
  case equal ihl ihr _ _ _ _ _ _ =>
    exact (chained_compare _ _ _).then fun _ _ => (ihl _ _).then fun _ _ => ihr _ _
  case blank ih _ _ _ _ => exact (ih _ _).then fun _ _ => chained_compare _ _ _
  case ofType ih _ _ => exact ih _ _
  case hasValue ih _ _ => exact ih _ _
  case member ih _ _ _ _ => exact (ih _ _).then fun _ _ => chained_compare _ _ _
  case group ih _ _ _ _ => exact (ih _ _).then fun _ _ => chained_compare _ _ _

/-- Values that compare equal are equal. -/
theorem order_eq_iff {a b : Value} : order a b = .eq ↔ a = b := by
  induction a generalizing b <;> cases b <;>
    simp_all [order, rank, Ordering.then_eq_eq]
  case constant.constant => exact ⟨constantRank_inj, congrArg _⟩
  case logic.logic => exact fun _ _ => ⟨connectiveRank_inj, congrArg _⟩
  case equal.equal => exact fun _ _ => ⟨equalityRank_inj, congrArg _⟩

instance : Ord Value := ⟨order⟩

instance : Std.TransOrd Value where
  eq_swap {a b} := order_swap a b
  isLE_trans {a b c} hab hbc := by
    have h := order_chained a b c
    revert hab hbc h
    show (order a b).isLE → (order b c).isLE → Chained (order a b) (order b c) (order a c) →
      (order a c).isLE
    generalize order a b = x, order b c = y, order a c = z
    revert x y z; decide

instance : Std.LawfulEqOrd Value where
  compare_self := order_eq_iff.mpr rfl
  eq_of_compare := order_eq_iff.mp

end Value

end Pathwise
