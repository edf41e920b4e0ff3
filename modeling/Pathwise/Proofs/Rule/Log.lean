import Pathwise.Proofs.Rule.Ledger

/-!
What is in the log. No two findings are ever published under one key. A defect that is noticed is in
the log from then on, under its key, and apart from locks that are held where the method is left
nothing else puts a finding there before the end.

What is said at the end comes last. If nothing was left unexplored, it is the findings about all
conditions that have always gone the same way, one for each of their points and in the order of the
points.
-/

namespace Pathwise

variable {l : Ledger} {x y : LogEntry}

/-! ### One finding for each key -/

namespace FindingLog

variable {log : FindingLog}

/-- No two findings were published under one key. -/
def Distinct (log : FindingLog) : Prop := log.entries.Pairwise fun x y => ¬ LogEntry.SameKey x y

theorem Distinct.publish (h : log.Distinct) (f : Finding) (v : Option Value) :
    (log.publish f v).Distinct := by
  unfold FindingLog.publish
  split
  · exact h
  · next hcovers =>
    refine List.pairwise_append.2 ⟨h, List.pairwise_singleton _ _, fun x hx y hy hkey => hcovers ?_⟩
    obtain rfl := List.mem_singleton.1 hy
    exact covers_iff (x := (f, v)).2 ⟨x, hx, hkey⟩

theorem covers_publish_iff :
    (log.publish x.1 x.2).covers y.1 y.2 ↔ log.covers y.1 y.2 ∨ LogEntry.SameKey x y := by
  by_cases hcovers : log.covers x.1 x.2
  · rw [publish_of_covers hcovers]
    refine ⟨.inl, fun h => h.elim id fun hkey => ?_⟩
    obtain ⟨z, hz, hzx⟩ := covers_iff.1 hcovers
    exact covers_iff.2 ⟨z, hz, hzx.1.trans hkey.1, hzx.2.1.trans hkey.2.1, hzx.2.2.trans hkey.2.2⟩
  · rw [publish_of_not_covers hcovers, covers_append_iff]
    simp

end FindingLog

namespace Ledger

theorem distinct_note (h : l.log.Distinct) (o : Observation) : (l.note o).log.Distinct := by
  rw [log_note]
  cases l.request? o with
  | none => exact h
  | some x => exact h.publish x.1 x.2

theorem distinct_noteAll (h : l.log.Distinct) (observations : List Observation) :
    (l.noteAll observations).log.Distinct := by
  induction observations generalizing l with
  | nil => exact h
  | cons o rest ih => exact ih (distinct_note h o)

/-- Apart from what is said about locks, the log has the keys of the defects that were noticed. -/
theorem covers_noteAll_iff (hrule : x.1.rule ≠ LockRelease.rule) (observations : List Observation) :
    (l.noteAll observations).log.covers x.1 x.2 ↔ l.log.covers x.1 x.2 ∨
      ∃ f v, .defect f v ∈ observations ∧ LogEntry.SameKey (f, some v) x := by
  induction observations generalizing l with
  | nil => simp [noteAll]
  | cons o rest ih =>
    have hnote : (l.note o).log.covers x.1 x.2 ↔ l.log.covers x.1 x.2 ∨
        ∃ f v, o = .defect f v ∧ LogEntry.SameKey (f, some v) x := by
      rw [log_note]
      cases o with
      | defect f v =>
        show (l.log.publish f (some v)).covers x.1 x.2 ↔ _
        rw [FindingLog.covers_publish_iff (x := (f, some v))]
        refine or_congr_right ⟨fun hkey => ⟨f, v, rfl, hkey⟩, ?_⟩
        rintro ⟨_, _, ⟨⟩, hkey⟩
        exact hkey
      | heldAtExit lock name exit =>
        cases ha : l.acquisitions[lock]? with
        | none => simp [request?, ha]
        | some a =>
          have hkey : ¬ LogEntry.SameKey (leak a name exit, some lock) x :=
            fun h => hrule h.1.symm
          simp only [request?, ha, Option.map_some, Option.elim_some]
          rw [FindingLog.covers_publish_iff (x := (leak a name exit, some lock))]
          simp [hkey]
      | acquired | decided | journal => simp [request?]
    show ((l.note o).noteAll rest).log.covers x.1 x.2 ↔ _
    rw [ih, hnote]
    simp only [List.mem_cons, or_and_right, exists_or, or_assoc, eq_comm]

end Ledger

/-! ### The end of an exploration -/

/-- The first point lies in an earlier block, or earlier in the same one. -/
def ProgramPoint.Before (a b : ProgramPoint) : Prop :=
  a.block.index < b.block.index ∨ a.block.index = b.block.index ∧ a.offset < b.offset

theorem ProgramPoint.Before.ne {a b : ProgramPoint} (h : a.Before b) : a ≠ b := by
  rintro rfl
  unfold Before at h
  omega

theorem ProgramPoint.before_of_compare {a b : ProgramPoint} (h : compare a b = .lt) :
    a.Before b := by
  replace h : (compare a.block.index b.block.index).then (compare a.offset b.offset) = .lt := h
  rw [Ordering.then_eq_lt, Nat.compare_eq_lt, Nat.compare_eq_eq, Nat.compare_eq_lt] at h
  exact h

namespace Ledger

/-- The findings about conditions are in the order of their points. -/
theorem pairwise_constantConditions (l : Ledger) :
    l.constantConditions.Pairwise fun f g => f.location.point.Before g.location.point := by
  refine List.Pairwise.filterMap _ ?_ Std.ExtTreeMap.ordered_keys_toList
  rintro ⟨point, o⟩ ⟨point', o'⟩ hlt f hf g hg
  obtain ⟨outcome, -, rfl⟩ := Option.map_eq_some_iff.1 hf
  obtain ⟨outcome', -, rfl⟩ := Option.map_eq_some_iff.1 hg
  exact ProgramPoint.before_of_compare hlt

/-- Each condition that has always gone the same way has its finding. -/
theorem exists_mem_constantConditions {point : ProgramPoint} {outcome : Bool}
    (hseen : l.seen point outcome) (hunseen : ¬ l.seen point (!outcome)) :
    ∃ f ∈ l.constantConditions,
      f.rule = ConstantCondition.rule outcome ∧ f.location.point = point := by
  unfold seen at hseen hunseen
  cases ho : l.outcomes[point]? with
  | none => simp [ho] at hseen
  | some o =>
    have hconstant : o.constant? = some outcome :=
      Outcomes.constant?_eq_some_iff.2 ⟨by simpa [ho] using hseen, by simpa [ho] using hunseen⟩
    refine ⟨ConstantCondition.finding ⟨point, o.span⟩ outcome, ?_, rfl, rfl⟩
    refine List.mem_filterMap.2 ⟨(point, o), ?_, by simp [hconstant]⟩
    exact Std.ExtTreeMap.mem_toList_iff_getElem?_eq_some.2 ho

/-- Findings under new keys that differ among each other are all published. -/
theorem entries_publishAll_of_new {findings : List Finding}
    (hkeys : findings.Pairwise fun f g => f.location.point ≠ g.location.point) (l : Ledger)
    (hnew : ∀ f ∈ findings, ¬ l.log.covers f none) :
    (findings.foldl (fun l f => l.publish f none) l).log.entries =
      l.log.entries ++ findings.map fun f => (f, none) := by
  induction findings generalizing l with
  | nil => simp
  | cons f rest ih =>
    rw [List.pairwise_cons] at hkeys
    have hfirst : (l.publish f none).log.entries = l.log.entries ++ [(f, none)] :=
      congrArg FindingLog.entries
        (FindingLog.publish_of_not_covers (x := (f, none)) (hnew f List.mem_cons_self))
    have hlater : ∀ g ∈ rest, ¬ (l.publish f none).log.covers g none := by
      intro g hg hcovers
      rcases FindingLog.covers_publish_iff (x := (f, none)) (y := (g, none)).1 hcovers with
        hold | hkey
      · exact hnew g (List.mem_cons_of_mem _ hg) hold
      · exact hkeys.1 g hg hkey.2.1
    rw [List.foldl_cons, ih hkeys.2 _ hlater, hfirst, List.append_assoc]
    rfl

/-- Findings under keys that were used are not published again. -/
theorem publishAll_of_covers {findings : List Finding}
    (h : ∀ f ∈ findings, l.log.covers f none) :
    findings.foldl (fun l f => l.publish f none) l = l := by
  induction findings with
  | nil => rfl
  | cons f rest ih =>
    have hfirst : l.publish f none = l := by
      rw [publish, FindingLog.publish_of_covers (x := (f, none)) (h f List.mem_cons_self)]
    rw [List.foldl_cons, hfirst]
    exact ih fun g hg => h g (List.mem_cons_of_mem _ hg)

/-- Rules that are told twice of the end say nothing new. -/
theorem log_finish_of_covers (rules : List Rule) (entry : ProgramPoint) (completion : Completion)
    (h : ∀ f ∈ l.constantConditions, l.log.covers f none) :
    (l.finish rules entry completion).log = l.log := by
  induction rules generalizing l with
  | nil => rfl
  | cons rule rest ih =>
    have hfirst : (l.endBy entry completion rule).log = l.log ∧
        (l.endBy entry completion rule).outcomes = l.outcomes := by
      cases rule with
      | constantCondition =>
        unfold endBy
        dsimp only
        split
        · rw [publishAll_of_covers h]
          exact ⟨rfl, rfl⟩
        · exact ⟨rfl, rfl⟩
      | _ => exact ⟨rfl, rfl⟩
    refine (ih (l := l.endBy entry completion rule) ?_).trans hfirst.1
    rw [constantConditions, hfirst.1, hfirst.2]
    exact h

/-- At the end of an exploration that has left nothing out, all findings about conditions are
published, after all others. -/
theorem entries_finish_complete {rules : List Rule} (hrule : .constantCondition ∈ rules)
    (entry : ProgramPoint) (l : Ledger) (hnew : ∀ f ∈ l.constantConditions, ¬ l.log.covers f none) :
    (l.finish rules entry .complete).log.entries =
      l.log.entries ++ l.constantConditions.map fun f => (f, none) := by
  have hkeys : l.constantConditions.Pairwise fun f g => f.location.point ≠ g.location.point :=
    l.pairwise_constantConditions.imp fun hbefore => hbefore.ne
  induction rules generalizing l with
  | nil => cases hrule
  | cons rule rest ih =>
    by_cases hfirst : rule = .constantCondition
    · subst hfirst
      have hentries := entries_publishAll_of_new hkeys l hnew
      let ended := l.endBy entry .complete .constantCondition
      have hextends : ended.outcomes = l.outcomes := by
        obtain ⟨new, hextends, -⟩ := exists_extends_endBy entry .complete l .constantCondition
        exact hextends.outcomes
      show (ended.finish rest entry .complete).log.entries = _
      rw [log_finish_of_covers]
      · exact hentries
      · intro f hf
        rw [constantConditions, hextends] at hf
        refine FindingLog.covers_iff (x := (f, none)).2 ⟨(f, none), ?_, rfl, rfl, rfl⟩
        show (f, none) ∈ (l.constantConditions.foldl _ l).log.entries
        rw [hentries]
        exact List.mem_append_right _ (List.mem_map.2 ⟨f, hf, rfl⟩)
    · have hrest : .constantCondition ∈ rest :=
        (List.mem_cons.1 hrule).resolve_left fun h => hfirst h.symm
      cases rule with
      | constantCondition => exact absurd rfl hfirst
      | _ => exact ih hrest _ hnew hkeys

end Ledger

end Pathwise
