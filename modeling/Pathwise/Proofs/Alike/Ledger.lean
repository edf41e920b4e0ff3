import Pathwise.Proofs.Alike.Rule
import Pathwise.Proofs.Rule.Ledger

/-!
What is written down does not depend on the identities of unknowns. Ledgers are alike if they tell
the same about locks that are alike and about conditions, and if their logs hold the same findings
about values that are alike, in any order.

The order of the logs is the same as long as observations are entered in the same order. Locks that
are held where the method is left are not, but the same reports come of them.
-/

namespace Pathwise

open Relator (BiUnique)

variable {R S : Identity → Identity → Prop}

/-! ### Entries of the log -/

/-- The entries hold one finding, about values that are alike. -/
def LogEntry.Like (R : Identity → Identity → Prop) (x y : LogEntry) : Prop :=
  x.1 = y.1 ∧ Option.Rel (Value.Like R) x.2 y.2

namespace LogEntry.Like

variable {x y x' y' : LogEntry}

theorem mono (hsub : ∀ a b, R a b → S a b) (h : x.Like R y) : x.Like S y :=
  ⟨h.1, optionRel_imp (fun _ _ hvw => hvw.mono hsub) h.2⟩

theorem symm (h : x.Like R y) : y.Like (flip R) x :=
  ⟨h.1.symm, optionRel_swap (fun _ _ hvw => hvw.symm) h.2⟩

theorem value_eq_iff (hR : BiUnique R) (h : x.Like R y) (h' : x'.Like R y') :
    x.2 = x'.2 ↔ y.2 = y'.2 :=
  optionRel_eq_iff (Value.Like.biUnique hR) h.2 h'.2

theorem sameKey_iff (hR : BiUnique R) (h : x.Like R y) (h' : x'.Like R y') :
    SameKey x x' ↔ SameKey y y' := by
  rw [SameKey, SameKey, h.value_eq_iff hR h', h.1, h'.1]

theorem biUnique (hR : BiUnique R) : BiUnique (LogEntry.Like R) :=
  ⟨fun _ _ _ h h' => Prod.ext (h.1.trans h'.1.symm) ((h.value_eq_iff hR h').2 rfl),
    fun _ _ _ h h' => Prod.ext (h.1.symm.trans h'.1) ((h.value_eq_iff hR h').1 rfl)⟩

end LogEntry.Like

/-- Lists without repetitions whose members are paired one to one have the same members in some
order. -/
theorem exists_perm_forall₂ {α β : Type} {P : α → β → Prop} (hP : BiUnique P) {xs : List α}
    {ys : List β} (hxs : xs.Nodup) (hys : ys.Nodup) (hforth : ∀ x ∈ xs, ∃ y ∈ ys, P x y)
    (hback : ∀ y ∈ ys, ∃ x ∈ xs, P x y) : ∃ zs, xs.Perm zs ∧ List.Forall₂ P zs ys := by
  induction ys generalizing xs with
  | nil =>
    cases xs with
    | nil => exact ⟨[], .nil, .nil⟩
    | cons x xs =>
      obtain ⟨y, hy, -⟩ := hforth x List.mem_cons_self
      cases hy
  | cons y ys ih =>
    obtain ⟨hy, hys⟩ := List.nodup_cons.1 hys
    obtain ⟨x, hx, hxy⟩ := hback y List.mem_cons_self
    obtain ⟨before, after, rfl⟩ := List.append_of_mem hx
    have hperm : (before ++ x :: after).Perm (x :: (before ++ after)) := List.perm_middle
    obtain ⟨hx, hnodup⟩ := List.nodup_cons.1 (hperm.nodup_iff.1 hxs)
    -- the partner of any other member is not the first one's
    obtain ⟨zs, hzs, hrest⟩ := ih hnodup hys
      (fun a ha => by
        obtain ⟨b, hb, hab⟩ := hforth a (hperm.mem_iff.2 (List.mem_cons_of_mem _ ha))
        rcases List.mem_cons.1 hb with rfl | hb
        · exact absurd (hP.1 hab hxy ▸ ha) hx
        · exact ⟨b, hb, hab⟩)
      (fun b hb => by
        obtain ⟨a, ha, hab⟩ := hback b (List.mem_cons_of_mem _ hb)
        rcases List.mem_cons.1 (hperm.mem_iff.1 ha) with rfl | ha
        · exact absurd (hP.2 hab hxy ▸ hb) hy
        · exact ⟨a, ha, hab⟩)
    exact ⟨x :: zs, hperm.trans (hzs.cons x), .cons hxy hrest⟩

/-! ### Ledgers -/

namespace Ledger

/-- What the first ledger tells of a value, the second tells of one that is alike. -/
structure Tells (R : Identity → Identity → Prop) (l l' : Ledger) : Prop where
  acquisitions : ∀ (v : Value) (a : Acquisition), l.acquisitions[v]? = some a →
    ∃ w, v.Like R w ∧ l'.acquisitions[w]? = some a
  entries : ∀ x ∈ l.log.entries, ∃ y ∈ l'.log.entries, LogEntry.Like R x y

/-- The ledgers tell the same but for the identities of unknowns and the order of findings. What
their journals say is not compared. -/
structure Like (R : Identity → Identity → Prop) (l l' : Ledger) : Prop where
  forth : Tells R l l'
  back : Tells (flip R) l' l
  outcomes : l.outcomes = l'.outcomes

variable {l l' : Ledger} {v w : Value}

theorem Tells.mono (hsub : ∀ a b, R a b → S a b) (h : Tells R l l') : Tells S l l' where
  acquisitions v a hv :=
    have ⟨w, hvw, hw⟩ := h.acquisitions v a hv
    ⟨w, hvw.mono hsub, hw⟩
  entries x hx :=
    have ⟨y, hy, hxy⟩ := h.entries x hx
    ⟨y, hy, hxy.mono hsub⟩

theorem Like.mono (hsub : ∀ a b, R a b → S a b) (h : l.Like R l') : l.Like S l' :=
  ⟨h.forth.mono hsub, h.back.mono fun a b hab => hsub b a hab, h.outcomes⟩

theorem Like.symm (h : l.Like R l') : l'.Like (flip R) l := ⟨h.back, h.forth, h.outcomes.symm⟩

theorem Like.empty (R : Identity → Identity → Prop) : Ledger.empty.Like R Ledger.empty := by
  have htells : ∀ S, Tells S Ledger.empty Ledger.empty := fun S =>
    ⟨fun v a hv => by simp [Ledger.empty] at hv, fun x hx => absurd hx List.not_mem_nil⟩
  exact ⟨htells R, htells (flip R), rfl⟩

/-- Locks that are alike were first taken in one place. -/
theorem Like.acquisitions_eq (hR : BiUnique R) (h : l.Like R l') (hvw : v.Like R w) :
    l.acquisitions[v]? = l'.acquisitions[w]? := by
  cases hl : l.acquisitions[v]? with
  | some a =>
    obtain ⟨w', hvw', hw'⟩ := h.forth.acquisitions v a hl
    rw [(Value.Like.biUnique hR).2 hvw hvw', hw']
  | none =>
    cases hl' : l'.acquisitions[w]? with
    | none => rfl
    | some a =>
      obtain ⟨v', hwv', hv'⟩ := h.back.acquisitions w a hl'
      rw [← (Value.Like.biUnique hR).1 hvw hwv'.symm, hl] at hv'
      cases hv'

/-- Keys that are alike are used on both sides or on none. -/
theorem Like.covers_eq (hR : BiUnique R) (h : l.Like R l') {x y : LogEntry} (hxy : x.Like R y) :
    l.log.covers x.1 x.2 = l'.log.covers y.1 y.2 := by
  have hcovers : ∀ {R} {l l' : Ledger} {x y : LogEntry}, BiUnique R → Tells R l l' → x.Like R y →
      l.log.covers x.1 x.2 → l'.log.covers y.1 y.2 := by
    intro R l l' x y hR h hxy hx
    obtain ⟨x', hx', hkey⟩ := FindingLog.covers_iff.1 hx
    obtain ⟨y', hy', hxy'⟩ := h.entries x' hx'
    exact FindingLog.covers_iff.2 ⟨y', hy', (hxy'.sameKey_iff hR hxy).1 hkey⟩
  exact Bool.eq_iff_iff.2 ⟨hcovers hR h.forth hxy, hcovers (biUnique_flip hR) h.back hxy.symm⟩

/-- Ledgers stay alike if entries are added that are. -/
theorem Like.extend (h : l.Like R l') {l₁ l₁' : Ledger} {new new' : List LogEntry}
    (hl : l.Extends new l₁) (hl' : l'.Extends new' l₁')
    (hforth : ∀ x ∈ new, ∃ y ∈ new', LogEntry.Like R x y)
    (hback : ∀ y ∈ new', ∃ x ∈ new, LogEntry.Like R x y) : l₁.Like R l₁' := by
  refine ⟨⟨?_, fun x hx => ?_⟩, ⟨?_, fun y hy => ?_⟩, ?_⟩
  · rw [hl.acquisitions, hl'.acquisitions]
    exact h.forth.acquisitions
  · rw [hl.entries] at hx
    rw [hl'.entries]
    rcases List.mem_append.1 hx with hx | hx
    · obtain ⟨y, hy, hxy⟩ := h.forth.entries x hx
      exact ⟨y, List.mem_append_left _ hy, hxy⟩
    · obtain ⟨y, hy, hxy⟩ := hforth x hx
      exact ⟨y, List.mem_append_right _ hy, hxy⟩
  · rw [hl.acquisitions, hl'.acquisitions]
    exact h.back.acquisitions
  · rw [hl'.entries] at hy
    rw [hl.entries]
    rcases List.mem_append.1 hy with hy | hy
    · obtain ⟨x, hx, hyx⟩ := h.back.entries y hy
      exact ⟨x, List.mem_append_left _ hx, hyx⟩
    · obtain ⟨x, hx, hxy⟩ := hback y hy
      exact ⟨x, List.mem_append_right _ hx, hxy.symm⟩
  · rw [hl.outcomes, hl'.outcomes]
    exact h.outcomes

end Ledger

/-! ### Entering observations -/

theorem Observation.Like.symm {o o' : Observation} (h : o.Like R o') : o'.Like (flip R) o := by
  cases h with
  | defect finding h => exact .defect finding h.symm
  | acquired h location name => exact .acquired h.symm location name
  | heldAtExit h name exit => exact .heldAtExit h.symm name exit
  | decided location outcome => exact .decided location outcome
  | journal event event' => exact .journal event' event

namespace Ledger

variable {l l' : Ledger} {o o' : Observation} {observations observations' : List Observation}

/-- The same is asked to be published. -/
theorem Like.request? (hR : BiUnique R) (h : l.Like R l') (ho : o.Like R o') :
    Option.Rel (LogEntry.Like R) (l.request? o) (l'.request? o') := by
  cases ho with
  | defect finding hvw => exact .some ⟨rfl, .some hvw⟩
  | @heldAtExit v w hvw name exit =>
    unfold Ledger.request?
    dsimp only
    rw [h.acquisitions_eq hR hvw]
    cases l'.acquisitions[w]? with
    | none => exact .none
    | some a => exact .some ⟨rfl, .some hvw⟩
  | _ => exact .none

theorem Like.published? (hR : BiUnique R) (h : l.Like R l') (ho : o.Like R o') :
    Option.Rel (LogEntry.Like R) (l.published? o) (l'.published? o') := by
  unfold Ledger.published?
  obtain ⟨hl, hl'⟩ | ⟨x, y, hl, hl', hxy⟩ := optionRel_cases (h.request? hR ho)
  · rw [hl, hl']
    exact .none
  · rw [hl, hl', Option.filter_some, Option.filter_some, h.covers_eq hR hxy]
    split
    · exact .some hxy
    · exact .none

theorem Tells.note (hR : BiUnique R) (h : l.Like R l') (ho : o.Like R o') :
    Tells R (l.note o) (l'.note o') := by
  constructor
  · intro v a hv
    rw [acquisitions_note] at hv
    cases hl : l.acquisitions[v]? with
    | some b =>
      obtain rfl : b = a := by simpa [hl] using hv
      obtain ⟨w, hvw, hw⟩ := h.forth.acquisitions v b hl
      exact ⟨w, hvw, by simp [acquisitions_note, hw]⟩
    | none =>
      -- the lock is taken for the first time, and so is the other
      cases ho with
      | @acquired lock lock' hlock location name =>
        rw [hl, Option.none_or] at hv
        obtain rfl : lock = v := by
          by_contra hne
          simp [Observation.acquisition?, hne] at hv
        refine ⟨lock', hlock, ?_⟩
        rw [acquisitions_note, ← h.acquisitions_eq hR hlock, hl, Option.none_or]
        simpa [Observation.acquisition?] using hv
      | _ => simp [hl, Observation.acquisition?] at hv
  · intro x hx
    rw [entries_note] at hx ⊢
    rcases List.mem_append.1 hx with hx | hx
    · obtain ⟨y, hy, hxy⟩ := h.forth.entries x hx
      exact ⟨y, List.mem_append_left _ hy, hxy⟩
    · obtain ⟨hl, -⟩ | ⟨x', y, hl, hl', hxy⟩ := optionRel_cases (h.published? hR ho)
      · simp [hl] at hx
      · obtain rfl : x = x' := by simpa [hl] using hx
        exact ⟨y, by simp [hl'], hxy⟩

/-- The same observation keeps ledgers alike. -/
theorem Like.note (hR : BiUnique R) (h : l.Like R l') (ho : o.Like R o') :
    (l.note o).Like R (l'.note o') := by
  refine ⟨.note hR h ho, .note (biUnique_flip hR) h.symm ho.symm, ?_⟩
  cases ho with
  | decided location outcome =>
    unfold Ledger.note
    dsimp only
    rw [h.outcomes]
  | @heldAtExit v w hvw name exit =>
    unfold Ledger.note
    dsimp only
    rw [h.acquisitions_eq hR hvw]
    cases l'.acquisitions[w]? <;> exact h.outcomes
  | _ => exact h.outcomes

/-- The same observations in the same order keep ledgers alike and publish the same findings, in
the same order. -/
theorem Like.noteAll (hR : BiUnique R) (h : l.Like R l')
    (ho : List.Forall₂ (Observation.Like R) observations observations') :
    (l.noteAll observations).Like R (l'.noteAll observations') ∧
      List.Forall₂ (LogEntry.Like R) (l.published observations) (l'.published observations') := by
  induction ho generalizing l l' with
  | nil => exact ⟨h, .nil⟩
  | @cons o o' rest rest' ho _ ih =>
    obtain ⟨hlike, hlater⟩ := ih (h.note hR ho)
    refine ⟨hlike, List.rel_append ?_ hlater⟩
    obtain ⟨hl, hl'⟩ | ⟨x, y, hl, hl', hxy⟩ := optionRel_cases (h.published? hR ho)
    · rw [hl, hl']
      exact .nil
    · rw [hl, hl']
      exact .cons hxy .nil

/-! ### Where the method is left -/

/-- A report on one side is a report on the other. -/
theorem Like.exists_leaks (hR : BiUnique R) (h : l.Like R l') {rules : List Rule} {site : Site}
    {s t : State} (hst : s.Like R t) {x : LogEntry}
    (hx : l.Leaks (site.nameOf s) site.location (Rule.exit rules site s) x) :
    ∃ y, l'.Leaks (site.nameOf t) site.location (Rule.exit rules site t) y ∧ x.Like R y := by
  obtain ⟨v, hv, a, ha, rfl⟩ := hx
  obtain ⟨hrule, hheld, -⟩ := Rule.heldAtExit_mem_exit.1 hv
  obtain ⟨w, hvw, hw⟩ := h.forth.acquisitions v a ha
  rw [hst.has_eq hR hvw] at hheld
  refine ⟨(leak a (site.nameOf t w) site.location, some w), ⟨w, ?_, a, hw, rfl⟩, ?_⟩
  · exact Rule.heldAtExit_mem_exit.2 ⟨hrule, hheld, rfl, rfl⟩
  · exact ⟨by rw [site.nameOf_eq hR hst hvw], .some hvw⟩

/-- What is published where the method is left on one side is published on the other. -/
theorem Like.published_exit (hR : BiUnique R) (h : l.Like R l') (rules : List Rule) (site : Site)
    {s t : State} (hst : s.Like R t) : ∀ x ∈ l.published (Rule.exit rules site s),
      ∃ y ∈ l'.published (Rule.exit rules site t), LogEntry.Like R x y := by
  intro x hx
  obtain ⟨hleaks, hnew⟩ := ((published_leaks (fun _ => Rule.atExit_of_mem_exit) l).2 x).1 hx
  obtain ⟨y, hy, hxy⟩ := h.exists_leaks hR hst hleaks
  rw [h.covers_eq hR hxy] at hnew
  exact ⟨y, ((published_leaks (fun _ => Rule.atExit_of_mem_exit) l').2 y).2 ⟨hy, hnew⟩, hxy⟩

/-- Where the method is left in states that are alike, ledgers stay alike, and the same reports are
published, in some order. -/
theorem Like.noteAll_exit (hR : BiUnique R) (h : l.Like R l') (rules : List Rule) (site : Site)
    {s t : State} (hst : s.Like R t) :
    (l.noteAll (Rule.exit rules site s)).Like R (l'.noteAll (Rule.exit rules site t)) ∧
      ∃ mid, (l.published (Rule.exit rules site s)).Perm mid ∧
        List.Forall₂ (LogEntry.Like R) mid (l'.published (Rule.exit rules site t)) := by
  have hforth := h.published_exit hR rules site hst
  have hback : ∀ y ∈ l'.published (Rule.exit rules site t),
      ∃ x ∈ l.published (Rule.exit rules site s), LogEntry.Like R x y := by
    intro y hy
    obtain ⟨x, hx, hyx⟩ :=
      h.symm.published_exit (biUnique_flip hR) rules site hst.symm y hy
    exact ⟨x, hx, hyx.symm⟩
  have hexit : ∀ s, ∀ o ∈ Rule.exit rules site s, o.AtExit (site.nameOf s) site.location :=
    fun _ _ => Rule.atExit_of_mem_exit
  refine ⟨h.extend (extends_noteAll_atExit (hexit s) l) (extends_noteAll_atExit (hexit t) l') hforth
    hback, ?_⟩
  exact exists_perm_forall₂ (LogEntry.Like.biUnique hR) (published_leaks (hexit s) l).1
    (published_leaks (hexit t) l').1 hforth hback

/-! ### Where the exploration ends -/

/-- Ledgers that are alike have become others that are, and the same entries were added to both. -/
def GrowAlike (R : Identity → Identity → Prop) (l l' l₁ l₁' : Ledger) : Prop :=
  ∃ new, l.Extends new l₁ ∧ l'.Extends new l₁' ∧ l₁.Like R l₁'

theorem Like.growAlike (h : l.Like R l') : GrowAlike R l l' l l' := ⟨[], .refl l, .refl l', h⟩

/-- Findings that concern no value are published on both sides or on none. -/
theorem growAlike_publish (hR : BiUnique R) (h : l.Like R l') (f : Finding) :
    GrowAlike R l l' (l.publish f none) (l'.publish f none) := by
  have hlike : LogEntry.Like R (f, none) (f, none) := ⟨rfl, .none⟩
  have hl := Extends.publish l f none
  have hl' := Extends.publish l' f none
  rw [show l.log.covers f none = l'.log.covers f none from h.covers_eq hR hlike] at hl
  have hself : ∀ x ∈ if l'.log.covers f none then [] else [(f, none)], LogEntry.Like R x x := by
    intro x hx
    split at hx
    · cases hx
    · obtain rfl := List.mem_singleton.1 hx
      exact hlike
  exact ⟨_, hl, hl', h.extend hl hl' (fun x hx => ⟨x, hx, hself x hx⟩)
    fun x hx => ⟨x, hx, hself x hx⟩⟩

/-- What is done in turn adds the same to both, if every turn does. -/
theorem growAlike_foldl {α : Type} {f : Ledger → α → Ledger}
    (hf : ∀ a l l', l.Like R l' → GrowAlike R l l' (f l a) (f l' a)) (xs : List α)
    (h : l.Like R l') : GrowAlike R l l' (xs.foldl f l) (xs.foldl f l') := by
  induction xs generalizing l l' with
  | nil => exact h.growAlike
  | cons x xs ih =>
    obtain ⟨new, hl, hl', h⟩ := hf x l l' h
    obtain ⟨later, hlater, hlater', h⟩ := ih h
    exact ⟨new ++ later, hl.trans hlater, hl'.trans hlater', h⟩

/-- At the end the same findings are added. -/
theorem growAlike_finish (hR : BiUnique R) (h : l.Like R l') (rules : List Rule)
    (entry : ProgramPoint) (completion : Completion) :
    GrowAlike R l l' (l.finish rules entry completion) (l'.finish rules entry completion) := by
  refine growAlike_foldl (fun rule l l' h => ?_) rules h
  cases rule with
  | constantCondition =>
    have hconditions : l.constantConditions = l'.constantConditions := by
      rw [constantConditions, constantConditions, h.outcomes]
    dsimp only [endBy]
    rw [hconditions]
    split
    · exact growAlike_foldl (fun f l l' h => growAlike_publish hR h f) _ h
    · exact h.growAlike
  | journal =>
    have hsame : ∀ (l : Ledger) (o : Event), l.Extends [] (l.note (.journal o)) := fun l _ =>
      ⟨rfl, rfl, (List.append_nil _).symm⟩
    exact ⟨[], hsame l _, hsame l' _, h.note hR (.journal _ _)⟩
  | _ => exact h.growAlike

end Ledger

end Pathwise
