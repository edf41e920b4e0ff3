import Pathwise.Rule.Ledger

/-!
What the ledger says once observations were entered. About a lock it says where it was taken first,
about a condition all the ways it has gone. The log only ever grows at its end, and no finding is
published under a key that was used before.

Locks that are held where the method is left are entered together. Each of them that was taken
somewhere is then in the log, and `Ledger.published_leaks` says exactly which entries are new.
-/

namespace Pathwise

variable {l : Ledger} {o : Observation} {observations : List Observation}

/-! ### Acquisitions -/

/-- The acquisition of a lock that an observation tells of. -/
def Observation.acquisition? (v : Value) : Observation → Option Acquisition
  | .acquired lock location name => if lock = v then some ⟨location, name⟩ else none
  | _ => none

namespace Ledger

/-- The first acquisition stands. -/
theorem acquisitions_note (l : Ledger) (o : Observation) (v : Value) :
    (l.note o).acquisitions[v]? = l.acquisitions[v]?.or (o.acquisition? v) := by
  cases o with
  | acquired lock location name =>
    show (l.acquisitions.insertIfNew lock ⟨location, name⟩)[v]? = _
    simp only [Std.ExtTreeMap.getElem?_insertIfNew, Std.ExtTreeMap.mem_iff_isSome_getElem?,
      Std.LawfulEqCmp.compare_eq_iff_eq]
    by_cases hlock : lock = v
    · subst hlock
      cases hold : l.acquisitions[lock]? <;> simp [Observation.acquisition?]
    · simp [Observation.acquisition?, hlock]
  | heldAtExit lock name exit =>
    unfold note
    dsimp only
    split <;> simp [Observation.acquisition?, publish]
  | defect | decided | journal => simp [note, Observation.acquisition?, publish]

theorem acquisitions_noteAll (l : Ledger) (observations : List Observation) (v : Value) :
    (l.noteAll observations).acquisitions[v]? =
      l.acquisitions[v]?.or (observations.findSome? fun o => o.acquisition? v) := by
  induction observations generalizing l with
  | nil => simp [noteAll]
  | cons o rest ih =>
    show ((l.note o).noteAll rest).acquisitions[v]? = _
    rw [ih, acquisitions_note, Option.or_assoc]
    cases ho : o.acquisition? v <;> simp [ho]

end Ledger

/-! ### Outcomes -/

/-- Has the condition gone the given way? -/
def Outcomes.seen (o : Outcomes) : Bool → Bool
  | true => o.seenTrue
  | false => o.seenFalse

theorem Outcomes.constant?_eq_some_iff {o : Outcomes} {outcome : Bool} :
    o.constant? = some outcome ↔ o.seen outcome ∧ ¬ o.seen (!outcome) := by
  obtain ⟨span, seenTrue, seenFalse⟩ := o
  cases seenTrue <;> cases seenFalse <;> cases outcome <;> simp [constant?, seen]

/-- Does the observation tell that the condition at a point has gone the given way? -/
def Observation.decides (point : ProgramPoint) (outcome : Bool) : Observation → Bool
  | .decided location way => location.point = point && way = outcome
  | _ => false

namespace Ledger

/-- Has the condition at a point gone the given way? -/
def seen (l : Ledger) (point : ProgramPoint) (outcome : Bool) : Bool :=
  l.outcomes[point]?.any fun o => o.seen outcome

theorem seen_note (l : Ledger) (o : Observation) (point : ProgramPoint) (outcome : Bool) :
    (l.note o).seen point outcome = (l.seen point outcome || o.decides point outcome) := by
  cases o with
  | decided location way =>
    by_cases hpoint : location.point = point
    · subst hpoint
      cases hold : l.outcomes[location.point]? with
      | none =>
        cases outcome <;>
          simp [note, seen, hold, Observation.decides, Outcomes.add, Outcomes.seen,
            Outcomes.unseen, Std.ExtTreeMap.getD_eq_getD_getElem?]
      | some known =>
        cases outcome <;>
          simp [note, seen, hold, Observation.decides, Outcomes.add, Outcomes.seen,
            Std.ExtTreeMap.getD_eq_getD_getElem?]
    · simp [note, seen, Observation.decides, hpoint, Std.ExtTreeMap.getElem?_insert]
  | heldAtExit lock name exit =>
    unfold note
    dsimp only
    split <;> simp [seen, publish, Observation.decides]
  | defect | acquired | journal => simp [note, seen, publish, Observation.decides]

theorem seen_noteAll (l : Ledger) (observations : List Observation) (point : ProgramPoint)
    (outcome : Bool) :
    (l.noteAll observations).seen point outcome =
      (l.seen point outcome || observations.any fun o => o.decides point outcome) := by
  induction observations generalizing l with
  | nil => simp [noteAll]
  | cons o rest ih =>
    show ((l.note o).noteAll rest).seen point outcome = _
    rw [ih, seen_note, List.any_cons, Bool.or_assoc]

end Ledger

/-! ### The log -/

/-- A published finding, with the value it concerns. -/
abbrev LogEntry := Finding × Option Value

/-- The entries are published under one key. -/
def LogEntry.SameKey (x y : LogEntry) : Prop :=
  x.1.rule = y.1.rule ∧ x.1.location.point = y.1.location.point ∧ x.2 = y.2

namespace FindingLog

variable {log : FindingLog} {x y : LogEntry}

theorem covers_iff : log.covers x.1 x.2 ↔ ∃ y ∈ log.entries, LogEntry.SameKey y x := by
  simp [covers, LogEntry.SameKey, and_assoc]

theorem publish_of_covers (h : log.covers x.1 x.2) : log.publish x.1 x.2 = log := if_pos h

theorem publish_of_not_covers (h : ¬ log.covers x.1 x.2) :
    log.publish x.1 x.2 = ⟨log.entries ++ [x]⟩ := if_neg h

theorem covers_append_iff {entries : List LogEntry} :
    (FindingLog.mk (log.entries ++ entries)).covers x.1 x.2 ↔
      log.covers x.1 x.2 ∨ ∃ y ∈ entries, LogEntry.SameKey y x := by
  simp only [covers_iff, List.mem_append, or_and_right, exists_or]

end FindingLog

namespace Ledger

/-- What an observation asks to publish. -/
def request? (l : Ledger) : Observation → Option LogEntry
  | .defect finding value => some (finding, some value)
  | .heldAtExit lock name exit =>
    l.acquisitions[lock]?.map fun a => (leak a name exit, some lock)
  | _ => none

theorem log_note (l : Ledger) (o : Observation) :
    (l.note o).log = (l.request? o).elim l.log fun x => l.log.publish x.1 x.2 := by
  cases o with
  | heldAtExit lock name exit =>
    unfold note request?
    dsimp only
    cases l.acquisitions[lock]? <;> rfl
  | defect | acquired | decided | journal => rfl

/-- What an observation publishes, if its key was not used before. -/
def published? (l : Ledger) (o : Observation) : Option LogEntry :=
  (l.request? o).filter fun x => !l.log.covers x.1 x.2

theorem published?_eq_some_iff {x : LogEntry} :
    l.published? o = some x ↔ l.request? o = some x ∧ ¬ l.log.covers x.1 x.2 := by
  simp [published?, Option.filter_eq_some_iff]

/-- What observations publish that are entered in order. -/
def published (l : Ledger) : List Observation → List LogEntry
  | [] => []
  | o :: rest => (l.published? o).toList ++ (l.note o).published rest

theorem entries_note (l : Ledger) (o : Observation) :
    (l.note o).log.entries = l.log.entries ++ (l.published? o).toList := by
  rw [log_note, published?]
  cases ho : l.request? o with
  | none => simp
  | some x =>
    by_cases hcovers : l.log.covers x.1 x.2
    · simp [FindingLog.publish_of_covers hcovers, Option.filter_some, hcovers]
    · simp [FindingLog.publish_of_not_covers hcovers, Option.filter_some, hcovers]

/-- The log grows at its end. -/
theorem entries_noteAll (l : Ledger) (observations : List Observation) :
    (l.noteAll observations).log.entries = l.log.entries ++ l.published observations := by
  induction observations generalizing l with
  | nil => simp [noteAll, published]
  | cons o rest ih =>
    show ((l.note o).noteAll rest).log.entries = _
    rw [ih, entries_note, published, List.append_assoc]

/-- What is published was asked for by one of the observations. -/
theorem exists_of_mem_published {x : LogEntry} (h : x ∈ l.published observations) :
    ∃ l' : Ledger, ∃ o ∈ observations, l'.request? o = some x := by
  induction observations generalizing l with
  | nil => exact absurd h List.not_mem_nil
  | cons o rest ih =>
    rcases List.mem_append.1 h with h | h
    · exact ⟨l, o, List.mem_cons_self, (published?_eq_some_iff.1 (Option.mem_toList.1 h)).1⟩
    · obtain ⟨l', o', ho', hrequest⟩ := ih h
      exact ⟨l', o', List.mem_cons_of_mem _ ho', hrequest⟩

end Ledger

/-- Entries were added to the log, and nothing else has changed but the journal. -/
structure Ledger.Extends (l : Ledger) (new : List LogEntry) (l' : Ledger) : Prop where
  acquisitions : l'.acquisitions = l.acquisitions
  outcomes : l'.outcomes = l.outcomes
  entries : l'.log.entries = l.log.entries ++ new

namespace Ledger.Extends

variable {l' l'' : Ledger} {new new' : List LogEntry}

theorem refl (l : Ledger) : l.Extends [] l := ⟨rfl, rfl, (List.append_nil _).symm⟩

theorem trans (h : l.Extends new l') (h' : l'.Extends new' l'') : l.Extends (new ++ new') l'' :=
  ⟨h'.acquisitions.trans h.acquisitions, h'.outcomes.trans h.outcomes,
    by rw [h'.entries, h.entries, List.append_assoc]⟩

theorem findings (h : l.Extends new l') : l'.findings = l.findings ++ new.map Prod.fst := by
  rw [Ledger.findings, FindingLog.findings, h.entries, List.map_append]
  rfl

/-- Publishing adds an entry, unless its key was used before. -/
theorem publish (l : Ledger) (f : Finding) (v : Option Value) :
    l.Extends (if l.log.covers f v then [] else [(f, v)]) (l.publish f v) := by
  refine ⟨rfl, rfl, ?_⟩
  by_cases hcovers : l.log.covers f v
  · simp [Ledger.publish, FindingLog.publish, hcovers]
  · simp [Ledger.publish, FindingLog.publish, hcovers]

end Ledger.Extends

/-! ### The end of an exploration -/

theorem ConstantCondition.rule_inj {outcome outcome' : Bool} (h : rule outcome = rule outcome') :
    outcome = outcome' := by
  revert outcome outcome'
  decide

namespace Ledger

/-- Findings that are published one after the other are added, unless their keys were used. -/
theorem exists_extends_publish (findings : List Finding) (l : Ledger) :
    ∃ new, l.Extends new (findings.foldl (fun l f => l.publish f none) l) ∧
      ∀ x ∈ new, x.1 ∈ findings := by
  induction findings generalizing l with
  | nil => exact ⟨[], .refl l, by simp⟩
  | cons f rest ih =>
    obtain ⟨new, hnew, hmem⟩ := ih (l.publish f none)
    refine ⟨_, (Extends.publish l f none).trans hnew, fun x hx => ?_⟩
    rcases List.mem_append.1 hx with hx | hx
    · split at hx
      · exact absurd hx List.not_mem_nil
      · obtain rfl := List.mem_singleton.1 hx
        exact List.mem_cons_self
    · exact List.mem_cons_of_mem _ (hmem x hx)

theorem exists_extends_endBy (entry : ProgramPoint) (completion : Completion) (l : Ledger)
    (rule : Rule) :
    ∃ new, l.Extends new (l.endBy entry completion rule) ∧
      ∀ x ∈ new, x.1 ∈ l.constantConditions := by
  cases rule with
  | constantCondition =>
    unfold endBy
    dsimp only
    split
    · exact exists_extends_publish _ l
    · exact ⟨[], .refl l, by simp⟩
  | journal => exact ⟨[], ⟨rfl, rfl, (List.append_nil _).symm⟩, by simp⟩
  | _ => exact ⟨[], .refl l, by simp⟩

/-- All that is added at the end is about conditions that have always gone the same way. -/
theorem exists_extends_finish (rules : List Rule) (entry : ProgramPoint) (completion : Completion)
    (l : Ledger) :
    ∃ new, l.Extends new (l.finish rules entry completion) ∧
      ∀ x ∈ new, x.1 ∈ l.constantConditions := by
  induction rules generalizing l with
  | nil => exact ⟨[], .refl l, by simp⟩
  | cons rule rest ih =>
    obtain ⟨first, hfirst, hmem⟩ := exists_extends_endBy entry completion l rule
    obtain ⟨later, hlater, hmem'⟩ := ih (l.endBy entry completion rule)
    refine ⟨first ++ later, hfirst.trans hlater, fun x hx => ?_⟩
    rcases List.mem_append.1 hx with hx | hx
    · exact hmem x hx
    · have hx := hmem' x hx
      rwa [constantConditions, hfirst.outcomes] at hx

theorem mem_constantConditions {f : Finding} (h : f ∈ l.constantConditions) :
    ∃ outcome, f.rule = ConstantCondition.rule outcome ∧ l.seen f.location.point outcome ∧
      ¬ l.seen f.location.point (!outcome) := by
  obtain ⟨⟨point, o⟩, ho, hf⟩ := List.mem_filterMap.1 h
  obtain ⟨outcome, hconstant, rfl⟩ := Option.map_eq_some_iff.1 hf
  rw [Std.ExtTreeMap.mem_toList_iff_getElem?_eq_some] at ho
  refine ⟨outcome, rfl, ?_⟩
  show (l.outcomes[point]?.any fun o => o.seen outcome) = true ∧
    ¬ (l.outcomes[point]?.any fun o => o.seen !outcome) = true
  simpa [ho] using Outcomes.constant?_eq_some_iff.1 hconstant

end Ledger

/-! ### Locks that are held where the method is left -/

/-- All that was noticed is that locks are held at an exit, under the given names. -/
def Observation.AtExit (name : Value → String) (exit : Location) (o : Observation) : Prop :=
  (∃ v, o = .heldAtExit v (name v) exit) ∨ ∃ event, o = .journal event

namespace Ledger

variable {name : Value → String} {exit : Location}

/-- Locks that are held at an exit are entered in the log and nowhere else. -/
theorem extends_note_atExit (h : o.AtExit name exit) (l : Ledger) :
    l.Extends (l.published? o).toList (l.note o) := by
  refine ⟨?_, ?_, entries_note l o⟩
  · rcases h with ⟨v, rfl⟩ | ⟨event, rfl⟩
    · unfold note
      dsimp only
      split <;> rfl
    · rfl
  · rcases h with ⟨v, rfl⟩ | ⟨event, rfl⟩
    · unfold note
      dsimp only
      split <;> rfl
    · rfl

theorem extends_noteAll_atExit (h : ∀ o ∈ observations, o.AtExit name exit) (l : Ledger) :
    l.Extends (l.published observations) (l.noteAll observations) := by
  induction observations generalizing l with
  | nil => exact .refl l
  | cons o rest ih =>
    exact (extends_note_atExit (h o List.mem_cons_self) l).trans
      (ih (fun o ho => h o (List.mem_cons_of_mem _ ho)) (l.note o))

/-- The entry is the report of a lock among the observations. -/
def Leaks (l : Ledger) (name : Value → String) (exit : Location) (observations : List Observation)
    (x : LogEntry) : Prop :=
  ∃ v, .heldAtExit v (name v) exit ∈ observations ∧
    ∃ a, l.acquisitions[v]? = some a ∧ x = (leak a (name v) exit, some v)

/-- Each lock has one report. -/
theorem Leaks.eq_of_sameKey {l l' : Ledger} (hl : l.acquisitions = l'.acquisitions)
    {observations' : List Observation} {x y : LogEntry} (hx : l.Leaks name exit observations x)
    (hy : l'.Leaks name exit observations' y) (h : LogEntry.SameKey x y) : x = y := by
  obtain ⟨v, -, a, ha, rfl⟩ := hx
  obtain ⟨w, -, b, hb, rfl⟩ := hy
  obtain rfl : v = w := Option.some.inj h.2.2
  rw [hl, hb] at ha
  rw [Option.some.inj ha]

theorem request?_eq_some_iff_of_atExit (h : o.AtExit name exit) {x : LogEntry} :
    l.request? o = some x ↔ l.Leaks name exit [o] x := by
  rcases h with ⟨v, rfl⟩ | ⟨event, rfl⟩
  · simp only [request?, Option.map_eq_some_iff, Leaks, List.mem_singleton,
      Observation.heldAtExit.injEq]
    constructor
    · rintro ⟨a, ha, rfl⟩
      exact ⟨v, ⟨rfl, rfl, trivial⟩, a, ha, rfl⟩
    · rintro ⟨w, ⟨rfl, -, -⟩, a, ha, rfl⟩
      exact ⟨a, ha, rfl⟩
  · simp [request?, Leaks]

/-- Once the locks that are held at an exit were entered, exactly those reports are new whose keys
were not used before, and none of them is there twice. -/
theorem published_leaks (h : ∀ o ∈ observations, o.AtExit name exit) (l : Ledger) :
    (l.published observations).Nodup ∧ ∀ x, x ∈ l.published observations ↔
      l.Leaks name exit observations x ∧ ¬ l.log.covers x.1 x.2 := by
  induction observations generalizing l with
  | nil => simp [published, Leaks]
  | cons o rest ih =>
    have ho := h o List.mem_cons_self
    obtain ⟨hnodup, hlater⟩ := ih (fun o ho => h o (List.mem_cons_of_mem _ ho)) (l.note o)
    have hleaks : ∀ x, l.Leaks name exit (o :: rest) x ↔
        l.request? o = some x ∨ (l.note o).Leaks name exit rest x := by
      intro x
      rw [request?_eq_some_iff_of_atExit ho]
      unfold Leaks
      simp only [(extends_note_atExit ho l).acquisitions, List.mem_cons, List.not_mem_nil, or_false,
        or_and_right, exists_or]
    have hcovers : ∀ x : LogEntry, (l.note o).log.covers x.1 x.2 ↔
        l.log.covers x.1 x.2 ∨ ∃ y ∈ (l.published? o).toList, LogEntry.SameKey y x := by
      intro x
      rw [← FindingLog.covers_append_iff, ← entries_note]
    have hfirst : ∀ x, x ∈ (l.published? o).toList ↔
        l.request? o = some x ∧ ¬ l.log.covers x.1 x.2 :=
      fun x => Option.mem_toList.trans published?_eq_some_iff
    constructor
    · -- what is added later has a new key, so it was not added first
      refine List.nodup_append.2 ⟨by cases l.published? o <;> simp, hnodup, ?_⟩
      rintro x hx y hy rfl
      exact ((hlater x).1 hy).2 ((hcovers x).2 (.inr ⟨x, hx, rfl, rfl, rfl⟩))
    · intro x
      rw [published, List.mem_append, hlater, hleaks]
      constructor
      · rintro (hnew | ⟨hleak, hnew⟩)
        · exact ⟨.inl ((hfirst x).1 hnew).1, ((hfirst x).1 hnew).2⟩
        · exact ⟨.inr hleak, fun hold => hnew ((hcovers x).2 (.inl hold))⟩
      · rintro ⟨hentry | hleak, hnew⟩
        · exact .inl ((hfirst x).2 ⟨hentry, hnew⟩)
        · by_cases hkey : ∃ y ∈ (l.published? o).toList, LogEntry.SameKey y x
          · obtain ⟨y, hy, hkey⟩ := hkey
            obtain rfl := Leaks.eq_of_sameKey rfl ((hleaks y).2 (.inl ((hfirst y).1 hy).1))
              ((hleaks x).2 (.inr hleak)) hkey
            exact .inl hy
          · exact .inr ⟨hleak, fun hold => ((hcovers x).1 hold).elim hnew hkey⟩

end Ledger

namespace LockRelease

/-- The held locks are those of which it is known that they are held. -/
theorem mem_heldLocks {s : State} {v : Value} : v ∈ heldLocks s ↔ s.has v .held := by
  simp only [heldLocks, List.mem_map, List.mem_filter, Prod.exists, exists_and_right,
    exists_eq_right, Std.ExtTreeMap.mem_toList_iff_getElem?_eq_some, State.has, State.factsOf,
    Std.ExtTreeMap.getD_eq_getD_getElem?]
  cases s.facts[v]? with
  | none =>
    have hnothing : Facts.nothing.implies .held = false := rfl
    simp [hnothing]
  | some facts => simp

end LockRelease

namespace Rule

variable {rules : List Rule} {site : Site} {s : State}

/-- Where the method is left, nothing is noticed but held locks. -/
theorem atExit_of_mem_exit (h : o ∈ exit rules site s) :
    o.AtExit (site.nameOf s) site.location := by
  obtain ⟨rule, -, ho⟩ := List.mem_flatMap.1 h
  cases rule with
  | lockRelease =>
    obtain ⟨v, -, rfl⟩ := List.mem_map.1 ho
    exact .inl ⟨v, rfl⟩
  | journal =>
    obtain rfl := List.mem_singleton.1 ho
    exact .inr ⟨_, rfl⟩
  | _ => exact absurd ho List.not_mem_nil

theorem heldAtExit_mem_exit {v : Value} {name : String} {location : Location} :
    .heldAtExit v name location ∈ exit rules site s ↔
      .lockRelease ∈ rules ∧ s.has v .held ∧ name = site.nameOf s v ∧ location = site.location := by
  constructor
  · intro h
    obtain ⟨rule, hrule, ho⟩ := List.mem_flatMap.1 h
    cases rule with
    | lockRelease =>
      obtain ⟨w, hw, heq⟩ := List.mem_map.1 ho
      cases heq
      exact ⟨hrule, LockRelease.mem_heldLocks.1 hw, rfl, rfl⟩
    | journal => cases List.mem_singleton.1 ho
    | _ => exact absurd ho List.not_mem_nil
  · rintro ⟨hrule, hheld, rfl, rfl⟩
    exact List.mem_flatMap.2 ⟨_, hrule, List.mem_map.2
      ⟨v, LockRelease.mem_heldLocks.2 hheld, rfl⟩⟩

end Rule

end Pathwise
