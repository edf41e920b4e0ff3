import Pathwise.Proofs.Rule.Frame
import Pathwise.Proofs.Rule.Ledger

/-!
What rules notice. Most of them report defects on the spot, each under a name of its own, or keep
the journal. Besides that, calls that take a lock are noticed before they are made, conditions when
they have gone one way, and held locks where the method is left.

A rule sees what the rules before it have left of the state, and nothing if one of them has ended
the path. `Sighting.mem_inTurn` says so for any list of rules.
-/

namespace Pathwise

/-- The names under which defects are reported on the spot. -/
def Rule.defectNames : List String :=
  [NullDereference.rule, EmptyNullable.rule, DisposedTwice.rule, EmptyCollection.rule]

/-- The observation is a defect that is reported on the spot, or an entry of the journal. -/
def Observation.Plain : Observation → Prop
  | .defect finding _ => finding.rule ∈ Rule.defectNames
  | .journal _ => True
  | _ => False

/-- The observation is an entry of the journal. -/
def Observation.InJournal : Observation → Prop
  | .journal _ => True
  | _ => False

theorem Observation.InJournal.plain {o : Observation} (h : o.InJournal) : o.Plain := by
  cases o with
  | journal => trivial
  | _ => exact h.elim

namespace Observation.Plain

variable {o : Observation}

theorem acquisition?_eq_none (h : o.Plain) (v : Value) : o.acquisition? v = none := by
  cases o with
  | defect | journal => rfl
  | _ => exact h.elim

theorem decides_eq_false (h : o.Plain) (point : ProgramPoint) (outcome : Bool) :
    o.decides point outcome = false := by
  cases o with
  | defect | journal => rfl
  | _ => exact h.elim

end Observation.Plain

/-! ### Rules in turn -/

namespace Sighting

theorem state_inTurn_cons (first : State → Sighting) (rest : List (State → Sighting)) (s : State) :
    (inTurn (first :: rest) s).state = (first s).state.bind fun t => (inTurn rest t).state := by
  rw [inTurn]
  split
  · next hfirst => simp [hfirst]
  · next hfirst => simp [hfirst]

theorem state_inTurn_append (earlier later : List (State → Sighting)) (s : State) :
    (inTurn (earlier ++ later) s).state =
      (inTurn earlier s).state.bind fun t => (inTurn later t).state := by
  induction earlier generalizing s with
  | nil => rfl
  | cons first rest ih =>
    rw [List.cons_append, state_inTurn_cons, state_inTurn_cons, Option.bind_assoc]
    exact congrArg _ (funext ih)

/-- Something is noticed by one of the rules, in a state that the rules before it have left. -/
theorem mem_inTurn {α : Type} {rules : List α} {look : α → State → Sighting} {s : State}
    {o : Observation} :
    o ∈ (inTurn (rules.map look) s).observations ↔ ∃ earlier rule later t,
      rules = earlier ++ rule :: later ∧ (inTurn (earlier.map look) s).state = some t ∧
        o ∈ (look rule t).observations := by
  induction rules generalizing s with
  | nil => simp [inTurn, unchanged]
  | cons first rest ih =>
    have hsplit : o ∈ (inTurn (look first :: rest.map look) s).observations ↔
        o ∈ (look first s).observations ∨
          ∃ t, (look first s).state = some t ∧ o ∈ (inTurn (rest.map look) t).observations := by
      rw [inTurn]
      split
      · next hfirst => simp [hfirst]
      · next hfirst => simp [hfirst]
    rw [List.map_cons, hsplit]
    constructor
    · rintro (ho | ⟨t, ht, ho⟩)
      · exact ⟨[], first, rest, s, rfl, rfl, ho⟩
      · obtain ⟨earlier, rule, later, u, rfl, hu, ho⟩ := ih.1 ho
        refine ⟨first :: earlier, rule, later, u, rfl, ?_, ho⟩
        rw [List.map_cons, state_inTurn_cons, ht]
        exact hu
    · rintro ⟨earlier, rule, later, u, hrules, hu, ho⟩
      cases earlier with
      | nil =>
        obtain ⟨rfl, rfl⟩ := List.cons.inj hrules
        obtain rfl : s = u := Option.some.inj hu
        exact .inl ho
      | cons first' earlier =>
        obtain ⟨rfl, rfl⟩ := List.cons.inj hrules
        rw [List.map_cons, state_inTurn_cons] at hu
        obtain ⟨t, ht, hu⟩ := Option.bind_eq_some_iff.1 hu
        exact .inr ⟨t, ht, ih.2 ⟨earlier, rule, later, u, rfl, hu, ho⟩⟩

end Sighting

/-! ### Defects -/

section

variable {site : Site} {i : Instruction} {s : State} {o : Observation}

/-- A demand that is not met is a defect. -/
theorem Site.mem_demandNotNull {depth : Option Nat} {name : String} {message : String → String}
    (h : o ∈ (site.demandNotNull s depth name message).observations) :
    ∃ n f v, depth = some n ∧ o = .defect f v ∧ f.rule = name ∧ f.location = site.location ∧
      s.stack[n]? = some v ∧ s.has v .null := by
  unfold demandNotNull at h
  split at h
  · exact absurd h List.not_mem_nil
  next n =>
  split at h
  · exact absurd h List.not_mem_nil
  next v hpeek =>
  split at h
  · next hnull =>
    exact ⟨n, _, v, rfl, List.mem_singleton.1 h, rfl, rfl, State.peek_eq_ok_iff.1 hpeek, hnull⟩
  · exact absurd h List.not_mem_nil

/-- To dispose of a resource again is a defect. -/
theorem DisposedTwice.mem_dispose {resource : Value} {label : Option String}
    (h : o ∈ (dispose site resource label s).observations) :
    ∃ f, o = .defect f resource ∧ f.rule = rule ∧ f.location = site.location ∧
      s.has resource .disposed := by
  unfold dispose at h
  split at h
  · exact absurd h List.not_mem_nil
  · split at h
    · next hdisposed => exact ⟨_, List.mem_singleton.1 h, rfl, rfl, hdisposed⟩
    · exact absurd h List.not_mem_nil

/-- To read from an empty collection is a defect. -/
theorem EmptyCollection.mem_access {collection : Value} {what : String}
    (h : o ∈ (access site collection what s).observations) :
    ∃ f, o = .defect f collection ∧ f.rule = rule ∧ f.location = site.location ∧
      s.has collection .emptyCollection := by
  unfold access at h
  split at h
  · next hempty => exact ⟨_, List.mem_singleton.1 h, rfl, rfl, hempty⟩
  · exact absurd h List.not_mem_nil

theorem Site.plain_of_mem_demandNotNull {depth : Option Nat} {name : String}
    {message : String → String} (hname : name ∈ Rule.defectNames)
    (h : o ∈ (site.demandNotNull s depth name message).observations) : o.Plain := by
  obtain ⟨n, f, v, -, rfl, hrule, -⟩ := mem_demandNotNull h
  show f.rule ∈ Rule.defectNames
  rw [hrule]
  exact hname

theorem DisposedTwice.plain_of_mem_dispose {resource : Value} {label : Option String}
    (h : o ∈ (dispose site resource label s).observations) : o.Plain := by
  obtain ⟨f, rfl, hrule, -⟩ := mem_dispose h
  show f.rule ∈ Rule.defectNames
  rw [hrule]
  exact List.mem_of_elem_eq_true rfl

theorem EmptyCollection.plain_of_mem_access {collection : Value} {what : String}
    (h : o ∈ (access site collection what s).observations) : o.Plain := by
  obtain ⟨f, rfl, hrule, -⟩ := mem_access h
  show f.rule ∈ Rule.defectNames
  rw [hrule]
  exact List.mem_of_elem_eq_true rfl

theorem EmptyCollection.plain_of_mem_before (h : o ∈ (before site i s).observations) :
    o.Plain := by
  unfold before at h
  split at h
  · split at h
    · unfold call at h
      split at h
      · exact plain_of_mem_access h
      · exact absurd h List.not_mem_nil
      · exact absurd h List.not_mem_nil
      · split at h
        · exact absurd h List.not_mem_nil
        · exact absurd h List.not_mem_nil
      · exact absurd h List.not_mem_nil
    · exact absurd h List.not_mem_nil
  · split at h
    · exact plain_of_mem_access h
    · exact absurd h List.not_mem_nil
  · exact absurd h List.not_mem_nil

theorem DisposedTwice.plain_of_mem_before (h : o ∈ (before site i s).observations) : o.Plain := by
  unfold before at h
  split at h
  · split at h
    · split at h
      · exact plain_of_mem_dispose h
      · exact absurd h List.not_mem_nil
    · exact absurd h List.not_mem_nil
  · exact absurd h List.not_mem_nil

/-- The rule about locks apart, rules notice defects before an instruction and nothing else. -/
theorem Rule.plain_of_mem_beforeBy {rule : Rule} (hrule : rule ≠ .lockRelease)
    (h : o ∈ (beforeBy site i rule s).observations) : o.Plain := by
  cases rule with
  | nullDereference | emptyNullable =>
    exact Site.plain_of_mem_demandNotNull (List.mem_of_elem_eq_true rfl) h
  | disposedTwice => exact DisposedTwice.plain_of_mem_before h
  | lockRelease => exact absurd rfl hrule
  | emptyCollection => exact EmptyCollection.plain_of_mem_before h
  | constantCondition => exact absurd h List.not_mem_nil
  | journal =>
    obtain rfl := List.mem_singleton.1 h
    trivial

theorem Rule.plain_of_mem_usingScope {rules : List Rule} {resource : Value}
    (h : o ∈ (usingScope rules site resource s).observations) : o.Plain := by
  obtain ⟨earlier, rule, later, t, -, -, ho⟩ := Sighting.mem_inTurn.1 h
  cases rule with
  | disposedTwice => exact DisposedTwice.plain_of_mem_dispose ho
  | journal =>
    obtain rfl := List.mem_singleton.1 ho
    trivial
  | _ => exact absurd ho List.not_mem_nil

theorem Rule.inJournal_of_mem_noted {rules : List Rule} {e : Event} (h : o ∈ noted rules e) :
    o.InJournal := by
  unfold noted at h
  split at h
  · obtain rfl := List.mem_singleton.1 h
    trivial
  · exact absurd h List.not_mem_nil

theorem Rule.inJournal_of_mem_creating (rules : List Rule) (site : Site) (i : Instruction) :
    ∀ o : Observation,
      o ∈ (match i with | .objectCreation type _ => creating rules site type | _ => []) →
        o.InJournal := by
  intro o ho
  split at ho
  · exact inJournal_of_mem_noted ho
  · exact absurd ho List.not_mem_nil

end

/-! ### Locks -/

/-- The lock that an instruction about to run takes or releases, if it is a call that does. -/
def Instruction.lock? (known : KnownMethod) (i : Instruction) (s : State) : Option Value :=
  match i with
  | .invocation method argCount =>
    if method.known = known then
      (s.peekCall argCount).toOption.bind (LockRelease.lockOf method)
    else none
  | _ => none

/-- Operands are on the stack. -/
theorem Instruction.lock?_congr {s t : State} (h : t.stack = s.stack) (known : KnownMethod)
    (i : Instruction) : i.lock? known t = i.lock? known s := by
  have hcall : ∀ argCount, t.peekCall argCount = s.peekCall argCount := by
    intro argCount
    simp only [State.peekCall, State.peek, h]
  cases i with
  | invocation method argCount => simp only [lock?, hcall]
  | _ => rfl

namespace LockRelease

variable {site : Site} {i : Instruction} {s : State} {v : Value}

/-- A call that takes a lock. -/
theorem before_of_acquires (site : Site) (h : i.lock? .lockAcquire s = some v) :
    ∃ name, before site i s = ⟨[.acquired v site.location name], site.constrain s v .held⟩ := by
  cases i with
  | invocation method argCount =>
    simp only [Instruction.lock?] at h
    split at h
    · next hknown => exact ⟨lockName site method argCount, by simp only [before, hknown, h]⟩
    · cases h
  | _ => cases h

/-- A call that releases a lock. -/
theorem before_of_releases (h : i.lock? .lockRelease s = some v) :
    before site i s = .unchanged (s.forgetIn v .lock) := by
  cases i with
  | invocation method argCount =>
    simp only [Instruction.lock?] at h
    split at h
    · next hknown => simp only [before, hknown, h]
    · cases h
  | _ => cases h

/-- Any other instruction. -/
theorem before_of_neither (hacquire : i.lock? .lockAcquire s = none)
    (hrelease : i.lock? .lockRelease s = none) : before site i s = .unchanged s := by
  cases i with
  | invocation method argCount =>
    simp only [Instruction.lock?] at hacquire hrelease
    unfold before
    dsimp only
    split
    · next hknown hlock => simp [hknown, hlock] at hacquire
    · next hknown hlock => simp [hknown, hlock] at hrelease
    · rfl
  | _ => rfl

/-- The rule notices nothing but locks that are taken. -/
theorem mem_before {o : Observation} (h : o ∈ (before site i s).observations) :
    ∃ v name, i.lock? .lockAcquire s = some v ∧ o = .acquired v site.location name := by
  cases hacquire : i.lock? .lockAcquire s with
  | some v =>
    obtain ⟨name, hbefore⟩ := before_of_acquires site hacquire
    rw [hbefore] at h
    exact ⟨v, name, rfl, List.mem_singleton.1 h⟩
  | none =>
    cases hrelease : i.lock? .lockRelease s with
    | some v =>
      rw [before_of_releases hrelease] at h
      exact absurd h List.not_mem_nil
    | none =>
      rw [before_of_neither hacquire hrelease] at h
      exact absurd h List.not_mem_nil

end LockRelease

namespace Rule

variable {rules : List Rule} {site : Site} {i : Instruction} {s : State} {o : Observation}

/-- The rules up to the one about locks let the path go on. -/
def ShowLocks (rules : List Rule) (site : Site) (i : Instruction) (s : State) : Prop :=
  ∃ earlier later, rules = earlier ++ .lockRelease :: later ∧
    (before earlier site i s).state.isSome

theorem showLocks_of_isSome (hrule : .lockRelease ∈ rules)
    (h : (before rules site i s).state.isSome) : ShowLocks rules site i s := by
  obtain ⟨earlier, later, rfl⟩ := List.append_of_mem hrule
  obtain ⟨t, ht⟩ := Option.isSome_iff_exists.1 h
  rw [before, List.map_append, Sighting.state_inTurn_append] at ht
  obtain ⟨u, hu, -⟩ := Option.bind_eq_some_iff.1 ht
  exact ⟨earlier, later, rfl, Option.isSome_iff_exists.2 ⟨u, hu⟩⟩

/-- Before an instruction, rules notice defects, and locks that it takes. -/
theorem cases_of_mem_before (h : o ∈ (before rules site i s).observations) :
    o.Plain ∨ ∃ v name, i.lock? .lockAcquire s = some v ∧ ShowLocks rules site i s ∧
      o = .acquired v site.location name := by
  obtain ⟨earlier, rule, later, t, rfl, ht, ho⟩ := Sighting.mem_inTurn.1 h
  by_cases hrule : rule = .lockRelease
  · subst hrule
    obtain ⟨v, name, hlock, rfl⟩ := LockRelease.mem_before ho
    have hstack := (factsOnly_before earlier site i s t ht).stack
    rw [Instruction.lock?_congr hstack] at hlock
    exact .inr ⟨v, name, hlock, ⟨earlier, later, rfl, Option.isSome_iff_exists.2 ⟨t, ht⟩⟩, rfl⟩
  · exact .inl (plain_of_mem_beforeBy hrule ho)

/-- A lock that is taken is noticed, unless a rule ends the path before. -/
theorem exists_acquired_mem_before {v : Value} (hlock : i.lock? .lockAcquire s = some v)
    (h : ShowLocks rules site i s) :
    ∃ name, .acquired v site.location name ∈ (before rules site i s).observations := by
  obtain ⟨earlier, later, rfl, hstate⟩ := h
  obtain ⟨t, ht⟩ := Option.isSome_iff_exists.1 hstate
  have hstack := (factsOnly_before earlier site i s t ht).stack
  rw [← Instruction.lock?_congr hstack] at hlock
  obtain ⟨name, hbefore⟩ := LockRelease.before_of_acquires site hlock
  refine ⟨name, Sighting.mem_inTurn.2 ⟨earlier, .lockRelease, later, t, rfl, ht, ?_⟩⟩
  show _ ∈ (LockRelease.before site i t).observations
  rw [hbefore]
  exact List.mem_singleton.2 rfl

/-! ### Conditions -/

/-- When a condition has gone one way, that is noticed unless it is written as a literal. -/
theorem cases_of_mem_condition {v : Value} {isLiteral outcome : Bool}
    (h : o ∈ condition rules site v isLiteral outcome s) :
    o.InJournal ∨ .constantCondition ∈ rules ∧ isLiteral = false ∧
      o = .decided site.location outcome := by
  obtain ⟨rule, hrule, ho⟩ := List.mem_flatMap.1 h
  cases rule with
  | constantCondition =>
    cases isLiteral with
    | true => exact absurd ho List.not_mem_nil
    | false => exact .inr ⟨hrule, rfl, List.mem_singleton.1 ho⟩
  | journal =>
    obtain rfl := List.mem_singleton.1 ho
    exact .inl trivial
  | _ => exact absurd ho List.not_mem_nil

theorem decided_mem_condition {v : Value} {outcome : Bool} (h : .constantCondition ∈ rules) :
    .decided site.location outcome ∈ condition rules site v false outcome s :=
  List.mem_flatMap.2 ⟨_, h, List.mem_singleton.2 rfl⟩

end Rule

end Pathwise
