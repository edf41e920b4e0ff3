import Pathwise.Proofs.Rule.Observed
import Pathwise.Proofs.Transfer.Receivers

/-!
Defects that are reported on the spot. Each of the rules that do so is about the receivers of some
instructions, and objects to one fact about them. A receiver with this fact is reported before the
instruction runs, and no other value is.

The rules about null let no path go on with a receiver that may be null: a path with a null receiver
ends, and on any other path it is known from then on that the receiver is not null.
-/

namespace Pathwise

/-! ### What rules object to -/

namespace Instruction

/-- Does the instruction need a receiver that is not null? Members of nullable value types do
without. -/
def dereferences (symbols : SymbolTable) : Instruction → Bool
  | .memberAccess id .receiver =>
    (symbols.get? id).any fun symbol => symbol.propertyRole = .plain
  | .methodGroup _ .receiver | .await | .elementAccess _ => true
  | .assignment (.member _ .receiver) kind | .assignment (.element _) kind => kind ≠ .increment
  | _ => false

/-- Is the instruction a call with the given meaning? -/
def calls (known : KnownMethod) : Instruction → Bool
  | .invocation method _ => method.known = known
  | _ => false

/-- Does the instruction read an element of its receiver? -/
def readsElement : Instruction → Bool
  | .elementAccess _ => true
  | i => i.calls .collectionElementAccess

/-- How many index arguments lie on the stack above the receiver of the instruction. -/
def indexCount : Instruction → Nat
  | .elementAccess argCount => argCount
  | .assignment (.element argCount) kind => if kind = .increment then 0 else argCount
  | _ => 0

end Instruction

namespace Rule

/-- What a rule reports on the spot: the name of its findings, and the fact about a receiver that it
objects to. -/
def offence? : Rule → Option (String × Constraint)
  | .nullDereference => some (NullDereference.rule, .null)
  | .emptyNullable => some (EmptyNullable.rule, .null)
  | .disposedTwice => some (DisposedTwice.rule, .disposed)
  | .emptyCollection => some (EmptyCollection.rule, .emptyCollection)
  | .lockRelease | .constantCondition | .journal => none

/-- Is the rule about the receiver of an instruction? -/
def concerns (symbols : SymbolTable) (i : Instruction) : Rule → Bool
  | .nullDereference => i.dereferences symbols
  | .emptyNullable => EmptyNullable.unwraps symbols i
  | .disposedTwice => i.calls .dispose
  | .emptyCollection => i.readsElement
  | .lockRelease | .constantCondition | .journal => false

/-- The receiver that a rule looks at before an instruction. -/
def target? (symbols : SymbolTable) (i : Instruction) (rule : Rule) (s : State) : Option Value :=
  if rule.concerns symbols i then i.receiver? s else none

/-- Rules have names of their own. -/
theorem eq_of_offence? {rule rule' : Rule} {name : String} {c c' : Constraint}
    (h : rule.offence? = some (name, c)) (h' : rule'.offence? = some (name, c')) :
    rule = rule' := by
  have hnames : rule.offence?.map Prod.fst = rule'.offence?.map Prod.fst := by rw [h, h']; rfl
  cases rule with
  | lockRelease | constantCondition | journal => cases h
  | _ =>
    cases rule' with
    | lockRelease | constantCondition | journal => cases h'
    | _ => first | rfl | exact absurd hnames (by decide)

theorem mem_defectNames_of_offence? {rule : Rule} {name : String} {c : Constraint}
    (h : rule.offence? = some (name, c)) : name ∈ defectNames := by
  cases rule <;> cases h <;> decide

end Rule

/-! ### Receivers that must not be null -/

section

variable {site : Site} {i : Instruction} {rule : Rule} {s t : State} {v : Value} {f : Finding}
  {name : String} {message : String → String} {depth : Nat}

namespace Site

theorem demandNotNull_of_null (hv : s.stack[depth]? = some v) (hnull : s.has v .null) :
    ∃ f, f.rule = name ∧ f.location = site.location ∧
      site.demandNotNull s (some depth) name message = ⟨[.defect f v], none⟩ := by
  simp only [demandNotNull, State.peek_eq_ok_iff.2 hv, if_pos hnull]
  exact ⟨_, rfl, rfl, rfl⟩

end Site

/-- The operand that is looked at is there for the instructions that need one. -/
theorem NullDereference.isSome_receiverDepth (symbols : SymbolTable) (i : Instruction) :
    (receiverDepth symbols i).isSome = i.dereferences symbols := by
  cases i with
  | memberAccess id access =>
    cases access with
    | static => rfl
    | receiver =>
      simp only [receiverDepth, Instruction.dereferences]
      cases symbols.get? id with
      | none => rfl
      | some symbol => by_cases hrole : symbol.propertyRole = .plain <;> simp [hrole]
  | methodGroup name access => cases access <;> rfl
  | assignment target kind =>
    rcases target with id | ⟨id, access⟩ | argCount | _
    · cases kind <;> rfl
    · cases access <;> cases kind <;> rfl
    · cases kind <;> rfl
    · cases kind <;> rfl
  | _ => rfl

/-- The receiver is the operand at a depth, among those that the instruction takes. -/
structure Instruction.ReceiverAt (i : Instruction) (depth : Nat) : Prop where
  receiver : ∀ s, i.receiver? s = s.stack[depth]?
  taken : depth < i.taken

/-- The operand that is looked at is the receiver, if it can be counted off. -/
theorem NullDereference.receiverAt {symbols : SymbolTable} (hcount : i.indexCount + 1 < UInt64.size)
    (h : receiverDepth symbols i = some depth) : i.ReceiverAt depth := by
  unfold receiverDepth at h
  split at h
  · split at h
    · split at h
      · cases h
        exact ⟨Instruction.receiver?_memberAccess _, Nat.one_pos⟩
      · cases h
    · cases h
  · cases h
    exact ⟨Instruction.receiver?_methodGroup _, Nat.one_pos⟩
  · cases h
    exact ⟨Instruction.receiver?_await, Nat.one_pos⟩
  · cases h
    have hcount : depth + 1 < UInt64.size := hcount
    refine ⟨Instruction.receiver?_elementAccess hcount, ?_⟩
    show depth < nextCount depth
    rw [nextCount_of_lt hcount]
    exact Nat.lt_succ_self depth
  · cases h
  · next id kind hkind =>
    cases h
    refine ⟨Instruction.receiver?_assignment_member hkind id, ?_⟩
    cases kind with
    | increment => exact absurd rfl hkind
    | simple | compound => exact Nat.lt_succ_self 1
  · next argCount kind hkind =>
    cases h
    have hcount : argCount + 1 < UInt64.size := by
      rwa [Instruction.indexCount, if_neg hkind] at hcount
    have hnext := nextCount_of_lt hcount
    rw [hnext]
    refine ⟨Instruction.receiver?_assignment_element hkind hcount, ?_⟩
    cases kind with
    | increment => exact absurd rfl hkind
    | simple | compound =>
      show argCount + 1 < 1 + nextCount argCount
      omega
  · cases h

theorem EmptyNullable.receiverAt {symbols : SymbolTable} (h : unwraps symbols i) :
    i.ReceiverAt 0 := by
  unfold unwraps at h
  split at h
  · exact ⟨Instruction.receiver?_memberAccess _, Nat.one_pos⟩
  · exact ⟨Instruction.receiver?_cast _, Nat.one_pos⟩
  · cases h

namespace Rule

/-- A rule that objects to null makes its demand of the receiver, if the instruction is one of its
concern. -/
theorem beforeBy_of_null (hoffence : rule.offence? = some (name, .null)) (site : Site)
    (hcount : i.indexCount + 1 < UInt64.size) :
    (rule.concerns site.graph.symbols i = false ∧ ∀ s, beforeBy site i rule s = .unchanged s) ∨
    ∃ depth message, rule.concerns site.graph.symbols i ∧ i.ReceiverAt depth ∧
      ∀ s, beforeBy site i rule s = site.demandNotNull s (some depth) name message := by
  cases rule with
  | nullDereference =>
    cases hoffence
    have hconcerns := NullDereference.isSome_receiverDepth site.graph.symbols i
    cases hdepth : NullDereference.receiverDepth site.graph.symbols i with
    | none =>
      rw [hdepth] at hconcerns
      exact .inl ⟨hconcerns.symm, fun s => by
        simp only [beforeBy, NullDereference.before, hdepth, Site.demandNotNull]⟩
    | some depth =>
      rw [hdepth] at hconcerns
      exact .inr ⟨depth, NullDereference.message, hconcerns.symm,
        NullDereference.receiverAt hcount hdepth,
        fun s => by simp only [beforeBy, NullDereference.before, hdepth]⟩
  | emptyNullable =>
    cases hoffence
    cases hunwraps : EmptyNullable.unwraps site.graph.symbols i with
    | false =>
      exact .inl ⟨hunwraps, fun s => by
        simp [beforeBy, EmptyNullable.before, hunwraps, Site.demandNotNull]⟩
    | true =>
      exact .inr ⟨0, EmptyNullable.message, hunwraps, EmptyNullable.receiverAt hunwraps,
        fun s => by simp [beforeBy, EmptyNullable.before, hunwraps]⟩
  | disposedTwice | emptyCollection | lockRelease | constantCondition | journal => cases hoffence

/-- A null receiver is reported, and ends the path. -/
theorem beforeBy_of_target_null (site : Site) (hcount : i.indexCount + 1 < UInt64.size)
    (hoffence : rule.offence? = some (name, .null))
    (htarget : rule.target? site.graph.symbols i s = some v) (hnull : s.has v .null) :
    ∃ f : Finding, f.rule = name ∧ f.location = site.location ∧
      beforeBy site i rule s = ⟨[.defect f v], none⟩ := by
  obtain ⟨hconcerns, hv⟩ := Option.ite_none_right_eq_some.1 htarget
  rcases beforeBy_of_null hoffence site hcount with
    ⟨hnot, -⟩ | ⟨depth, message, -, hreceiver, hbefore⟩
  · simp [hnot] at hconcerns
  · rw [hbefore]
    exact Site.demandNotNull_of_null (hreceiver.receiver s ▸ hv) hnull

end Rule

/-! ### Resources and collections -/

/-- The receiver of a call can be seen before the call is made. -/
theorem Instruction.receiver?_of_peekCall (method : Method) (argCount : Nat) (s : State) :
    (invocation method argCount).receiver? s =
      (s.peekCall argCount).toOption.bind CallOperands.receiver := by
  rw [receiver?_invocation, State.peekCall, State.peek]
  cases s.stack[argCount]? <;> rfl

namespace DisposedTwice

theorem exists_defect_mem_dispose (site : Site) (label : Option String)
    (hnull : ¬ s.has v .null) (hdisposed : s.has v .disposed) :
    ∃ f : Finding, f.rule = DisposedTwice.rule ∧ f.location = site.location ∧
      .defect f v ∈ (dispose site v label s).observations := by
  unfold dispose
  rw [if_neg hnull, if_pos hdisposed]
  exact ⟨_, rfl, rfl, List.mem_singleton.2 rfl⟩

/-- The receiver of a call that disposes is disposed of. -/
theorem before_eq (site : Site) (i : Instruction) (s : State) :
    (Rule.disposedTwice.target? site.graph.symbols i s = none ∧ before site i s = .unchanged s) ∨
    ∃ resource label, Rule.disposedTwice.target? site.graph.symbols i s = some resource ∧
      before site i s = dispose site resource label s := by
  cases i with
  | invocation method argCount =>
    by_cases hknown : method.known = .dispose
    · simp only [Rule.target?, Rule.concerns, Instruction.calls, hknown, before,
        Instruction.receiver?_of_peekCall]
      rcases s.peekCall argCount with fault | ⟨_ | receiver, arguments⟩
      · exact .inl ⟨rfl, rfl⟩
      · exact .inl ⟨rfl, rfl⟩
      · exact .inr ⟨receiver, _, rfl, rfl⟩
    · exact .inl ⟨by simp [Rule.target?, Rule.concerns, Instruction.calls, hknown],
        if_neg hknown⟩
  | _ => exact .inl ⟨rfl, rfl⟩

end DisposedTwice

namespace EmptyCollection

theorem exists_defect_mem_access (site : Site) (what : String) (hempty : s.has v .emptyCollection) :
    ∃ f : Finding, f.rule = EmptyCollection.rule ∧ f.location = site.location ∧
      .defect f v ∈ (access site v what s).observations := by
  unfold access
  rw [if_pos hempty]
  exact ⟨_, rfl, rfl, List.mem_singleton.2 rfl⟩

theorem observations_call {method : Method} (h : method.known ≠ .collectionElementAccess)
    (site : Site) (operands : CallOperands) (s : State) :
    (call site method operands s).observations = [] := by
  unfold call
  split
  · next hknown _ => exact absurd hknown h
  · rfl
  · rfl
  · split <;> rfl
  · rfl

/-- The receiver of a read is accessed, and nothing else is noticed. -/
theorem before_eq (site : Site) (hcount : i.indexCount + 1 < UInt64.size) (s : State) :
    (Rule.emptyCollection.target? site.graph.symbols i s = none ∧
      (before site i s).observations = []) ∨
    ∃ collection what, Rule.emptyCollection.target? site.graph.symbols i s = some collection ∧
      before site i s = access site collection what s := by
  cases i with
  | invocation method argCount =>
    simp only [Rule.target?, Rule.concerns, Instruction.readsElement, Instruction.calls, before,
      Instruction.receiver?_of_peekCall]
    by_cases hknown : method.known = .collectionElementAccess
    · rcases s.peekCall argCount with fault | ⟨_ | receiver, arguments⟩
      · exact .inl ⟨by simp [Except.toOption], rfl⟩
      · exact .inl ⟨by simp [Except.toOption], by simp only [call, hknown]; rfl⟩
      · exact .inr ⟨receiver, "call", by simp [Except.toOption, hknown],
          by simp only [call, hknown]⟩
    · refine .inl ⟨by simp [hknown], ?_⟩
      split
      · exact observations_call hknown site _ s
      · rfl
  | elementAccess argCount =>
    have hcount : argCount + 1 < UInt64.size := hcount
    simp only [Rule.target?, Rule.concerns, Instruction.readsElement, before, if_true,
      Instruction.receiver?_elementAccess hcount, ← s.toOption_peek]
    cases s.peek argCount with
    | error fault => exact .inl ⟨rfl, rfl⟩
    | ok collection => exact .inr ⟨collection, _, rfl, rfl⟩
  | _ => exact .inl ⟨rfl, rfl⟩

end EmptyCollection

/-! ### All rules -/

namespace Rule

/-- What a rule reports on the spot is a receiver that it objects to. -/
theorem offence_of_mem_beforeBy (hcount : i.indexCount + 1 < UInt64.size)
    (h : .defect f v ∈ (beforeBy site i rule s).observations) :
    ∃ c, rule.offence? = some (f.rule, c) ∧ f.location = site.location ∧
      rule.target? site.graph.symbols i s = some v ∧ s.has v c := by
  have hdemand : ∀ {name}, rule.offence? = some (name, .null) → ∃ c,
      rule.offence? = some (f.rule, c) ∧ f.location = site.location ∧
      rule.target? site.graph.symbols i s = some v ∧ s.has v c := by
    intro name hoffence
    rcases beforeBy_of_null hoffence site hcount with
      ⟨-, hbefore⟩ | ⟨depth, message, hconcerns, hreceiver, hbefore⟩
    · rw [hbefore] at h
      exact absurd h List.not_mem_nil
    · rw [hbefore] at h
      obtain ⟨_, _, _, ⟨⟩, ⟨⟩, rfl, hlocation, hv, hnull⟩ := Site.mem_demandNotNull h
      have htarget : rule.target? site.graph.symbols i s = some v :=
        (if_pos hconcerns).trans ((hreceiver.receiver s).trans hv)
      exact ⟨_, hoffence, hlocation, htarget, hnull⟩
  cases rule with
  | nullDereference | emptyNullable => exact hdemand rfl
  | disposedTwice =>
    rcases DisposedTwice.before_eq site i s with ⟨-, hbefore⟩ | ⟨resource, label, htarget, hbefore⟩
    · rw [beforeBy, hbefore] at h
      exact absurd h List.not_mem_nil
    · rw [beforeBy, hbefore] at h
      obtain ⟨_, ⟨⟩, hname, hlocation, hdisposed⟩ := DisposedTwice.mem_dispose h
      exact ⟨_, hname ▸ rfl, hlocation, htarget, hdisposed⟩
  | emptyCollection =>
    rcases EmptyCollection.before_eq site hcount s with
      ⟨-, hbefore⟩ | ⟨collection, what, htarget, hbefore⟩
    · rw [beforeBy, hbefore] at h
      exact absurd h List.not_mem_nil
    · rw [beforeBy, hbefore] at h
      obtain ⟨_, ⟨⟩, hname, hlocation, hempty⟩ := EmptyCollection.mem_access h
      exact ⟨_, hname ▸ rfl, hlocation, htarget, hempty⟩
  | lockRelease =>
    obtain ⟨_, _, -, heq⟩ := LockRelease.mem_before h
    cases heq
  | constantCondition => exact absurd h List.not_mem_nil
  | journal => cases List.mem_singleton.1 h

/-- A receiver that a rule objects to is reported. -/
theorem exists_defect_mem_beforeBy (site : Site) (hcount : i.indexCount + 1 < UInt64.size)
    {c : Constraint} (hoffence : rule.offence? = some (name, c))
    (htarget : rule.target? site.graph.symbols i s = some v) (hfact : s.has v c)
    (hdisposed : s.has v .disposed → ¬ s.has v .null) :
    ∃ f : Finding, f.rule = name ∧ f.location = site.location ∧
      .defect f v ∈ (beforeBy site i rule s).observations := by
  have hdemand : rule.offence? = some (name, .null) → s.has v .null → ∃ f : Finding,
      f.rule = name ∧ f.location = site.location ∧
      .defect f v ∈ (beforeBy site i rule s).observations := by
    intro hoffence hnull
    obtain ⟨f, hname, hlocation, hbefore⟩ :=
      beforeBy_of_target_null site hcount hoffence htarget hnull
    rw [hbefore]
    exact ⟨f, hname, hlocation, List.mem_singleton.2 rfl⟩
  cases rule with
  | nullDereference | emptyNullable =>
    cases hoffence
    exact hdemand rfl hfact
  | disposedTwice =>
    cases hoffence
    rcases DisposedTwice.before_eq site i s with ⟨hnone, -⟩ | ⟨resource, label, hsome, hbefore⟩
    · simp [hnone] at htarget
    · obtain rfl := Option.some.inj (hsome.symm.trans htarget)
      rw [beforeBy, hbefore]
      exact DisposedTwice.exists_defect_mem_dispose site label (hdisposed hfact) hfact
  | emptyCollection =>
    cases hoffence
    rcases EmptyCollection.before_eq site hcount s with
      ⟨hnone, -⟩ | ⟨collection, what, hsome, hbefore⟩
    · simp [hnone] at htarget
    · obtain rfl := Option.some.inj (hsome.symm.trans htarget)
      rw [beforeBy, hbefore]
      exact EmptyCollection.exists_defect_mem_access site what hfact
  | lockRelease | constantCondition | journal => cases hoffence

theorem exists_stackEffect_of_target? {symbols : SymbolTable}
    (h : rule.target? symbols i s = some v) : ∃ effect, i.stackEffect = some effect := by
  cases heffect : i.stackEffect with
  | some effect => exact ⟨effect, rfl⟩
  | none =>
    obtain ⟨kind, rfl⟩ := Instruction.stackEffect_eq_none_iff.1 heffect
    simp [target?, Instruction.receiver?] at h

end Rule

end

end Pathwise
