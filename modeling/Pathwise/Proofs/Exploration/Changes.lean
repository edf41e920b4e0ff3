import Pathwise.Proofs.Exploration.Step
import Pathwise.Proofs.Transfer.Changes

/-!
What a terminator may do to a state. However a state gets from the end of a block to the start of
another, it changes in a few ways, one after the other: the stack changes, facts are recorded,
variables of a pattern are bound, symbols are unbound, and garbage is collected. That a lock is held
is not among the facts that are recorded.

A property that outlives each of these outlives the terminator. `Plan.processTerminator_keeps` says
so for all terminators at once, and whatever a terminator leaves alone is read off it.
-/

namespace Pathwise

/-- What holds of the outcome for every item holds of all outcomes. -/
theorem Meets.forall_collect {α β : Type} {reason : Fault → Prop}
    {f : α → Supply → Except Fault (β × Supply)} {Q : β → Prop} {xs : List α}
    (h : ∀ x ∈ xs, ∀ ids, Meets reason (fun r => Q r.1) (f x ids)) (ids : Supply) :
    Meets reason (fun r => ∀ y ∈ r.1, Q y) (Supply.collect f xs ids) := by
  refine (Meets.collect (R := fun _ y => Q y) h ids).mono (fun _ h => h) fun r hr y hy => ?_
  obtain ⟨-, -, hy⟩ := exists_of_forall₂ hr.flip hy
  exact hy

/-- No branch tests whether a lock is held. -/
theorem BranchKind.guard_ne_held {kind : BranchKind} {onTrue onFalse : BlockId} :
    ∀ way ∈ kind.ways onTrue onFalse, way.guard ≠ .holds .held := by
  cases kind with
  | caseLabel pattern => cases pattern <;> simp [ways, Pattern.ways, Way.fork]
  | _ => simp [ways, Way.fork]

/-- The property outlives each of the ways in which a terminator may change a state. -/
structure Plan.Outlives (p : Plan) (P : State → Prop) : Prop where
  restack : ∀ {s : State} (stack : List Value), P s → P { s with stack }
  record : ∀ {s t : State} {v : Value} {c : Constraint}, c ≠ .held → s.record? v c = some t →
    P s → P t
  assign : ∀ {s : State} {id : SymbolId} {symbol : Symbol} (v : Value),
    p.graph.symbols.get? id = some symbol → P s → P (s.assign id v)
  unbindWhere : ∀ {s : State} (test : SymbolId → Value → Bool), P s → P (s.unbindWhere test)
  collectGarbage : ∀ {s : State}, P s → P s.collectGarbage

namespace Plan.Outlives

variable {p : Plan} {P : State → Prop} {s t : State} {v : Value}

theorem pop (hP : p.Outlives P) (hs : P s) (hpop : s.pop = .ok (t, v)) : P t := by
  rw [State.eq_of_pop hpop]
  exact hP.restack _ hs

theorem enter (hP : p.Outlives P) (hs : P s) (source target : BlockId) :
    P (p.enter source target s).state := by
  unfold Plan.enter
  dsimp only
  split
  · exact hP.collectGarbage (hP.unbindWhere _ hs)
  · exact hs

/-- The rule that looks at scopes records facts, but none about locks. -/
theorem disposedTwice (hP : p.Outlives P) : Rule.disposedTwice.Outlives P where
  record hheld ht hs := hP.record (fun hc => absurd (hheld hc) (by simp)) ht hs
  forget _ hd := by cases hd

/-! ### Branches -/

theorem admitted (hP : p.Outlives P) (hs : P s) {guard : Guard} (hguard : guard ≠ .holds .held)
    (ht : t ∈ guard.admitted p.solver v s) : P t := by
  cases guard with
  | nothing =>
    obtain rfl := List.mem_singleton.1 ht
    exact hs
  | holds c =>
    have hc : c ≠ .held := fun hc => hguard (by rw [hc])
    exact Solver.keeps_of_mem_assume (fun hheld => hP.record fun hd => hc (hheld hd)) hs ht
  | notKnown c =>
    simp only [Guard.admitted] at ht
    split at ht
    · exact absurd ht List.not_mem_nil
    · obtain rfl := List.mem_singleton.1 ht
      exact hs

theorem leave (hP : p.Outlives P) (hs : P s) (v : Value) (residue : Residue) :
    P (residue.leave v s) := by
  cases residue with
  | nothing => exact hs
  | tested | constant => exact hP.restack _ hs

theorem follow (hP : p.Outlives P) (hs : P s) {way : Way} (hway : way.guard ≠ .holds .held)
    (v : Value) (ids : Supply) :
    Meets (fun _ => True) (fun r => ∀ t ∈ r.1, P t) (p.follow s v way ids) := by
  refine Meets.forall_collect (fun t ht ids => ?_) ids
  have ht : P t := hP.admitted hs hway ht
  refine (Transfer.bindDesignation_keeps (fun v _ hid => hP.assign v hid) ht v ids).bind ?_
  exact fun r hr => hP.leave hr v way.residue

theorem depart (hP : p.Outlives P) (hs : P s) {ways : List Way}
    (hways : ∀ way ∈ ways, way.guard ≠ .holds .held) (v : Value) (ids : Supply) :
    Meets (fun _ => True) (fun r => ∀ left ∈ r.1, ∀ t ∈ left.2, P t) (p.depart s v ways ids) := by
  refine Meets.forall_collect (fun way hway ids => ?_) ids
  exact (hP.follow hs (hways way hway) v ids).bind fun _ hr => hr

theorem processBranch (hP : p.Outlives P) (hs : P s) (point : ProgramPoint) (block : Block)
    (kind : BranchKind) (onTrue onFalse : BlockId) (ids : Supply) :
    Meets (fun _ => True) (fun r => ∀ n ∈ r.1, P n.state)
      (p.processBranch point block kind onTrue onFalse s ids).result := by
  rw [result_processBranch]
  cases hpop : s.pop with
  | error fault => exact trivial
  | ok r =>
    refine (hP.depart (hP.pop hs hpop) BranchKind.guard_ne_held r.2 ids).bind ?_
    intro r hleft n hn
    obtain ⟨left, hmem, hn⟩ := List.mem_flatMap.1 hn
    obtain ⟨t, ht, rfl⟩ := List.mem_map.1 hn
    exact hP.enter (hleft left hmem t ht) _ _

/-! ### Jumps -/

theorem processJump (hP : p.Outlives P) (hs : P s) (point : ProgramPoint) (block : Block)
    (target : BlockId) (kind : JumpKind) (ids : Supply) :
    Meets (fun _ => True) (fun r => ∀ n ∈ r.1, P n.state)
      (p.processJump point block target kind s ids).result := by
  have hleave : ∀ {t}, P t → ∀ n ∈ [p.enter point.block target t], P n.state := by
    intro t ht n hn
    obtain rfl := List.mem_singleton.1 hn
    exact hP.enter ht _ _
  unfold Plan.processJump
  cases kind with
  | plain => exact hleave hs
  | returns hasValue | throws hasValue =>
    cases hasValue with
    | false => exact hleave hs
    | true =>
      cases hpop : s.pop with
      | error fault => exact trivial
      | ok r => exact hleave (hP.pop hs hpop)
  | usingScope hasResource =>
    cases hasResource with
    | false => exact hleave hs
    | true =>
      cases hpop : s.pop with
      | error fault => exact trivial
      | ok r =>
        dsimp only
        split
        · exact fun n hn => absurd hn List.not_mem_nil
        · next u hu =>
          have hu : P u := Rule.usingScope_keeps hP.disposedTwice (hP.pop hs hpop) _ r.2 u hu
          exact hleave (hP.unbindWhere _ hu)
  | lockScope =>
    cases hpop : s.pop with
    | error fault => exact trivial
    | ok r => exact hleave (hP.unbindWhere _ (hP.pop hs hpop))

end Plan.Outlives

/-- What outlives every change that a terminator may make holds in the nodes that it leads to. -/
theorem Plan.processTerminator_keeps {p : Plan} {P : State → Prop} (hP : p.Outlives P) {s : State}
    (hs : P s) (point : ProgramPoint) (block : Block) (ids : Supply) :
    Meets (fun _ => True) (fun r => ∀ n ∈ r.1, P n.state)
      (p.processTerminator point block s ids).result := by
  unfold processTerminator
  cases block.terminator with
  | jump target kind => exact hP.processJump hs point block target kind ids
  | branch kind onTrue onFalse => exact hP.processBranch hs point block kind onTrue onFalse ids
  | exit => exact fun n hn => absurd hn List.not_mem_nil
  | fork targets =>
    intro n hn
    obtain ⟨target, -, rfl⟩ := List.mem_map.1 hn
    exact hP.enter hs _ _

end Pathwise
