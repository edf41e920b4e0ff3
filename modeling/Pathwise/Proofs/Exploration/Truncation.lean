import Pathwise.Program.Draft
import Pathwise.Proofs.Exploration.Run
import Pathwise.Proofs.Rule.Ledger

/-!
Limits only cut walks short. A walk with a smaller budget of steps, or with a watchdog that asks to
stop earlier, does what the other walk does until it is stopped: it processes the same nodes in the
same order and publishes the same findings. What it is told at its end adds nothing to what it has
published, as the rules then say nothing about conditions.
-/

namespace Pathwise

/-- The two watchdogs are asked at the same times, and by the time the second has asked to stop, the
first has as well. -/
structure Watchdog.Precedes (w w' : Watchdog) : Prop where
  interval : w.interval = w'.interval
  stops : ∀ n, w'.stops n = true → ∃ k ≤ n, w.stops k = true

/-- If something was left unexplored, nothing is published at the end. -/
theorem Ledger.entries_finish {completion : Completion} (h : completion ≠ .complete)
    (rules : List Rule) (entry : ProgramPoint) (l : Ledger) :
    (l.finish rules entry completion).log.entries = l.log.entries := by
  induction rules generalizing l with
  | nil => rfl
  | cons rule rest ih =>
    have hrule : (l.endBy entry completion rule).log = l.log := by
      cases rule with
      | constantCondition => rw [endBy, if_neg h]
      | _ => rfl
    exact (ih _).trans (congrArg FindingLog.entries hrule)

namespace Exploration

variable {p : Plan} {w w' : Watchdog} {e e' e'' : Exploration} {m : ExplodedNode}

/-- What was processed and published stands, and more may have come after it. -/
structure Continues (e e' : Exploration) : Prop where
  processed : e.processed <+: e'.processed
  entries : e.ledger.log.entries <+: e'.ledger.log.entries

theorem Continues.refl (e : Exploration) : e.Continues e :=
  ⟨List.prefix_refl _, List.prefix_refl _⟩

theorem Continues.trans (h : e.Continues e') (h' : e'.Continues e'') : e.Continues e'' :=
  ⟨h.processed.trans h'.processed, h.entries.trans h'.entries⟩

/-- Processing the first node in line adds it to the processed nodes. -/
theorem continues_advance (p : Plan) (hhead : e.nodes[e.steps]? = some m) :
    e.Continues (e.advance p m).1 := by
  obtain ⟨added, ids, hadvance⟩ := exists_advance_eq p e m
  have hnodes : (e.nodes ++ added).toList = e.nodes.toList ++ added := by simp
  have hlt : e.steps < e.nodes.toList.length :=
    (List.getElem?_eq_some_iff.1 (Array.getElem?_toList ▸ hhead)).1
  constructor
  · rw [hadvance]
    show e.nodes.toList.take e.steps <+: (e.nodes ++ added).toList.take (e.steps + 1)
    rw [hnodes, List.take_append_of_le_length hlt]
    exact List.take_prefix_take_left (Nat.le_succ _)
  · rw [ledger_advance, Ledger.entries_noteAll]
    exact List.prefix_append _ _

/-- An exploration goes on from where it is. -/
theorem continues_run (p : Plan) (w : Watchdog) (budget : Nat) (e : Exploration) :
    e.Continues (run p w budget e).1 := by
  induction budget generalizing e with
  | zero =>
    cases hhead : e.nodes[e.steps]? with
    | none =>
      rw [run_of_done hhead]
      exact .refl e
    | some m =>
      rw [run_of_spent hhead]
      exact .refl e
  | succ budget ih =>
    cases hhead : e.nodes[e.steps]? with
    | none =>
      rw [run_of_done hhead]
      exact .refl e
    | some m =>
      obtain ⟨asked, hasked⟩ := poll_eq w e
      have hpolled : e.Continues (e.poll w).2 := by
        rw [hasked]
        exact ⟨List.prefix_refl _, List.prefix_refl _⟩
      cases hgo : (e.poll w).1 with
      | true =>
        rw [run_of_stop hhead hgo]
        exact hpolled
      | false =>
        have hhead' : (e.poll w).2.nodes[(e.poll w).2.steps]? = some m := by
          rw [hasked]
          exact hhead
        have hadvance := hpolled.trans (continues_advance p hhead')
        rw [run_of_go hhead hgo]
        split
        · next e' fault heq =>
          rw [heq] at hadvance
          exact hadvance
        · next e' heq =>
          rw [heq] at hadvance
          exact hadvance.trans (ih e')

/-! ### Two explorations from the same place -/

/-- The first exploration was stopped before it was done, and the second continues it. -/
def CutShort (r r' : Exploration × Except LocatedFault Completion) : Prop :=
  (∃ completion ≠ .complete, r.2 = .ok completion) ∧ r.1.Continues r'.1

/-- As long as the first watchdog has let every question pass, the second one has too. -/
theorem poll_of_precedes (hw : w.Precedes w') (hpassed : ∀ k < e.asked, w.stops k = false)
    (hgo : (e.poll w).1 = false) :
    e.poll w' = e.poll w ∧ ∀ k < (e.poll w).2.asked, w.stops k = false := by
  unfold poll at hgo ⊢
  rw [← hw.interval]
  by_cases htime : e.steps % w.interval = 0
  · rw [if_pos htime] at hgo
    rw [if_pos htime, if_pos htime]
    have hpassed' : ∀ k ≤ e.asked, w.stops k = false := by
      intro k hk
      rcases Nat.lt_or_eq_of_le hk with hlt | rfl
      · exact hpassed k hlt
      · exact hgo
    have hgo' : w'.stops e.asked = false := by
      rw [Bool.eq_false_iff]
      intro hstop
      obtain ⟨k, hk, hstops⟩ := hw.stops _ hstop
      rw [hpassed' k hk] at hstops
      cases hstops
    exact ⟨by rw [hgo', hpassed' _ le_rfl], fun k hk => hpassed' k (Nat.le_of_lt_succ hk)⟩
  · rw [if_neg htime, if_neg htime]
    exact ⟨rfl, hpassed⟩

/-- The exploration that is stopped first does what the other one does, up to where it is stopped.
The induction keeps that the first watchdog has let all earlier questions pass. -/
theorem run_eq_or_cutShort (hw : w.Precedes w') {budget budget' : Nat} (hle : budget ≤ budget')
    (hpassed : ∀ k < e.asked, w.stops k = false) :
    run p w budget e = run p w' budget' e ∨
      CutShort (run p w budget e) (run p w' budget' e) := by
  induction budget generalizing budget' e with
  | zero =>
    cases hhead : e.nodes[e.steps]? with
    | none => exact .inl (by rw [run_of_done hhead, run_of_done hhead])
    | some m =>
      rw [run_of_spent hhead]
      exact .inr ⟨⟨.stepBudgetExceeded, nofun, rfl⟩, continues_run p w' budget' e⟩
  | succ budget ih =>
    obtain ⟨budget', rfl⟩ : ∃ b, budget' = b + 1 := ⟨budget' - 1, by omega⟩
    cases hhead : e.nodes[e.steps]? with
    | none => exact .inl (by rw [run_of_done hhead, run_of_done hhead])
    | some m =>
      have hcontinues := continues_run p w' (budget' + 1) e
      cases hgo : (e.poll w).1 with
      | true =>
        obtain ⟨asked, hasked⟩ := poll_eq w e
        rw [run_of_stop hhead hgo, hasked]
        exact .inr ⟨⟨.cancelled, nofun, rfl⟩, hcontinues.processed, hcontinues.entries⟩
      | false =>
        obtain ⟨hpoll, hpassed⟩ := poll_of_precedes hw hpassed hgo
        obtain ⟨added, ids, hadvance⟩ := exists_advance_eq p (e.poll w).2 m
        rw [run_of_go hhead hgo, run_of_go hhead (by rw [hpoll, hgo]), hpoll]
        split
        · exact .inl rfl
        · next e' heq =>
          obtain rfl : e' = _ := by simpa only [heq] using hadvance
          exact ih (Nat.le_of_succ_le_succ hle) hpassed

theorem steps_run_le (p : Plan) (w : Watchdog) (budget : Nat) (e : Exploration) :
    (run p w budget e).1.steps ≤ e.steps + budget := by
  have hends := ends_run p w budget e
  generalize run p w budget e = r at hends ⊢
  cases hends with
  | complete hruns hcount =>
    dsimp only
    rw [hruns.steps]
    omega
  | exhausted hruns => exact hruns.steps.le
  | cancelled hruns hcount =>
    dsimp only
    rw [hruns.steps]
    omega
  | fault hruns hcount _ _ _ hsteps =>
    dsimp only
    rw [hsteps, hruns.steps]
    omega

end Exploration

/-! ### Walks -/

/-- The plan with another budget of steps. -/
def Plan.withBudget (p : Plan) (steps : Nat) : Plan :=
  { p with config := { p.config with maxSteps := steps } }

/-- Rounds do not depend on the budget that the plan gives, only on what is left of it. -/
theorem Exploration.run_withBudget (p : Plan) (steps : Nat) (w : Watchdog) (budget : Nat)
    (e : Exploration) : run (p.withBudget steps) w budget e = run p w budget e := by
  have hadvance : ∀ e n, advance (p.withBudget steps) e n = advance p e n := fun _ _ => rfl
  induction budget generalizing e with
  | zero => rw [run, run]
  | succ budget ih =>
    rw [run, run]
    simp only [hadvance, ih]

namespace Walk

/-- Findings that are published at the end come after all others. -/
theorem findings_closingLedger (p : Plan) (r : Exploration × Except LocatedFault Completion) :
    r.1.ledger.findings <+: (closingLedger p r).findings := by
  obtain ⟨e, result⟩ := r
  cases result with
  | error fault => exact List.prefix_refl _
  | ok completion =>
    obtain ⟨new, hnew, -⟩ :=
      e.ledger.exists_extends_finish p.rules (.start p.graph.entry) completion
    rw [closingLedger, hnew.findings]
    exact List.prefix_append _ _

/-- A walk that was stopped publishes nothing at its end. -/
theorem findings_closingLedger_of_stopped (p : Plan)
    {r : Exploration × Except LocatedFault Completion} {completion : Completion}
    (hresult : r.2 = .ok completion) (hstopped : completion ≠ .complete) :
    (closingLedger p r).findings = r.1.ledger.findings := by
  obtain ⟨e, result⟩ := r
  cases hresult
  exact congrArg (List.map Prod.fst) (Ledger.entries_finish hstopped _ _ _)

/-- A walk that is stopped earlier processes the nodes that the other walk processes first, and its
findings are those that the other walk publishes first. It takes no more steps than its budget, and
unless it was stopped it is the same walk. -/
theorem stopped_earlier (g : Graph) (config : Config) (rules : List Rule) (ids : Supply)
    {m m' : Nat} (hm : m ≤ m') {w w' : Watchdog} (hw : w.Precedes w') :
    let walk (steps : Nat) (watchdog : Watchdog) : Walk × Except LocatedFault Completion :=
      (new (.of g { config with maxSteps := steps } rules) watchdog ids).run
    (walk m w).1.exploration.processed <+: (walk m' w').1.exploration.processed ∧
    (walk m w).1.findings <+: (walk m' w').1.findings ∧
    (walk m w).1.exploration.steps ≤ m ∧
    ((walk m w).2 = .ok .stepBudgetExceeded ∨ (walk m w).2 = .ok .cancelled ∨
      (walk m w).2 = (walk m' w').2 ∧
      (walk m w).1.exploration.processed = (walk m' w').1.exploration.processed ∧
      (walk m w).1.findings = (walk m' w').1.findings) := by
  intro walk
  let p : Plan := .of g config rules
  -- Where walks start depends neither on their budgets nor on their watchdogs.
  cases hstart : (new p w ids).start with
  | error fault =>
    have hwalk : ∀ steps watchdog, (walk steps watchdog).1.exploration = .empty ids ∧
        (walk steps watchdog).2 = .error ⟨.start g.entry, fault⟩ := by
      intro steps watchdog
      have hstart : (new (p.withBudget steps) watchdog ids).start = .error fault := by
        rw [start_new] at hstart ⊢
        exact hstart
      exact (run_of_start_error hstart).symm
    rw [findings, findings, (hwalk m w).1, (hwalk m w).2, (hwalk m' w').1, (hwalk m' w').2]
    exact ⟨List.prefix_refl _, List.prefix_refl _, Nat.zero_le m, .inr (.inr ⟨rfl, rfl, rfl⟩)⟩
  | ok e =>
    have hwalk : ∀ steps watchdog,
        (walk steps watchdog).2 = (e.run p watchdog steps).2 ∧
        (walk steps watchdog).1.exploration = { (e.run p watchdog steps).1 with
          ledger := closingLedger p (e.run p watchdog steps) } := by
      intro steps watchdog
      have hstart : (new (p.withBudget steps) watchdog ids).start = .ok e := by
        rw [start_new] at hstart ⊢
        exact hstart
      have hrun := run_of_start hstart
      rw [Exploration.run_withBudget] at hrun
      exact hrun
    obtain ⟨nodes, ids', rfl⟩ := eq_of_start hstart
    rw [findings, findings, (hwalk m w).1, (hwalk m w).2, (hwalk m' w').1, (hwalk m' w').2]
    have hsteps := Exploration.steps_run_le p w m ⟨nodes, 0, .empty, ids', 0⟩
    rw [Nat.zero_add] at hsteps
    rcases Exploration.run_eq_or_cutShort (p := p) (e := ⟨nodes, 0, .empty, ids', 0⟩) hw hm nofun
      with heq | ⟨⟨completion, hstopped, hresult⟩, hcontinues⟩
    · rw [← heq]
      exact ⟨List.prefix_refl _, List.prefix_refl _, hsteps, .inr (.inr ⟨rfl, rfl, rfl⟩)⟩
    · refine ⟨hcontinues.processed, ?_, hsteps, ?_⟩
      · rw [findings_closingLedger_of_stopped p hresult hstopped]
        exact (hcontinues.entries.map Prod.fst).trans (findings_closingLedger p _)
      · rw [hresult]
        cases completion with
        | complete => exact absurd rfl hstopped
        | stepBudgetExceeded => exact .inl rfl
        | cancelled => exact .inr (.inl rfl)

end Walk

/-- A method with a loop in which it uses a member of null. -/
def nullInLoop : Graph where
  method := "loop"
  blocks :=
    [⟨[⟨.literal .null, none⟩, ⟨.declaration ⟨0⟩ true, none⟩], .jump ⟨1⟩ .plain⟩,
     ⟨[⟨.self, none⟩], .branch .forEach ⟨2⟩ ⟨3⟩⟩,
     ⟨[⟨.read ⟨0⟩ false, none⟩, ⟨.methodGroup "M" .receiver, none⟩, ⟨.discard, none⟩],
       .jump ⟨1⟩ .plain⟩,
     Draft.exitBlock]
  entry := ⟨0⟩
  exit := ⟨3⟩
  parameters := []
  symbols := ⟨[⟨"x", .localVariable, ⟨"T", .reference, false, false⟩, false⟩]⟩

/-- A walk that is cancelled before the member is used has nothing to report. One that may take a
few steps more reports the use of null, and is complete. -/
theorem Walk.stopped_earlier_nullInLoop :
    let walk (steps : Nat) (watchdog : Watchdog) : Walk × Except LocatedFault Completion :=
      (new (.of nullInLoop { Config.default with maxSteps := steps } [.nullDereference]) watchdog
        .odd).run
    let short := walk 5 (.patient 2 2)
    let long := walk 8 (.patient 4 2)
    5 ≤ 8 ∧ (Watchdog.patient 2 2).Precedes (.patient 4 2) ∧
    short.2 = .ok .cancelled ∧ long.2 = .ok .complete ∧
    short.1.findings.length = 0 ∧ long.1.findings.length = 1 ∧
    short.1.exploration.processed <+: long.1.exploration.processed ∧
    short.1.findings <+: long.1.findings := by
  intro walk short long
  have hw : (Watchdog.patient 2 2).Precedes (.patient 4 2) := by
    refine ⟨rfl, fun n hn => ⟨n, le_rfl, ?_⟩⟩
    simp only [Watchdog.patient, decide_eq_true_eq] at hn ⊢
    omega
  have hm : 5 ≤ 8 := by decide
  obtain ⟨hprocessed, hfindings, -⟩ :=
    stopped_earlier nullInLoop .default [.nullDereference] .odd hm hw
  refine ⟨hm, hw, ?_, ?_, ?_, ?_, hprocessed, hfindings⟩ <;> decide +kernel

end Pathwise
