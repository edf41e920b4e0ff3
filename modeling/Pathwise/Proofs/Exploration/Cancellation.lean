import Pathwise.Proofs.Exploration.Truncation
import Pathwise.Proofs.Exploration.Worklist

/-!
When a walk is cancelled. A watchdog is asked before every step whose number is a multiple of its
interval, as long as a node waits and the budget is not used up. One that lets `k` questions pass
has therefore heard them all when `k` intervals have gone by, and not before. The walk that it
watches is cancelled right there, unless it would have ended by then without being asked to stop;
in that case the watchdog makes no difference.

The proof follows the two walks side by side. They do the same, apart from the questions, until the
one is stopped (`run_patient`). How far the other one goes on is told by its moments.
-/

namespace Pathwise

theorem Watchdog.interval_pos (w : Watchdog) : 0 < w.interval :=
  Nat.lt_of_lt_of_le Nat.zero_lt_one (Nat.le_max_right _ _)

namespace Exploration

variable {p : Plan} {w v : Watchdog} {e : Exploration} {m : ExplodedNode}

/-! ### Questions are no part of the work -/

theorem reach_asked (limit : Nat) (e : Exploration) (asked : Nat) (n : ExplodedNode) :
    { e with asked }.reach limit n = { e.reach limit n with asked } := by
  unfold reach
  split
  · rfl
  · dsimp only
    split
    · rfl
    · rfl

theorem foldl_reach_asked (limit : Nat) (next : List ExplodedNode) (e : Exploration) (asked : Nat) :
    next.foldl (reach limit) { e with asked } = { next.foldl (reach limit) e with asked } := by
  induction next generalizing e with
  | nil => rfl
  | cons n rest ih => rw [List.foldl_cons, List.foldl_cons, reach_asked, ih]

/-- However many questions were asked, a node is processed alike. -/
theorem advance_asked (p : Plan) (e : Exploration) (asked : Nat) (m : ExplodedNode) :
    { e with asked }.advance p m = ({ (e.advance p m).1 with asked }, (e.advance p m).2) := by
  cases h : (p.process m e.ids).result with
  | error fault =>
    rw [advance_of_error h, advance_of_error (e := { e with asked }) h]
    rfl
  | ok r =>
    rw [advance_of_ok h, advance_of_ok (e := { e with asked }) h]
    exact Prod.ext (foldl_reach_asked _ _ { e.noted p m with ids := r.2 } asked) rfl

theorem steps_advance (p : Plan) (e : Exploration) (m : ExplodedNode) :
    (e.advance p m).1.steps = e.steps + 1 := by
  obtain ⟨added, ids, hadvance⟩ := exists_advance_eq p e m
  rw [hadvance]
  rfl

theorem le_steps_run (p : Plan) (w : Watchdog) (budget : Nat) (e : Exploration) :
    e.steps ≤ (run p w budget e).1.steps := by
  have hends := ends_run p w budget e
  generalize run p w budget e = r at hends ⊢
  cases hends with
  | complete hruns | exhausted hruns | cancelled hruns =>
    dsimp only
    rw [hruns.steps]
    omega
  | fault hruns _ _ _ _ hsteps =>
    dsimp only
    rw [hsteps, hruns.steps]
    omega

/-- If a node waits, the budget is not used up and the watchdog does not ask to stop, another step
is taken. -/
theorem lt_steps_run (hhead : e.nodes[e.steps]? = some m) (hgo : (e.poll w).1 = false)
    {budget : Nat} (hbudget : 0 < budget) : e.steps < (run p w budget e).1.steps := by
  obtain ⟨budget, rfl⟩ := Nat.exists_eq_succ_of_ne_zero hbudget.ne'
  obtain ⟨asked, hasked⟩ := poll_eq w e
  have hsteps := steps_advance p { e with asked } m
  rw [run_of_go hhead hgo, hasked]
  split
  · next e' fault heq =>
    rw [heq] at hsteps
    exact hsteps.ge
  · next e' heq =>
    rw [heq] at hsteps
    exact hsteps.ge.trans (le_steps_run p w budget e')

/-! ### When questions are asked -/

/-- A question was asked before every step so far whose number is a multiple of the interval. -/
structure OnTime (interval : Nat) (e : Exploration) : Prop where
  enough : e.steps ≤ e.asked * interval
  few : e.asked * interval < e.steps + interval

/-- When it is time for a question, one was asked for each interval that has gone by. -/
theorem OnTime.asked_mul {interval : Nat} (h : e.OnTime interval)
    (htime : e.steps % interval = 0) : e.asked * interval = e.steps := by
  obtain ⟨gone, hgone⟩ := Nat.dvd_of_mod_eq_zero htime
  have hfew : e.asked * interval < (gone + 1) * interval := by
    rw [Nat.succ_mul, Nat.mul_comm gone, ← hgone]
    exact h.few
  have hle : e.asked ≤ gone := Nat.le_of_lt_succ (Nat.lt_of_mul_lt_mul_right hfew)
  refine Nat.le_antisymm ?_ h.enough
  rw [hgone, Nat.mul_comm interval]
  exact Nat.mul_le_mul_right interval hle

/-- A round asks the question that is due, so the next round is on time as well. -/
theorem OnTime.advance (h : e.OnTime w.interval) (p : Plan) (m : ExplodedNode) :
    ((e.poll w).2.advance p m).1.OnTime w.interval := by
  have hpos := w.interval_pos
  have henough := h.enough
  have hfew := h.few
  have hround : e.steps + 1 ≤ (e.poll w).2.asked * w.interval ∧
      (e.poll w).2.asked * w.interval < e.steps + 1 + w.interval := by
    unfold poll
    by_cases htime : e.steps % w.interval = 0
    · have hasked := h.asked_mul htime
      rw [if_pos htime, Nat.succ_mul]
      omega
    · rw [if_neg htime]
      have hne : e.steps ≠ e.asked * w.interval := fun heq =>
        htime (heq ▸ Nat.mul_mod_left _ _)
      dsimp only
      omega
  obtain ⟨asked, hasked⟩ := poll_eq w e
  obtain ⟨added, ids, hadvance⟩ := exists_advance_eq p (e.poll w).2 m
  rw [hadvance]
  rw [hasked] at hround ⊢
  exact ⟨hround.1, hround.2⟩

/-- A watchdog that lets a number of questions pass asks to stop when as many intervals have gone
by. -/
theorem poll_patient {k n : Nat} (h : e.OnTime (max n 1)) (hle : e.steps ≤ k * max n 1) :
    (e.poll (.patient k n)).1 = true ↔ e.steps = k * max n 1 := by
  have hpos : 0 < max n 1 := (Watchdog.patient k n).interval_pos
  unfold poll
  by_cases htime : e.steps % max n 1 = 0
  · have hasked := h.asked_mul htime
    have hstops : (Watchdog.patient k n).stops e.asked = true ↔ k ≤ e.asked := decide_eq_true_iff
    rw [if_pos (show e.steps % (Watchdog.patient k n).interval = 0 from htime)]
    rw [hstops, ← hasked, Nat.mul_left_inj hpos.ne']
    rw [← hasked] at hle
    have hasked_le := Nat.le_of_mul_le_mul_right hle hpos
    omega
  · rw [if_neg (show ¬e.steps % (Watchdog.patient k n).interval = 0 from htime)]
    refine ⟨nofun, fun heq => absurd ?_ htime⟩
    rw [heq]
    exact Nat.mul_mod_left _ _

theorem poll_of_never (hv : ∀ i, v.stops i = false) (e : Exploration) : (e.poll v).1 = false := by
  unfold poll
  split
  · exact hv _
  · rfl

/-! ### Two explorations side by side -/

/-- The second exploration goes beyond a number of steps, and the first is cancelled there; or the
second ends by then, and the first has ended just like it. -/
inductive CutAt (limit : Nat) (r r' : Exploration × Except LocatedFault Completion) : Prop where
  | cancelled (beyond : limit < r'.1.steps) (result : r.2 = .ok .cancelled)
      (steps : r.1.steps = limit)
  | unaffected (within : r'.1.steps ≤ limit) (result : r'.2 ≠ .ok .cancelled) (asked : Nat)
      (same : r = ({ r'.1 with asked }, r'.2))

/-- The patient watchdog and one that never stops anything. The induction keeps that the questions
are on time and that the steps do not go beyond the last question that is let pass. -/
theorem run_patient (p : Plan) (hv : ∀ i, v.stops i = false) {k n : Nat} (budget : Nat)
    (h : e.OnTime (max n 1)) (hle : e.steps ≤ k * max n 1) (asked : Nat) :
    CutAt (k * max n 1) (run p (.patient k n) budget e) (run p v budget { e with asked }) := by
  induction budget generalizing e asked with
  | zero =>
    cases hhead : e.nodes[e.steps]? with
    | none =>
      rw [run_of_done hhead, run_of_done (e := { e with asked }) hhead]
      exact .unaffected hle nofun e.asked rfl
    | some m =>
      rw [run_of_spent hhead, run_of_spent (e := { e with asked }) hhead]
      exact .unaffected hle nofun e.asked rfl
  | succ budget ih =>
    cases hhead : e.nodes[e.steps]? with
    | none =>
      rw [run_of_done hhead, run_of_done (e := { e with asked }) hhead]
      exact .unaffected hle nofun e.asked rfl
    | some m =>
      have hfree := poll_of_never hv { e with asked }
      cases hgo : (e.poll (.patient k n)).1 with
      | true =>
        -- the question that is not let pass; the other exploration processes the node that waits
        have hsteps : e.steps = k * max n 1 := (poll_patient h hle).1 hgo
        have hbeyond := lt_steps_run (p := p) (e := { e with asked }) hhead hfree budget.succ_pos
        obtain ⟨asked', hasked⟩ := poll_eq (.patient k n) e
        refine .cancelled (hsteps ▸ hbeyond) (by rw [run_of_stop hhead hgo]) ?_
        rw [run_of_stop hhead hgo, hasked]
        exact hsteps
      | false =>
        have hne : e.steps ≠ k * max n 1 := fun heq => by
          rw [(poll_patient h hle).2 heq] at hgo
          cases hgo
        have htime := h.advance (w := .patient k n) p m
        have hsteps := steps_advance p (e.poll (.patient k n)).2 m
        -- both process the node, and differ in how many questions were asked before it
        obtain ⟨asked₁, hasked₁⟩ := poll_eq (.patient k n) e
        obtain ⟨asked₂, hasked₂⟩ := poll_eq v { e with asked }
        have hadvance : ({ e with asked }.poll v).2.advance p m =
            ({ ((e.poll (.patient k n)).2.advance p m).1 with asked := asked₂ },
              ((e.poll (.patient k n)).2.advance p m).2) := by
          rw [hasked₁, hasked₂]
          exact advance_asked p { e with asked := asked₁ } asked₂ m
        rw [run_of_go hhead hgo, run_of_go (e := { e with asked }) hhead hfree, hadvance]
        have hle' : ((e.poll (.patient k n)).2.advance p m).1.steps ≤ k * max n 1 := by
          rw [hsteps, hasked₁]
          exact Nat.lt_of_le_of_ne hle hne
        cases hround : (e.poll (.patient k n)).2.advance p m with
        | mk e' result =>
          rw [hround] at htime hle'
          cases result with
          | error fault => exact .unaffected hle' nofun e'.asked rfl
          | ok => exact ih htime hle' asked₂

end Exploration

/-! ### Moments -/

namespace Walk

variable {p : Plan} {w v : Watchdog} {ids : Supply} {done line next : List ExplodedNode}
  {e : Exploration}

/-- From each of its moments on, a walk goes on to its end. -/
theorem Moment.resumes {pending : Option (List ExplodedNode)}
    (h : Moment p w ids done line pending e) (hpending : pending = some next)
    (hbegun : done ++ line ++ next ≠ []) :
    ∃ e₀, (Walk.new p w ids).start = .ok e₀ ∧
      e₀.run p w p.config.maxSteps =
        (next.foldl (Exploration.reach p.config.maxVisits) e).run p w
          (p.config.maxSteps - done.length) := by
  induction h generalizing next with
  | new =>
    -- the method is not entered yet, and may not be
    obtain rfl := Option.some.inj hpending
    exact absurd rfl hbegun
  | entry hentry =>
    obtain rfl := Option.some.inj hpending
    refine ⟨_, ?_, rfl⟩
    rw [start_new, hentry]
    rfl
  | refuse _ _ ih | known _ _ _ _ ih | join _ _ _ ih =>
    obtain rfl := Option.some.inj hpending
    exact ih rfl (by simp)
  | @take done line next' m e ids' h hbudget hgo hprocess ih =>
    obtain rfl := Option.some.inj hpending
    obtain ⟨e₀, hstart, hrun⟩ := ih rfl (by simp)
    obtain ⟨asked, hasked⟩ := Exploration.poll_eq w e
    have hids : (e.poll w).2.ids = e.ids := by rw [hasked]
    have hleft : p.config.maxSteps - done.length =
        p.config.maxSteps - (done ++ [m]).length + 1 := by
      rw [List.length_append, List.length_singleton]
      omega
    refine ⟨e₀, hstart, ?_⟩
    rw [hrun, hleft, List.foldl_nil, Exploration.run_of_go h.queues.head hgo,
      Exploration.advance_of_ok (hids.symm ▸ hprocess)]
  | fail => cases hpending

/-- The walk processes a number of nodes without a fault, and once it has reached what they lead to
a node waits in line. -/
def WaitsAfter (p : Plan) (w : Watchdog) (ids : Supply) (count : Nat) : Prop :=
  ∃ done line e, Moment p w ids done line (some []) e ∧ done.length = count ∧ line ≠ []

/-- Before each node that was processed there was a moment at which it waited in line. -/
theorem Moment.waitsAfter {pending : Option (List ExplodedNode)}
    (h : Moment p w ids done line pending e) {count : Nat} (hcount : count < done.length) :
    count < p.config.maxSteps ∧ WaitsAfter p w ids count := by
  induction h with
  | new | entry => exact absurd hcount (Nat.not_lt_zero count)
  | refuse _ _ ih | known _ _ _ _ ih | join _ _ _ ih => exact ih hcount
  | take h hbudget _ _ ih | fail h hbudget _ _ ih =>
    rw [List.length_append, List.length_singleton] at hcount
    rcases Nat.lt_succ_iff_lt_or_eq.1 hcount with hlt | rfl
    · exact ih hlt
    · exact ⟨hbudget, _, _, _, h, rfl, List.cons_ne_nil _ _⟩

/-- A walk that is never asked to stop takes another step exactly if its budget is not used up and
a node waits. -/
theorem lt_steps_iff (p : Plan) (ids : Supply) (hv : ∀ i, v.stops i = false) (count : Nat) :
    count < (new p v ids).run.1.exploration.steps ↔
      count < p.config.maxSteps ∧ WaitsAfter p v ids count := by
  constructor
  · intro hlt
    obtain ⟨done, line, pending, e, hmoment, -, hsteps, -⟩ := exists_moment p v ids
    rw [hsteps, hmoment.queues.steps] at hlt
    exact hmoment.waitsAfter hlt
  · rintro ⟨hbudget, done, line, e, hmoment, rfl, hline⟩
    obtain ⟨m, rest, rfl⟩ := List.exists_cons_of_ne_nil hline
    obtain ⟨e₀, hstart, hrun⟩ := hmoment.resumes rfl (by simp)
    rw [(run_of_start hstart).2, hrun, ← hmoment.queues.steps]
    refine Exploration.lt_steps_run hmoment.queues.head (Exploration.poll_of_never hv e) ?_
    rw [hmoment.queues.steps]
    omega

theorem closingLedger_asked (p : Plan) (r : Exploration × Except LocatedFault Completion)
    (asked : Nat) : closingLedger p ({ r.1 with asked }, r.2) = closingLedger p r := by
  obtain ⟨e, result⟩ := r
  cases result with
  | error fault => rfl
  | ok completion => rfl

/-- What holds of the explorations that two walks make holds of the walks. -/
theorem cutAt_run (p : Plan) (ids : Supply) (hv : ∀ i, v.stops i = false) (k n : Nat) :
    let walk := (new p (.patient k n) ids).run
    let free := (new p v ids).run
    Exploration.CutAt (k * max n 1) (walk.1.exploration, walk.2) (free.1.exploration, free.2) := by
  intro walk free
  have hfree : (new p v ids).start = (new p (.patient k n) ids).start := by
    rw [start_new, start_new]
  cases hstart : (new p (.patient k n) ids).start with
  | error fault =>
    rw [hstart] at hfree
    rw [(run_of_start_error hstart).1, (run_of_start_error hstart).2,
      (run_of_start_error hfree).1, (run_of_start_error hfree).2]
    exact .unaffected (Nat.zero_le _) nofun 0 rfl
  | ok e =>
    rw [hstart] at hfree
    obtain ⟨nodes, ids', rfl⟩ := eq_of_start hstart
    have htime : Exploration.OnTime (max n 1) ⟨nodes, 0, .empty, ids', 0⟩ := by
      constructor
      · exact Nat.zero_le _
      · rw [Nat.zero_mul, Nat.zero_add]
        exact (Watchdog.patient k n).interval_pos
    rw [(run_of_start hstart).1, (run_of_start hstart).2, (run_of_start hfree).1,
      (run_of_start hfree).2]
    cases Exploration.run_patient p hv (k := k) p.config.maxSteps htime (Nat.zero_le _) 0 with
    | cancelled hbeyond hresult hsteps => exact .cancelled hbeyond hresult hsteps
    | unaffected hwithin hresult asked hsame =>
      refine .unaffected hwithin hresult asked ?_
      rw [hsame, closingLedger_asked]

/-- A watchdog that lets `k` questions pass, with `n` steps between two of them (no step counts as
one), cancels the walk exactly if there is budget left after `k * n` steps and the walk that is
never asked to stop has a node waiting there, which is if that walk takes more steps. The walk is
then cancelled after just these steps. Otherwise it ends as if it were never asked to stop. -/
theorem cancelled_at_poll (g : Graph) (config : Config) (rules : List Rule) (ids : Supply)
    (k n : Nat) {v : Watchdog} (hv : ∀ i, v.stops i = false) :
    let p := Plan.of g config rules
    let walk := (new p (.patient k n) ids).run
    let free := (new p v ids).run
    let polled := k * max n 1
    (walk.2 = .ok .cancelled ↔ polled < config.maxSteps ∧ WaitsAfter p v ids polled) ∧
    (walk.2 = .ok .cancelled ↔ polled < free.1.exploration.steps) ∧
    (walk.2 = .ok .cancelled → walk.1.exploration.steps = polled) ∧
    (walk.2 ≠ .ok .cancelled →
      walk.2 = free.2 ∧ walk.1.exploration.steps = free.1.exploration.steps ∧
      walk.1.findings = free.1.findings) := by
  intro p walk free polled
  have hwaits : polled < free.1.exploration.steps ↔
      polled < config.maxSteps ∧ WaitsAfter p v ids polled := lt_steps_iff p ids hv polled
  have hcut : Exploration.CutAt polled (walk.1.exploration, walk.2)
      (free.1.exploration, free.2) := cutAt_run p ids hv k n
  cases hcut with
  | cancelled hbeyond hresult hsteps =>
    exact ⟨iff_of_true hresult (hwaits.1 hbeyond), iff_of_true hresult hbeyond, fun _ => hsteps,
      fun hne => absurd hresult hne⟩
  | unaffected hwithin hresult asked hsame =>
    obtain ⟨hexploration, hend⟩ := Prod.mk.inj hsame
    have hnot : ¬polled < free.1.exploration.steps := Nat.not_lt.2 hwithin
    have hne : walk.2 ≠ .ok .cancelled := fun h => hresult (hend ▸ h)
    refine ⟨iff_of_false hne (mt hwaits.2 hnot), iff_of_false hne hnot, fun h => absurd h hne,
      fun _ => ⟨hend, ?_, ?_⟩⟩
    · rw [hexploration]
    · rw [findings, findings, hexploration]

/-- The last of the eight nodes of this walk uses null. With a question before every step, a walk
that lets seven pass is cancelled before it gets there. A question that would come after the last
node is not asked. -/
theorem cancelled_at_poll_nullInLoop :
    let p := Plan.of nullInLoop .default [.nullDereference]
    let walk (k n : Nat) := (new p (.patient k n) .odd).run
    let free := (new p .lazy .odd).run
    (∀ i, Watchdog.lazy.stops i = false) ∧
    (walk 7 0).2 = .ok .cancelled ∧ (walk 7 0).1.exploration.steps = 7 ∧
    WaitsAfter p .lazy .odd 7 ∧ (walk 7 0).1.findings.length = 0 ∧
    (walk 4 2).2 = free.2 ∧ (walk 4 2).1.findings = free.1.findings ∧
    free.2 = .ok .complete ∧ free.1.findings.length = 1 := by
  intro p walk free
  have hlazy : ∀ i, Watchdog.lazy.stops i = false := fun _ => rfl
  obtain ⟨hiff, -, hsteps, -⟩ :=
    cancelled_at_poll nullInLoop .default [.nullDereference] .odd 7 0 hlazy
  obtain ⟨-, -, -, hsame⟩ :=
    cancelled_at_poll nullInLoop .default [.nullDereference] .odd 4 2 hlazy
  have hcancelled : (walk 7 0).2 = .ok .cancelled := by decide +kernel
  have hnot : (walk 4 2).2 ≠ .ok .cancelled := by decide +kernel
  obtain ⟨hend, -, hfindings⟩ := hsame hnot
  refine ⟨hlazy, hcancelled, hsteps hcancelled, (hiff.1 hcancelled).2, ?_, hend, hfindings, ?_, ?_⟩
  · decide +kernel
  · decide +kernel
  · decide +kernel

end Walk

end Pathwise
