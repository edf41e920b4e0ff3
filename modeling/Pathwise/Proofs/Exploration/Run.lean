import Pathwise.Exploration.Walk
import Pathwise.Proofs.Exploration.Step
import Pathwise.Proofs.Program.Closed

/-!
Explorations as sequences of steps. A step takes the first node in line, processes it, and lets
those of the next nodes wait in line that are new and whose paths may still come by their points.
`Progress` is one such step and `Runs` is any number of them, and `Ends` lists how an exploration
can end after its last step. What every step keeps therefore holds wherever an exploration ends.
-/

namespace Pathwise

/-- The node, with the visit of its path to its point counted. -/
def ExplodedNode.marked (n : ExplodedNode) : ExplodedNode :=
  ⟨n.point, n.state.markVisited n.point⟩

theorem ExplodedNode.same_self (n : ExplodedNode) : n.same n := by
  simp [ExplodedNode.same, State.same]

/-! ### Reaching nodes -/

/-- Some of the nodes that come next join the nodes that were reached before: none whose path came
by its point too often, and otherwise all that are new. -/
structure Reaches (limit : Nat) (next old added : List ExplodedNode) : Prop where
  few : added.length ≤ next.length
  joined : ∀ n ∈ added, ∃ n₀ ∈ next, n₀.state.visitCount n₀.point < limit ∧ n = n₀.marked
  covered : ∀ n₀ ∈ next, n₀.state.visitCount n₀.point < limit →
    ∃ n ∈ old ++ added, n₀.marked.same n

namespace Exploration

variable {p : Plan} {w : Watchdog} {e e' e'' : Exploration}

theorem reach_cases (limit : Nat) (e : Exploration) (n : ExplodedNode) :
    ∃ added : List ExplodedNode, e.reach limit n = { e with nodes := e.nodes ++ added } ∧
      Reaches limit [n] e.nodes.toList added := by
  unfold reach
  split
  · next hlimit =>
    have hlimit : limit ≤ n.state.visitCount n.point := by
      simpa [State.atVisitLimit] using hlimit
    refine ⟨[], by simp, by simp, by simp, ?_⟩
    intro n₀ hn₀ hcount
    obtain rfl := List.mem_singleton.1 hn₀
    omega
  · next hlimit =>
    have hlimit : n.state.visitCount n.point < limit := by
      simpa [State.atVisitLimit] using hlimit
    dsimp only
    split
    · next hany =>
      refine ⟨[], by simp, by simp, by simp, ?_⟩
      intro n₀ hn₀ _
      obtain rfl := List.mem_singleton.1 hn₀
      rw [← Array.any_toList, List.any_eq_true] at hany
      obtain ⟨n, hn, hsame⟩ := hany
      exact ⟨n, List.mem_append_left _ hn, hsame⟩
    · refine ⟨[n.marked], by simp [ExplodedNode.marked], by simp, ?_, ?_⟩
      · intro n' hn'
        exact ⟨n, List.mem_singleton.2 rfl, hlimit, List.mem_singleton.1 hn'⟩
      · intro n₀ hn₀ _
        obtain rfl := List.mem_singleton.1 hn₀
        exact ⟨_, List.mem_append_right _ (List.mem_singleton.2 rfl), n₀.marked.same_self⟩

theorem foldl_reach_cases (limit : Nat) (next : List ExplodedNode) (e : Exploration) :
    ∃ added : List ExplodedNode, next.foldl (reach limit) e = { e with nodes := e.nodes ++ added } ∧
      Reaches limit next e.nodes.toList added := by
  induction next generalizing e with
  | nil => exact ⟨[], by simp, by simp, by simp, by simp⟩
  | cons n rest ih =>
    obtain ⟨first, hfirst, hn⟩ := reach_cases limit e n
    obtain ⟨later, hlater, hrest⟩ := ih (e.reach limit n)
    rw [hfirst] at hlater hrest
    refine ⟨first ++ later, ?_, ?_, ?_, ?_⟩
    · have hassoc : e.nodes ++ first ++ later = e.nodes ++ (first ++ later) := Array.ext' (by simp)
      rw [List.foldl_cons, hfirst, hlater]
      exact congrArg (fun nodes => { e with nodes }) hassoc
    · have hfew := hn.few
      have hfew' := hrest.few
      rw [List.length_append, List.length_cons]
      rw [List.length_singleton] at hfew
      omega
    · intro m hm
      rcases List.mem_append.1 hm with hm | hm
      · obtain ⟨n₀, hn₀, hjoined⟩ := hn.joined m hm
        obtain rfl := List.mem_singleton.1 hn₀
        exact ⟨n₀, List.mem_cons_self, hjoined⟩
      · obtain ⟨n₀, hn₀, hjoined⟩ := hrest.joined m hm
        exact ⟨n₀, List.mem_cons_of_mem _ hn₀, hjoined⟩
    · intro n₀ hn₀ hcount
      rw [← List.append_assoc]
      rcases List.mem_cons.1 hn₀ with rfl | hn₀
      · obtain ⟨m, hm, hsame⟩ := hn.covered n₀ (List.mem_singleton.2 rfl) hcount
        exact ⟨m, List.mem_append_left _ hm, hsame⟩
      · simpa using hrest.covered n₀ hn₀ hcount

/-! ### Steps -/

/-- A step: the first node in line is processed, and new nodes join the line. -/
structure Progress (p : Plan) (m : ExplodedNode) (next added : List ExplodedNode)
    (e e' : Exploration) : Prop where
  head : e.nodes[e.steps]? = some m
  process : (p.process m e.ids).result = .ok (next, e'.ids)
  steps : e'.steps = e.steps + 1
  nodes : e'.nodes.toList = e.nodes.toList ++ added
  reaches : Reaches p.config.maxVisits next e.nodes.toList added
  ledger : e'.ledger = e.ledger.noteAll (p.process m e.ids).observations

section

variable {m n : ExplodedNode} {next added : List ExplodedNode}

theorem mem_of_head (h : e.nodes[e.steps]? = some m) : m ∈ e.nodes.toList :=
  List.mem_of_getElem? (Array.getElem?_toList ▸ h)

theorem waiting_of_head (h : e.nodes[e.steps]? = some m) :
    e.waiting = m :: e.nodes.toList.drop (e.steps + 1) := by
  obtain ⟨hlt, rfl⟩ := List.getElem?_eq_some_iff.1 (Array.getElem?_toList ▸ h)
  rw [Exploration.waiting, List.drop_eq_getElem_cons hlt]

namespace Progress

theorem head_mem (h : Progress p m next added e e') : m ∈ e.nodes.toList := mem_of_head h.head

theorem steps_lt (h : Progress p m next added e e') : e.steps < e.nodes.toList.length :=
  (List.getElem?_eq_some_iff.1 (Array.getElem?_toList ▸ h.head)).1

theorem processed (h : Progress p m next added e e') : e'.processed = e.processed ++ [m] := by
  have hhead : e.nodes.toList[e.steps]? = some m := Array.getElem?_toList ▸ h.head
  rw [Exploration.processed, h.nodes, h.steps, List.take_append_of_le_length h.steps_lt,
    List.take_add_one, hhead]
  rfl

/-- The nodes that wait before and after a step. -/
theorem waiting (h : Progress p m next added e e') :
    ∃ rest, e.waiting = m :: rest ∧ e'.waiting = rest ++ added := by
  refine ⟨_, waiting_of_head h.head, ?_⟩
  rw [Exploration.waiting, h.steps, h.nodes, List.drop_append_of_le_length h.steps_lt]

/-- A node that joins the line comes right after the node that was processed. -/
theorem advances (h : Progress p m next added e e') (hn : n ∈ added) :
    ∃ n₀, p.graph.Advances m n₀ ∧ n₀.state.visitCount n₀.point < p.config.maxVisits ∧
      n = n₀.marked := by
  have hmeets := p.process_meets m e.ids
  rw [h.process] at hmeets
  obtain ⟨n₀, hn₀, hlimit, rfl⟩ := h.reaches.joined n hn
  exact ⟨n₀, hmeets.1 n₀ hn₀, hlimit, rfl⟩

theorem length_added_le (h : Progress p m next added e e') :
    added.length ≤ p.graph.width p.solver.maxForks := by
  have hmeets := p.process_meets m e.ids
  rw [h.process] at hmeets
  exact Nat.le_trans h.reaches.few hmeets.2

/-- What a step keeps from node to node holds for all nodes that were reached. -/
theorem forall_nodes {P : ExplodedNode → Prop} (h : Progress p m next added e e')
    (hstep : ∀ {m n}, P m → p.graph.Advances m n →
      n.state.visitCount n.point < p.config.maxVisits → P n.marked)
    (he : ∀ n ∈ e.nodes.toList, P n) : ∀ n ∈ e'.nodes.toList, P n := by
  intro n hn
  rw [h.nodes] at hn
  rcases List.mem_append.1 hn with hn | hn
  · exact he n hn
  · obtain ⟨n₀, hadvances, hlimit, rfl⟩ := h.advances hn
    exact hstep (he m h.head_mem) hadvances hlimit

end Progress

end

/-- Any number of steps. -/
inductive Runs (p : Plan) : Nat → Exploration → Exploration → Prop where
  | refl (e : Exploration) : Runs p 0 e e
  | step {m : ExplodedNode} {next added : List ExplodedNode} {count : Nat}
      {e e₁ e' : Exploration} (first : Progress p m next added e e₁) (rest : Runs p count e₁ e') :
      Runs p (count + 1) e e'

/-- What every step keeps, any number of steps keep. -/
theorem Runs.invariant {P : Exploration → Prop} {count : Nat} (h : Runs p count e e')
    (hstep : ∀ {m next added e e'}, Progress p m next added e e' → P e → P e') (he : P e) :
    P e' := by
  induction h with
  | refl => exact he
  | step first _ ih => exact ih (hstep first he)

theorem Runs.snoc {m : ExplodedNode} {next added : List ExplodedNode} {count : Nat}
    (h : Runs p count e e') (last : Progress p m next added e' e'') : Runs p (count + 1) e e'' := by
  induction h with
  | refl => exact .step last (.refl _)
  | step first _ ih => exact .step first (ih last)

theorem Runs.steps {count : Nat} (h : Runs p count e e') : e'.steps = e.steps + count := by
  induction h with
  | refl => rfl
  | step first _ ih =>
    rw [ih, first.steps]
    omega

theorem poll_eq (w : Watchdog) (e : Exploration) :
    ∃ asked, (e.poll w).2 = { e with asked } := by
  unfold poll
  split
  · exact ⟨_, rfl⟩
  · exact ⟨_, rfl⟩

theorem progress_of_advance {m : ExplodedNode} (hhead : e.nodes[e.steps]? = some m) {asked : Nat}
    (h : { e with asked }.advance p m = (e', .ok ())) :
    ∃ next added, Progress p m next added e e' := by
  unfold advance at h
  cases hresult : (p.process m e.ids).result with
  | error fault => simp [hresult] at h
  | ok r =>
    obtain ⟨next, ids⟩ := r
    simp only [hresult, Prod.mk.injEq, and_true] at h
    obtain ⟨added, hfold, hreaches⟩ := foldl_reach_cases p.config.maxVisits next
      { e with steps := e.steps + 1, ledger := e.ledger.noteAll (p.process m e.ids).observations,
               ids, asked }
    rw [hfold] at h
    subst h
    exact ⟨next, added, hhead, hresult, rfl, by simp, hreaches, rfl⟩

theorem fault_of_advance {m : ExplodedNode} {fault : Fault} {asked : Nat}
    (h : { e with asked }.advance p m = (e', .error fault)) :
    (p.process m e.ids).result = .error fault ∧ e'.nodes = e.nodes ∧ e'.steps = e.steps + 1 := by
  unfold advance at h
  cases hresult : (p.process m e.ids).result with
  | error fault' =>
    simp only [hresult, Prod.mk.injEq, Except.error.injEq] at h
    obtain ⟨rfl, rfl⟩ := h
    exact ⟨rfl, rfl, rfl⟩
  | ok r => simp [hresult] at h

/-- A node was processed and what was noticed is written down, but no node was reached yet. -/
def noted (p : Plan) (e : Exploration) (n : ExplodedNode) : Exploration :=
  { e with steps := e.steps + 1, ledger := e.ledger.noteAll (p.process n e.ids).observations }

theorem advance_of_error {n : ExplodedNode} {fault : Fault}
    (h : (p.process n e.ids).result = .error fault) :
    e.advance p n = (e.noted p n, .error fault) := by
  simp only [advance, h]
  rfl

theorem advance_of_ok {n : ExplodedNode} {next : List ExplodedNode}
    {ids : Supply} (h : (p.process n e.ids).result = .ok (next, ids)) :
    e.advance p n = (next.foldl (reach p.config.maxVisits) { e.noted p n with ids }, .ok ()) := by
  simp only [advance, h]
  rfl

/-- Whether or not it ends in a fault, processing a node adds nodes and writes down what was
noticed. -/
theorem exists_advance_eq (p : Plan) (e : Exploration) (n : ExplodedNode) :
    ∃ (added : List ExplodedNode) (ids : Supply),
      (e.advance p n).1 = { e.noted p n with nodes := e.nodes ++ added, ids } := by
  cases h : (p.process n e.ids).result with
  | error fault => exact ⟨[], e.ids, by simp [advance_of_error h, noted]⟩
  | ok r =>
    obtain ⟨added, hadded, -⟩ :=
      foldl_reach_cases p.config.maxVisits r.1 { e.noted p n with ids := r.2 }
    exact ⟨added, r.2, by rw [advance_of_ok h, hadded]; rfl⟩

theorem ledger_advance (p : Plan) (e : Exploration) (n : ExplodedNode) :
    (e.advance p n).1.ledger = e.ledger.noteAll (p.process n e.ids).observations := by
  obtain ⟨added, ids, hadvance⟩ := exists_advance_eq p e n
  rw [hadvance]
  rfl

/-! ### Rounds -/

theorem run_of_done (hend : e.nodes[e.steps]? = none) (p : Plan) (w : Watchdog) (budget : Nat) :
    run p w budget e = (e, .ok .complete) := by
  cases budget <;> simp [run, hend]

theorem run_of_spent {m : ExplodedNode} (hhead : e.nodes[e.steps]? = some m) (p : Plan)
    (w : Watchdog) : run p w 0 e = (e, .ok .stepBudgetExceeded) := by
  simp [run, hhead]

theorem run_of_stop {m : ExplodedNode} (hhead : e.nodes[e.steps]? = some m)
    (hstop : (e.poll w).1 = true) (p : Plan) (budget : Nat) :
    run p w (budget + 1) e = ((e.poll w).2, .ok .cancelled) := by
  rw [run, hhead]
  cases hpoll : e.poll w with
  | mk stop e₁ =>
    obtain rfl : stop = true := by rw [← hstop, hpoll]
    rfl

/-- A round in which the watchdog does not ask to stop. -/
theorem run_of_go {m : ExplodedNode} (hhead : e.nodes[e.steps]? = some m)
    (hgo : (e.poll w).1 = false) (p : Plan) (budget : Nat) :
    run p w (budget + 1) e =
      match (e.poll w).2.advance p m with
      | (e', .error fault) => (e', .error ⟨m.point, fault⟩)
      | (e', .ok ()) => run p w budget e' := by
  rw [run, hhead]
  cases hpoll : e.poll w with
  | mk stop e₁ =>
    obtain rfl : stop = false := by rw [← hgo, hpoll]
    rfl

/-! ### Ends -/

/-- How an exploration ends. -/
inductive Ends (p : Plan) (w : Watchdog) (budget : Nat) (e : Exploration) :
    Exploration × Except LocatedFault Completion → Prop where
  | complete {count : Nat} {e' : Exploration} (hruns : Runs p count e e') (hcount : count ≤ budget)
      (hend : e'.nodes[e'.steps]? = none) : Ends p w budget e (e', .ok .complete)
  | exhausted {e' : Exploration} {m : ExplodedNode} (hruns : Runs p budget e e')
      (hhead : e'.nodes[e'.steps]? = some m) : Ends p w budget e (e', .ok .stepBudgetExceeded)
  | cancelled {count : Nat} {e' : Exploration} {asked : Nat} (hruns : Runs p count e e')
      (hcount : count < budget) : Ends p w budget e ({ e' with asked }, .ok .cancelled)
  | fault {count : Nat} {e' e'' : Exploration} {m : ExplodedNode} {fault : Fault}
      (hruns : Runs p count e e') (hcount : count < budget)
      (hhead : e'.nodes[e'.steps]? = some m)
      (hfault : (p.process m e'.ids).result = .error fault)
      (hnodes : e''.nodes = e'.nodes) (hsteps : e''.steps = e'.steps + 1) :
      Ends p w budget e (e'', .error ⟨m.point, fault⟩)

theorem Ends.prepend {m : ExplodedNode} {next added : List ExplodedNode} {budget : Nat}
    (first : Progress p m next added e e')
    {r : Exploration × Except LocatedFault Completion} (h : Ends p w budget e' r) :
    Ends p w (budget + 1) e r := by
  cases h with
  | complete hruns hcount hend =>
    exact .complete (.step first hruns) (Nat.succ_le_succ hcount) hend
  | exhausted hruns hhead => exact .exhausted (.step first hruns) hhead
  | cancelled hruns hcount => exact .cancelled (.step first hruns) (Nat.succ_lt_succ hcount)
  | fault hruns hcount hhead hfault hnodes hsteps =>
    exact .fault (.step first hruns) (Nat.succ_lt_succ hcount) hhead hfault hnodes hsteps

/-- However an exploration ends, its nodes were reached in steps. -/
theorem Ends.exists_runs {budget : Nat} {r : Exploration × Except LocatedFault Completion}
    (h : Ends p w budget e r) : ∃ count e', Runs p count e e' ∧ r.1.nodes = e'.nodes := by
  cases h with
  | complete hruns => exact ⟨_, _, hruns, rfl⟩
  | exhausted hruns => exact ⟨_, _, hruns, rfl⟩
  | cancelled hruns => exact ⟨_, _, hruns, rfl⟩
  | fault hruns _ _ _ hnodes => exact ⟨_, _, hruns, hnodes⟩

/-- Every exploration ends in one of these ways. -/
theorem ends_run (p : Plan) (w : Watchdog) (budget : Nat) (e : Exploration) :
    Ends p w budget e (run p w budget e) := by
  induction budget generalizing e with
  | zero =>
    cases hhead : e.nodes[e.steps]? with
    | none =>
      rw [run_of_done hhead]
      exact .complete (.refl e) (Nat.le_refl 0) hhead
    | some m =>
      rw [run_of_spent hhead]
      exact .exhausted (.refl e) hhead
  | succ budget ih =>
    cases hhead : e.nodes[e.steps]? with
    | none =>
      rw [run_of_done hhead]
      exact .complete (.refl e) (Nat.zero_le _) hhead
    | some m =>
      obtain ⟨asked, hasked⟩ := poll_eq w e
      cases hgo : (e.poll w).1 with
      | true =>
        rw [run_of_stop hhead hgo, hasked]
        exact .cancelled (.refl e) (Nat.succ_pos budget)
      | false =>
        rw [run_of_go hhead hgo, hasked]
        split
        · next e₂ fault hadvance =>
          obtain ⟨hfault, hnodes, hsteps⟩ := fault_of_advance hadvance
          exact .fault (.refl e) (Nat.succ_pos budget) hhead hfault hnodes hsteps
        · next e₂ hadvance =>
          obtain ⟨next, added, first⟩ := progress_of_advance hhead hadvance
          exact (ih e₂).prepend first

end Exploration

/-! ### Walks -/

/-- The entry of the method was reached, and nothing was processed yet. -/
structure Exploration.Started (p : Plan) (ids : Supply) (s : State) (e : Exploration) : Prop where
  entry : p.entryState ids = .ok (s, e.ids)
  steps : e.steps = 0
  reaches : Reaches p.config.maxVisits [⟨.start p.graph.entry, s⟩] [] e.nodes.toList

namespace Exploration.Started

variable {p : Plan} {ids : Supply} {s : State} {e : Exploration}

theorem stack (h : Started p ids s e) : s.stack = [] := by
  have hmeets := p.entryState_meets ids
  rw [h.entry] at hmeets
  exact hmeets.1

theorem visitCount (h : Started p ids s e) (q : ProgramPoint) : s.visitCount q = 0 := by
  have hmeets := p.entryState_meets ids
  rw [h.entry] at hmeets
  have hvisits : s.visits = ∅ := hmeets.2
  simp [State.visitCount, hvisits]

end Exploration.Started

namespace Walk

theorem start_new (p : Plan) (w : Watchdog) (ids : Supply) :
    (new p w ids).start = (p.entryState ids).map fun r =>
      (Exploration.empty r.2).reach p.config.maxVisits ⟨.start p.graph.entry, r.1⟩ := by
  unfold start
  show (p.entryState ids >>= _) = _
  cases p.entryState ids with
  | error fault => rfl
  | ok r => rfl

theorem started_of_start {p : Plan} {w : Watchdog} {ids : Supply} {e : Exploration}
    (h : (new p w ids).start = .ok e) : ∃ s, Exploration.Started p ids s e := by
  rw [start_new] at h
  cases hentry : p.entryState ids with
  | error fault => simp [hentry, Except.map] at h
  | ok r =>
    simp only [hentry, Except.map, Except.ok.injEq] at h
    obtain ⟨added, hadded, hreaches⟩ := Exploration.reach_cases p.config.maxVisits
      (Exploration.empty r.2) ⟨.start p.graph.entry, r.1⟩
    rw [hadded] at h
    subst h
    refine ⟨r.1, hentry, rfl, ?_⟩
    simpa [Exploration.empty] using hreaches

/-- Nothing is written down and nothing is asked before the first step. -/
theorem eq_of_start {p : Plan} {w : Watchdog} {ids : Supply} {e : Exploration}
    (h : (new p w ids).start = .ok e) : ∃ nodes ids, e = ⟨nodes, 0, .empty, ids, 0⟩ := by
  rw [start_new] at h
  cases hentry : p.entryState ids with
  | error fault => simp [hentry, Except.map] at h
  | ok r =>
    simp only [hentry, Except.map, Except.ok.injEq] at h
    obtain ⟨added, hadded, -⟩ := Exploration.reach_cases p.config.maxVisits
      (Exploration.empty r.2) ⟨.start p.graph.entry, r.1⟩
    exact ⟨_, _, by rw [← h, hadded]; rfl⟩

theorem ledger_of_start {p : Plan} {w : Watchdog} {ids : Supply} {e : Exploration}
    (h : (new p w ids).start = .ok e) : e.ledger = .empty := by
  obtain ⟨nodes, ids, rfl⟩ := eq_of_start h
  rfl

/-- What is written down once an exploration has ended. -/
def closingLedger (p : Plan) : Exploration × Except LocatedFault Completion → Ledger
  | (e, .error _) => e.ledger
  | (e, .ok completion) => e.ledger.finish p.rules (.start p.graph.entry) completion

/-- A walk makes the exploration that it starts, and adds what can be said at the end. -/
theorem run_of_start {p : Plan} {w : Watchdog} {ids : Supply} {e : Exploration}
    (h : (new p w ids).start = .ok e) :
    (new p w ids).run.2 = (e.run p w p.config.maxSteps).2 ∧
      (new p w ids).run.1.exploration = { (e.run p w p.config.maxSteps).1 with
        ledger := closingLedger p (e.run p w p.config.maxSteps) } := by
  have hstart : { new p w ids with executed := true }.start = (new p w ids).start := rfl
  simp only [run, hstart, h]
  cases hr : e.run p w p.config.maxSteps with
  | mk e' result =>
    cases result with
    | error fault => simp [new, hr, closingLedger]
    | ok completion => simp [new, hr, closingLedger, entry]

/-- A method that cannot be entered is not explored. -/
theorem run_of_start_error {p : Plan} {w : Watchdog} {ids : Supply} {fault : Fault}
    (h : (new p w ids).start = .error fault) :
    (new p w ids).run.2 = .error ⟨.start p.graph.entry, fault⟩ ∧
      (new p w ids).run.1.exploration = .empty ids := by
  have hstart : { new p w ids with executed := true }.start = (new p w ids).start := rfl
  simp only [run, hstart, h]
  exact ⟨rfl, rfl⟩

/-- The parameters of a closed graph are declared, so its methods can be entered. -/
theorem exists_start {p : Plan} (hg : p.graph.Closed) (w : Watchdog) (ids : Supply) :
    ∃ e, (new p w ids).start = .ok e := by
  have hmeets := p.entryState_meets ids
  rw [start_new]
  cases hentry : p.entryState ids with
  | ok r => exact ⟨_, rfl⟩
  | error fault =>
    rw [hentry] at hmeets
    obtain ⟨id, hid, -, hnone⟩ := hmeets
    obtain ⟨symbol, hsymbol⟩ := hg.exists_parameter hid
    exact absurd (hsymbol.symm.trans hnone) (by simp)

/-- A walk that starts ends like the exploration that it makes. -/
theorem ends_of_start {p : Plan} {w : Watchdog} {ids : Supply} {e : Exploration}
    (he : (new p w ids).start = .ok e) :
    ∃ s r, Exploration.Started p ids s e ∧ Exploration.Ends p w p.config.maxSteps e r ∧
      (new p w ids).run.2 = r.2 ∧ (new p w ids).run.1.exploration.nodes = r.1.nodes ∧
      (new p w ids).run.1.exploration.steps = r.1.steps := by
  obtain ⟨s, hs⟩ := started_of_start he
  obtain ⟨hresult, hexploration⟩ := run_of_start he
  exact ⟨s, e.run p w p.config.maxSteps, hs, Exploration.ends_run p w _ e, hresult,
    by rw [hexploration], by rw [hexploration]⟩

/-- Every node that a walk reaches is reached in steps from its start. -/
theorem exists_runs_of_mem_nodes {p : Plan} {w : Watchdog} {ids : Supply} {n : ExplodedNode}
    (h : n ∈ (new p w ids).run.1.exploration.nodes.toList) :
    ∃ s e e' count, Exploration.Started p ids s e ∧ Exploration.Runs p count e e' ∧
      n ∈ e'.nodes.toList := by
  cases hstart : (new p w ids).start with
  | error fault =>
    rw [(run_of_start_error hstart).2] at h
    exact absurd h List.not_mem_nil
  | ok e =>
    obtain ⟨s, r, hs, hends, -, hnodes, -⟩ := ends_of_start hstart
    obtain ⟨count, e', hruns, heq⟩ := hends.exists_runs
    exact ⟨s, e, e', count, hs, hruns, by rwa [hnodes, heq] at h⟩

/-- A walk through a closed graph ends like the exploration that it makes. -/
theorem exists_ends {p : Plan} (hg : p.graph.Closed) (w : Watchdog) (ids : Supply) :
    ∃ s e r, (new p w ids).start = .ok e ∧ Exploration.Started p ids s e ∧
      Exploration.Ends p w p.config.maxSteps e r ∧ (new p w ids).run.2 = r.2 ∧
      (new p w ids).run.1.exploration.nodes = r.1.nodes ∧
      (new p w ids).run.1.exploration.steps = r.1.steps := by
  obtain ⟨e, he⟩ := exists_start hg w ids
  obtain ⟨s, r, hends⟩ := ends_of_start he
  exact ⟨s, e, r, he, hends⟩

/-- A complete walk has processed every node that it reached. -/
theorem runs_of_complete {p : Plan} {w : Watchdog} {ids : Supply}
    (h : (new p w ids).run.2 = .ok .complete) :
    ∃ s e e' count, Exploration.Started p ids s e ∧ Exploration.Runs p count e e' ∧
      e'.processed = e'.nodes.toList ∧
      (new p w ids).run.1.exploration.processed = e'.nodes.toList := by
  have hstart : { new p w ids with executed := true }.start = (new p w ids).start := rfl
  cases he : (new p w ids).start with
  | error fault =>
    simp only [run, hstart, he] at h
    exact absurd h (by simp [new])
  | ok e =>
    obtain ⟨s, r, hs, hends, hresult, hnodes, hsteps⟩ := ends_of_start he
    rw [hresult] at h
    cases hends with
    | @complete count e' hruns _ hend =>
      have hall : e'.processed = e'.nodes.toList := by
        refine List.take_of_length_le ?_
        simpa using hend
      refine ⟨s, e, e', count, hs, hruns, hall, ?_⟩
      rw [Exploration.processed, hnodes, hsteps]
      exact hall
    | exhausted => cases h
    | cancelled => cases h
    | fault => cases h

end Walk

end Pathwise
