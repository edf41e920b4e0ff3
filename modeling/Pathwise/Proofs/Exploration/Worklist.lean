import Pathwise.Proofs.Exploration.Termination

/-!
Walks, told with a queue. An exploration keeps the nodes that it has reached in one list, of which
it has processed as many as it has taken steps. Here the processed nodes, the line and the nodes
that are still to be reached are written down apart. `Walk.Moment` goes through a walk in small
steps: a node is refused, is known already or joins the end of the line, and the first node in line
is taken and processed.

At every moment the two accounts agree, no node is in them twice, and no node is lost. A complete
walk has therefore dealt with all nodes that its steps have led to.
-/

namespace Pathwise

namespace ExplodedNode

theorem same_symm {a b : ExplodedNode} (h : a.same b) : b.same a := by
  simp only [same, State.same, Bool.and_eq_true, beq_iff_eq] at h ⊢
  exact ⟨h.1.symm, ⟨h.2.1.1.symm, h.2.1.2.symm⟩, h.2.2.symm⟩

/-- In a list without repetition a node is found once. -/
theorem countP_same_eq_one {nodes : List ExplodedNode} (h : nodes.Pairwise fun a b => ¬a.same b)
    {n : ExplodedNode} (hn : n ∈ nodes) : nodes.countP n.same = 1 := by
  obtain ⟨before, after, rfl⟩ := List.append_of_mem hn
  rw [List.pairwise_append, List.pairwise_cons] at h
  obtain ⟨-, ⟨hafter, -⟩, hbefore⟩ := h
  have hnone : before.countP n.same = 0 := by
    rw [List.countP_eq_zero]
    exact fun m hm => mt same_symm (hbefore m hm n List.mem_cons_self)
  have hnone' : after.countP n.same = 0 := List.countP_eq_zero.2 hafter
  rw [List.countP_append, List.countP_cons, hnone, hnone', if_pos n.same_self]

end ExplodedNode

/-! ### Moments -/

/-- A moment of a walk, with the nodes that were processed, those that wait in line, and those that
the last step has led to and that are still to be reached. If the last step has ended in a fault,
there is nothing to go on with. -/
inductive Walk.Moment (p : Plan) (w : Watchdog) (ids : Supply) :
    (done line : List ExplodedNode) → (pending : Option (List ExplodedNode)) → Exploration →
      Prop where
  /-- Nothing has happened yet. -/
  | new : Moment p w ids [] [] (some []) (.empty ids)
  /-- The method is entered. -/
  | entry {s : State} {ids' : Supply} (hentry : p.entryState ids = .ok (s, ids')) :
      Moment p w ids [] [] (some [⟨.start p.graph.entry, s⟩]) (.empty ids')
  /-- The path of a node has come by its point too often. -/
  | refuse {done line pending : List ExplodedNode} {n : ExplodedNode} {e : Exploration}
      (h : Moment p w ids done line (some (n :: pending)) e)
      (hlimit : n.state.atVisitLimit n.point p.config.maxVisits = true) :
      Moment p w ids done line (some pending) (e.reach p.config.maxVisits n)
  /-- The same node was reached before. -/
  | known {done line pending : List ExplodedNode} {n m : ExplodedNode} {e : Exploration}
      (h : Moment p w ids done line (some (n :: pending)) e)
      (hlimit : n.state.atVisitLimit n.point p.config.maxVisits = false)
      (hm : m ∈ done ++ line) (hsame : n.marked.same m) :
      Moment p w ids done line (some pending) (e.reach p.config.maxVisits n)
  /-- A new node joins the line. -/
  | join {done line pending : List ExplodedNode} {n : ExplodedNode} {e : Exploration}
      (h : Moment p w ids done line (some (n :: pending)) e)
      (hlimit : n.state.atVisitLimit n.point p.config.maxVisits = false)
      (hnew : ∀ m ∈ done ++ line, ¬n.marked.same m) :
      Moment p w ids done (line ++ [n.marked]) (some pending) (e.reach p.config.maxVisits n)
  /-- The first node in line is processed. -/
  | take {done line next : List ExplodedNode} {m : ExplodedNode} {e : Exploration} {ids' : Supply}
      (h : Moment p w ids done (m :: line) (some []) e) (hbudget : done.length < p.config.maxSteps)
      (hgo : (e.poll w).1 = false) (hprocess : (p.process m e.ids).result = .ok (next, ids')) :
      Moment p w ids (done ++ [m]) line (some next) { (e.poll w).2.noted p m with ids := ids' }
  /-- Processing the first node in line ends in a fault. -/
  | fail {done line : List ExplodedNode} {m : ExplodedNode} {e : Exploration} {fault : Fault}
      (h : Moment p w ids done (m :: line) (some []) e) (hbudget : done.length < p.config.maxSteps)
      (hgo : (e.poll w).1 = false) (hprocess : (p.process m e.ids).result = .error fault) :
      Moment p w ids (done ++ [m]) line none ((e.poll w).2.noted p m)

namespace Exploration

variable {e : Exploration} {done line pending : List ExplodedNode} {limit : Nat}

/-- The exploration holds the processed nodes and the line, one after the other and none twice. No
path has come by a point more often than it may. -/
structure Queues (limit : Nat) (done line pending : List ExplodedNode) (e : Exploration) :
    Prop where
  nodes : e.nodes.toList = done ++ line
  steps : e.steps = done.length
  distinct : (done ++ line).Pairwise fun a b => ¬a.same b
  visits : ∀ n ∈ done ++ line ++ pending, ∀ q, n.state.visitCount q ≤ limit

namespace Queues

theorem processed (h : Queues limit done line pending e) : e.processed = done := by
  rw [Exploration.processed, h.nodes, h.steps, List.take_left']
  rfl

theorem waiting (h : Queues limit done line pending e) : e.waiting = line := by
  rw [Exploration.waiting, h.nodes, h.steps, List.drop_left']
  rfl

/-- The next node to be processed is the first one in line. -/
theorem head (h : Queues limit done line pending e) : e.nodes[e.steps]? = line.head? := by
  rw [← Array.getElem?_toList, h.nodes, h.steps, List.getElem?_append_right le_rfl, Nat.sub_self,
    List.head?_eq_getElem?]

/-- A node that is not needed. -/
theorem drop {n : ExplodedNode} (h : Queues limit done line (n :: pending) e) :
    Queues limit done line pending e := by
  refine ⟨h.nodes, h.steps, h.distinct, fun m hm => h.visits m ?_⟩
  rcases List.mem_append.1 hm with hm | hm
  · exact List.mem_append_left _ hm
  · exact List.mem_append_right _ (List.mem_cons_of_mem _ hm)

/-- A node that joins the line at its end. -/
theorem join {n : ExplodedNode} (h : Queues limit done line (n :: pending) e)
    (hlimit : n.state.atVisitLimit n.point limit = false)
    (hnew : ∀ m ∈ done ++ line, ¬n.marked.same m) :
    Queues limit done (line ++ [n.marked]) pending (e.reach limit n) := by
  have hany : e.nodes.any n.marked.same = false := by
    rw [← Array.any_toList, h.nodes, List.any_eq_false]
    exact hnew
  have hreach : e.reach limit n = { e with nodes := e.nodes.push n.marked } := by
    rw [reach, if_neg (Bool.eq_false_iff.1 hlimit)]
    exact if_neg (Bool.eq_false_iff.1 hany)
  have hvisits : ∀ q, n.marked.state.visitCount q ≤ limit := by
    intro q
    have hn : ∀ q, n.state.visitCount q ≤ limit := h.visits n (by simp)
    have hpoint : ¬limit ≤ n.state.visitCount n.point := by
      simpa [State.atVisitLimit] using hlimit
    show (n.state.markVisited n.point).visitCount q ≤ limit
    rw [State.visitCount_markVisited]
    split
    · omega
    · exact hn q
  rw [hreach]
  constructor
  · simp [h.nodes]
  · exact h.steps
  · rw [← List.append_assoc, List.pairwise_append]
    refine ⟨h.distinct, List.pairwise_singleton _ _, fun m hm n' hn' => ?_⟩
    obtain rfl := List.mem_singleton.1 hn'
    exact mt ExplodedNode.same_symm (hnew m hm)
  · intro m hm
    have hcases : m ∈ done ++ line ++ (n :: pending) ∨ m = n.marked := by
      simp only [List.mem_append, List.mem_cons] at hm ⊢
      grind
    rcases hcases with hm | rfl
    · exact h.visits m hm
    · exact hvisits

/-- The first node in line is moved to the processed ones, and its step leads to nodes whose paths
have been where its own path has been. -/
theorem take {m : ExplodedNode} {next : List ExplodedNode} {e' : Exploration}
    (h : Queues limit done (m :: line) [] e) (hnodes : e'.nodes = e.nodes)
    (hsteps : e'.steps = e.steps + 1) (hnext : ∀ n ∈ next, n.state.visits = m.state.visits) :
    Queues limit (done ++ [m]) line next e' := by
  have hsplit : done ++ [m] ++ line = done ++ m :: line := by simp
  constructor
  · rw [hnodes, h.nodes, hsplit]
  · rw [hsteps, h.steps, List.length_append]
    rfl
  · rw [hsplit]
    exact h.distinct
  · intro n hn q
    rw [hsplit] at hn
    rcases List.mem_append.1 hn with hn | hn
    · exact h.visits n (List.mem_append_left _ hn) q
    · rw [State.visitCount_congr (hnext n hn)]
      exact h.visits m (by simp) q

end Queues

end Exploration

namespace Walk

variable {p : Plan} {w : Watchdog} {ids : Supply} {done line pending : List ExplodedNode}
  {e : Exploration}

/-- At every moment of a walk the exploration and the queue agree. -/
theorem Moment.queues {pending : Option (List ExplodedNode)}
    (h : Moment p w ids done line pending e) :
    e.Queues p.config.maxVisits done line (pending.getD []) := by
  induction h with
  | new => exact ⟨rfl, rfl, .nil, by simp⟩
  | @entry s ids' hentry =>
    have hmeets := p.entryState_meets ids
    rw [hentry] at hmeets
    have hvisits : s.visits = ∅ := hmeets.2
    refine ⟨rfl, rfl, .nil, fun n hn q => ?_⟩
    obtain rfl := List.mem_singleton.1 hn
    simp [State.visitCount, hvisits]
  | @refuse _ _ _ _ e _ hlimit ih =>
    rw [Exploration.reach, if_pos hlimit]
    exact ih.drop
  | @known _ _ _ n m e _ hlimit hm hsame ih =>
    have hany : e.nodes.any n.marked.same = true := by
      rw [← Array.any_toList, ih.nodes, List.any_eq_true]
      exact ⟨m, hm, hsame⟩
    have hreach : e.reach p.config.maxVisits n = e := by
      rw [Exploration.reach, if_neg (Bool.eq_false_iff.1 hlimit)]
      exact if_pos hany
    rw [hreach]
    exact ih.drop
  | join _ hlimit hnew ih => exact ih.join hlimit hnew
  | @take _ _ next m e ids' _ _ _ hprocess ih =>
    obtain ⟨asked, hasked⟩ := Exploration.poll_eq w e
    have hmeets := p.process_meets m e.ids
    rw [hprocess] at hmeets
    rw [hasked]
    exact ih.take rfl rfl fun n hn => (hmeets.1 n hn).visits
  | @fail _ _ m e _ _ _ _ _ ih =>
    obtain ⟨asked, hasked⟩ := Exploration.poll_eq w e
    rw [hasked]
    exact ih.take rfl rfl (by simp)

/-! ### Whole walks -/

/-- The nodes that a step leads to are reached one after the other. Each is refused, or the same
node is in the account afterwards. -/
theorem Moment.reachAll (h : Moment p w ids done line (some pending) e) :
    ∃ added, Moment p w ids done (line ++ added) (some [])
        (pending.foldl (Exploration.reach p.config.maxVisits) e) ∧
      ∀ n ∈ pending, n.state.visitCount n.point = p.config.maxVisits ∨
        ∃ n' ∈ done ++ (line ++ added), n.marked.same n' := by
  induction pending generalizing line e with
  | nil => exact ⟨[], by simpa using h, by simp⟩
  | cons n pending ih =>
    cases hlimit : n.state.atVisitLimit n.point p.config.maxVisits with
    | true =>
      have hle : n.state.visitCount n.point ≤ p.config.maxVisits :=
        h.queues.visits n (by simp) n.point
      have hge : p.config.maxVisits ≤ n.state.visitCount n.point := by
        simpa [State.atVisitLimit] using hlimit
      obtain ⟨added, hmoment, hreached⟩ := ih (h.refuse hlimit)
      refine ⟨added, hmoment, List.forall_mem_cons.2 ⟨.inl (Nat.le_antisymm hle hge), hreached⟩⟩
    | false =>
      by_cases hknown : ∃ m ∈ done ++ line, n.marked.same m
      · obtain ⟨m, hm, hsame⟩ := hknown
        obtain ⟨added, hmoment, hreached⟩ := ih (h.known hlimit hm hsame)
        refine ⟨added, hmoment, List.forall_mem_cons.2 ⟨.inr ⟨m, ?_, hsame⟩, hreached⟩⟩
        rw [← List.append_assoc]
        exact List.mem_append_left _ hm
      · have hnew : ∀ m ∈ done ++ line, ¬n.marked.same m := fun m hm hsame =>
          hknown ⟨m, hm, hsame⟩
        obtain ⟨added, hmoment, hreached⟩ := ih (h.join hlimit hnew)
        rw [List.append_assoc] at hmoment hreached
        refine ⟨[n.marked] ++ added, hmoment, List.forall_mem_cons.2 ⟨.inr ⟨n.marked, ?_, ?_⟩,
          hreached⟩⟩
        · simp
        · exact n.marked.same_self

/-- The node was processed at a moment of the walk, as the last of the nodes of the account up to
then. Each node that its step has led to was refused, as the own path of this node had come by its
point as often as it may, or the same node is in the account. -/
def Handled (p : Plan) (w : Watchdog) (ids : Supply) (account : List ExplodedNode)
    (m : ExplodedNode) : Prop :=
  ∃ done line e next ids',
    Moment p w ids done (m :: line) (some []) e ∧ done ++ [m] <+: account ∧
    (p.process m e.ids).result = .ok (next, ids') ∧
    ∀ n ∈ next, n.state.visitCount n.point = p.config.maxVisits ∨
      ∃ n' ∈ account, n.marked.same n'

theorem Handled.mono {account account' : List ExplodedNode} {m : ExplodedNode}
    (h : Handled p w ids account m) (hsub : account <+: account') :
    Handled p w ids account' m := by
  obtain ⟨done, line, e, next, ids', hmoment, hdone, hprocess, hnext⟩ := h
  refine ⟨done, line, e, next, ids', hmoment, hdone.trans hsub, hprocess, fun n hn => ?_⟩
  exact (hnext n hn).imp_right fun ⟨n', hn', hsame⟩ => ⟨n', hsub.subset hn', hsame⟩

/-- An exploration goes from moment to moment. If it is complete, every node was handled. -/
theorem Moment.run {budget : Nat} (h : Moment p w ids done line (some []) e)
    (hbudget : done.length + budget = p.config.maxSteps)
    (hhandled : ∀ m ∈ done, Handled p w ids (done ++ line) m) :
    ∃ done' line' pending' e', Moment p w ids done' line' pending' e' ∧
      (e.run p w budget).1.nodes = e'.nodes ∧ (e.run p w budget).1.steps = e'.steps ∧
      ((e.run p w budget).2 = .ok .complete → ∀ m ∈ done', Handled p w ids done' m) := by
  induction budget generalizing done line e with
  | zero =>
    cases line with
    | nil =>
      rw [Exploration.run_of_done h.queues.head]
      refine ⟨done, [], _, e, h, rfl, rfl, fun _ => ?_⟩
      simpa using hhandled
    | cons m line =>
      rw [Exploration.run_of_spent h.queues.head]
      exact ⟨done, m :: line, _, e, h, rfl, rfl, nofun⟩
  | succ budget ih =>
    cases line with
    | nil =>
      rw [Exploration.run_of_done h.queues.head]
      refine ⟨done, [], _, e, h, rfl, rfl, fun _ => ?_⟩
      simpa using hhandled
    | cons m line =>
      have hhead := h.queues.head
      have hlt : done.length < p.config.maxSteps := by omega
      obtain ⟨asked, hasked⟩ := Exploration.poll_eq w e
      have hids : (e.poll w).2.ids = e.ids := by rw [hasked]
      cases hgo : (e.poll w).1 with
      | true =>
        rw [Exploration.run_of_stop hhead hgo]
        exact ⟨done, m :: line, _, e, h, by rw [hasked], by rw [hasked], nofun⟩
      | false =>
        rw [Exploration.run_of_go hhead hgo]
        cases hprocess : (p.process m e.ids).result with
        | error fault =>
          rw [Exploration.advance_of_error (hids.symm ▸ hprocess)]
          exact ⟨_, _, _, _, h.fail hlt hgo hprocess, rfl, rfl, nofun⟩
        | ok r =>
          obtain ⟨next, ids'⟩ := r
          rw [Exploration.advance_of_ok (hids.symm ▸ hprocess)]
          obtain ⟨added, hmoment, hreached⟩ := (h.take hlt hgo hprocess).reachAll
          have hsplit : done ++ [m] ++ (line ++ added) = done ++ m :: line ++ added := by simp
          refine ih hmoment (by simp; omega) fun a ha => ?_
          rw [hsplit] at hreached ⊢
          rcases List.mem_append.1 ha with ha | ha
          · exact (hhandled a ha).mono (List.prefix_append _ _)
          · obtain rfl := List.mem_singleton.1 ha
            exact ⟨done, line, e, next, ids', h, ⟨line ++ added, by simp⟩, hprocess, hreached⟩

/-- A walk ends at one of its moments. -/
theorem exists_moment (p : Plan) (w : Watchdog) (ids : Supply) :
    ∃ done line pending e, Moment p w ids done line pending e ∧
      (new p w ids).run.1.exploration.nodes = e.nodes ∧
      (new p w ids).run.1.exploration.steps = e.steps ∧
      ((new p w ids).run.2 = .ok .complete → ∀ m ∈ done, Handled p w ids done m) := by
  cases hstart : (new p w ids).start with
  | error fault =>
    obtain ⟨hresult, hexploration⟩ := run_of_start_error hstart
    rw [hresult, hexploration]
    exact ⟨[], [], _, _, .new, rfl, rfl, nofun⟩
  | ok e =>
    obtain ⟨hresult, hexploration⟩ := run_of_start hstart
    rw [start_new] at hstart
    cases hentry : p.entryState ids with
    | error fault =>
      rw [hentry] at hstart
      cases hstart
    | ok r =>
      rw [hentry] at hstart
      obtain ⟨added, hmoment, -⟩ := (Moment.entry hentry).reachAll (w := w)
      cases hstart
      rw [hresult, hexploration]
      exact hmoment.run (Nat.zero_add _) (by simp)

/-- At every moment of a walk no node is in the account twice, each node of the account waits in
line or was processed once, and as many nodes were processed as steps were taken. The walk ends at
such a moment, and a complete walk has handled every node that it has processed. -/
theorem queue_accounts (p : Plan) (w : Watchdog) (ids : Supply) :
    let walk := (Walk.new p w ids).run
    (∀ done line pending e, Moment p w ids done line pending e →
      e.processed = done ∧ e.waiting = line ∧
      e.nodes.toList.Pairwise (fun a b => ¬a.same b) ∧
      (∀ n ∈ e.nodes.toList, done.countP n.same + line.countP n.same = 1) ∧
      e.steps + line.length = e.nodes.size) ∧
    (∃ done line pending e, Moment p w ids done line pending e ∧
      walk.1.exploration.nodes = e.nodes ∧ walk.1.exploration.steps = e.steps) ∧
    (walk.2 = .ok .complete →
      ∀ m ∈ walk.1.exploration.processed, Handled p w ids walk.1.exploration.processed m) := by
  intro walk
  obtain ⟨done, line, pending, e, hmoment, hnodes, hsteps, hhandled⟩ := exists_moment p w ids
  refine ⟨?_, ⟨done, line, pending, e, hmoment, hnodes, hsteps⟩, ?_⟩
  · intro done line pending e hmoment
    have hqueues := hmoment.queues
    refine ⟨hqueues.processed, hqueues.waiting, ?_, ?_, ?_⟩
    · rw [hqueues.nodes]
      exact hqueues.distinct
    · intro n hn
      rw [hqueues.nodes] at hn
      rw [← List.countP_append]
      exact ExplodedNode.countP_same_eq_one hqueues.distinct hn
    · rw [← Array.length_toList, hqueues.nodes, hqueues.steps, List.length_append]
  · have hprocessed : walk.1.exploration.processed = done := by
      rw [Exploration.processed, hnodes, hsteps]
      exact hmoment.queues.processed
    rw [hprocessed]
    exact hhandled

/-- A loop that comes back to the state in which it was entered leads to nothing new after one
round. -/
theorem queue_accounts_endlessLoop :
    let p := Plan.of endlessLoop .default []
    let walk := (Walk.new p .lazy .odd).run
    walk.2 = .ok .complete ∧ walk.1.exploration.steps = 3 ∧
      ∀ m ∈ walk.1.exploration.processed, Handled p .lazy .odd walk.1.exploration.processed m := by
  intro p walk
  have hcomplete : walk.2 = .ok .complete := by decide +kernel
  have hsteps : walk.1.exploration.steps = 3 := by decide +kernel
  exact ⟨hcomplete, hsteps, (queue_accounts p .lazy .odd).2.2 hcomplete⟩

end Walk

end Pathwise
