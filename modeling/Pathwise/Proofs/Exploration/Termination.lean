import Mathlib.Algebra.Order.BigOperators.Group.Finset
import Mathlib.Algebra.BigOperators.Ring.Finset
import Pathwise.Proofs.Exploration.Run

/-!
Why explorations end. Loops give ever new unknowns, so nodes need not repeat themselves; what bounds
an exploration is that every node counts the visits of its path. Along a chain of nodes, each of
them reached from the one before, the counts of the last node are those of the chain. As no count
passes the limit, chains are not longer than the limit times the number of points.

The nodes that wait in line are the roots of trees of such chains. A step replaces a root by fewer
roots than the graph is wide, each with a lower tree, so the number of nodes that the trees can have
at most drops with every step.
-/

namespace Pathwise

/-! ### The points of a graph -/

namespace Graph

/-- The points of a graph. -/
def points (g : Graph) : List ProgramPoint :=
  g.blocks.zipIdx.flatMap fun (b, i) => (List.range (b.nodes.length + 1)).map fun k => ⟨⟨i⟩, k⟩

theorem mem_points {g : Graph} {q : ProgramPoint} :
    q ∈ g.points ↔ ∃ b, g.block? q.block = some b ∧ q.offset ≤ b.nodes.length := by
  constructor
  · intro hq
    obtain ⟨⟨b, i⟩, hb, hq⟩ := List.mem_flatMap.1 hq
    obtain ⟨k, hk, rfl⟩ := List.mem_map.1 hq
    exact ⟨b, List.mk_mem_zipIdx_iff_getElem?.1 hb, Nat.lt_succ_iff.1 (List.mem_range.1 hk)⟩
  · rintro ⟨b, hb, hoffset⟩
    refine List.mem_flatMap.2 ⟨(b, q.block.index), List.mk_mem_zipIdx_iff_getElem?.2 hb, ?_⟩
    exact List.mem_map.2 ⟨q.offset, List.mem_range.2 (Nat.lt_succ_of_le hoffset), rfl⟩

theorem length_points (g : Graph) :
    g.points.length = (g.blocks.map fun b => b.nodes.length + 1).sum := by
  have hlength : ∀ (blocks : List Block) (k : Nat),
      ((blocks.zipIdx k).flatMap fun (b, i) =>
        (List.range (b.nodes.length + 1)).map fun k => (⟨⟨i⟩, k⟩ : ProgramPoint)).length =
        (blocks.map fun b => b.nodes.length + 1).sum := by
    intro blocks k
    induction blocks generalizing k with
    | nil => rfl
    | cons b rest ih => simp [List.zipIdx_cons, ih]
  exact hlength g.blocks 0

end Graph

/-! ### Visits -/

/-- How often a path has come by points of the graph. -/
def State.totalVisits (g : Graph) (s : State) : Nat := ∑ q ∈ g.points.toFinset, s.visitCount q

theorem State.totalVisits_markVisited {g : Graph} {q : ProgramPoint} (hq : q ∈ g.points)
    (s : State) : (s.markVisited q).totalVisits g = s.totalVisits g + 1 := by
  have hcount : ∀ r, (s.markVisited q).visitCount r = s.visitCount r + if q = r then 1 else 0 := by
    intro r
    rw [State.visitCount_markVisited]
    split
    · next h => rw [h]
    · rfl
  simp [totalVisits, hcount, Finset.sum_add_distrib, hq]

theorem State.totalVisits_le {g : Graph} {limit : Nat} {s : State}
    (h : ∀ q, s.visitCount q ≤ limit) :
    s.totalVisits g ≤ limit * (g.blocks.map fun b => b.nodes.length + 1).sum := by
  have hsum := Finset.sum_le_card_nsmul g.points.toFinset s.visitCount limit fun q _ => h q
  have hcard := List.toFinset_card_le g.points
  rw [Graph.length_points] at hcard
  calc
    s.totalVisits g ≤ g.points.toFinset.card * limit := by simpa [totalVisits] using hsum
    _ ≤ limit * (g.blocks.map fun b => b.nodes.length + 1).sum := by
      rw [Nat.mul_comm]
      exact Nat.mul_le_mul_left limit hcard

theorem State.totalVisits_congr {s t : State} (g : Graph) (h : t.visits = s.visits) :
    t.totalVisits g = s.totalVisits g :=
  Finset.sum_congr rfl fun q _ => visitCount_congr h q

/-- The node stands at a point of the graph, and its path came by no point too often. -/
structure Graph.Counted (g : Graph) (limit : Nat) (n : ExplodedNode) : Prop where
  point : n.point ∈ g.points
  visits : ∀ q, n.state.visitCount q ≤ limit

namespace Graph

variable {g : Graph} {limit : Nat} {m n : ExplodedNode}

theorem counted_marked (hpoint : n.point ∈ g.points) (hvisits : ∀ q, n.state.visitCount q ≤ limit)
    (h : n.state.visitCount n.point < limit) : g.Counted limit n.marked := by
  refine ⟨hpoint, fun q => ?_⟩
  show (n.state.markVisited n.point).visitCount q ≤ limit
  rw [State.visitCount_markVisited]
  split
  · exact h
  · exact hvisits q

/-- Control does not leave a closed graph. -/
theorem Advances.mem_points (hg : g.Closed) (h : g.Advances m n) : n.point ∈ g.points := by
  rw [Graph.mem_points]
  cases h with
  | instruction hblock hnode heffect hpoint hstate =>
    rw [hpoint]
    exact ⟨_, hblock, (List.getElem?_eq_some_iff.1 hnode).1⟩
  | edge hblock hend hedge hfollows =>
    obtain ⟨b, hb⟩ := hg.exists_block hblock (Terminator.mem_successors_of_mem_edges hedge)
    rw [hfollows.point]
    exact ⟨b, hb, Nat.zero_le _⟩

/-- One more node on a path, unless it came by its point too often before. -/
theorem Counted.advance (hg : g.Closed) (hm : g.Counted limit m) (h : g.Advances m n)
    (hlimit : n.state.visitCount n.point < limit) :
    g.Counted limit n.marked ∧
      n.marked.state.totalVisits g = m.state.totalVisits g + 1 := by
  have hpoint := h.mem_points hg
  have hvisits := h.visits
  refine ⟨counted_marked hpoint (fun q => ?_) hlimit, ?_⟩
  · rw [State.visitCount_congr hvisits]
    exact hm.visits q
  · rw [← State.totalVisits_congr g hvisits]
    exact State.totalVisits_markVisited hpoint n.state

end Graph

/-! ### Chains -/

namespace Exploration

variable {p : Plan} {ids : Supply} {s : State} {m n : ExplodedNode}
  {next added : List ExplodedNode} {e₀ e e' : Exploration}

/-- The second node was reached when the first was processed, some steps after the start. -/
def Links (p : Plan) (e₀ : Exploration) (m n : ExplodedNode) : Prop :=
  ∃ count e e' next added, Runs p count e₀ e ∧ Progress p m next added e e' ∧ n ∈ added

/-- A chain of nodes that were reached one from another, the last one first. -/
inductive Chain (p : Plan) (e₀ : Exploration) : List ExplodedNode → Prop where
  | start {n : ExplodedNode} (h : n ∈ e₀.nodes.toList) : Chain p e₀ [n]
  | link {m n : ExplodedNode} {rest : List ExplodedNode} (h : Chain p e₀ (m :: rest))
      (hlink : Links p e₀ m n) : Chain p e₀ (n :: m :: rest)

/-- Every node that was reached is the last node of a chain of processed nodes. -/
theorem Runs.exists_chain_processed {count : Nat} (h : Runs p count e₀ e) :
    ∀ n ∈ e.nodes.toList, ∃ rest, Chain p e₀ (n :: rest) ∧ ∀ m ∈ rest, m ∈ e.processed := by
  have hchains := h.invariant
    (P := fun e => (∃ count, Runs p count e₀ e) ∧
      ∀ n ∈ e.nodes.toList, ∃ rest, Chain p e₀ (n :: rest) ∧ ∀ m ∈ rest, m ∈ e.processed)
    (fun {m next added e e'} hstep ⟨⟨count, hruns⟩, he⟩ => ?_)
    ⟨⟨0, .refl e₀⟩, fun n hn => ⟨[], .start hn, by simp⟩⟩
  · exact hchains.2
  · refine ⟨⟨count + 1, hruns.snoc hstep⟩, fun n hn => ?_⟩
    rw [hstep.nodes] at hn
    rw [hstep.processed]
    rcases List.mem_append.1 hn with hn | hn
    · obtain ⟨rest, hrest, hprocessed⟩ := he n hn
      exact ⟨rest, hrest, fun a ha => List.mem_append_left _ (hprocessed a ha)⟩
    · obtain ⟨rest, hrest, hprocessed⟩ := he m hstep.head_mem
      refine ⟨m :: rest, .link hrest ⟨count, e, e', next, added, hruns, hstep, hn⟩, fun a ha => ?_⟩
      rcases List.mem_cons.1 ha with rfl | ha
      · exact List.mem_append_right _ (List.mem_singleton.2 rfl)
      · exact List.mem_append_left _ (hprocessed a ha)

/-- Every node that was reached is the last node of a chain. -/
theorem Runs.exists_chain {count : Nat} (h : Runs p count e₀ e) :
    ∀ n ∈ e.nodes.toList, ∃ rest, Chain p e₀ (n :: rest) := by
  intro n hn
  obtain ⟨rest, hchain, -⟩ := h.exists_chain_processed n hn
  exact ⟨rest, hchain⟩

/-- The nodes that an exploration starts from. -/
theorem Started.counted (hg : p.graph.Closed) (h : Started p ids s e₀) (hn : n ∈ e₀.nodes.toList) :
    p.graph.Counted p.config.maxVisits n ∧ n.state.totalVisits p.graph = 1 := by
  obtain ⟨n₀, hn₀, hlimit, rfl⟩ := h.reaches.joined n hn
  obtain rfl := List.mem_singleton.1 hn₀
  obtain ⟨b, hb⟩ := hg.exists_entry
  have hpoint : ProgramPoint.start p.graph.entry ∈ p.graph.points :=
    Graph.mem_points.2 ⟨b, hb, Nat.zero_le _⟩
  refine ⟨Graph.counted_marked hpoint (fun q => ?_) hlimit, ?_⟩
  · show s.visitCount q ≤ _
    rw [h.visitCount]
    exact Nat.zero_le _
  · show (s.markVisited _).totalVisits p.graph = 1
    rw [State.totalVisits_markVisited hpoint]
    simp [State.totalVisits, h.visitCount]

/-- A node that joins the line has one visit more than the node from which it was reached. -/
theorem Progress.counted (hg : p.graph.Closed) (h : Progress p m next added e e')
    (hm : p.graph.Counted p.config.maxVisits m) (hn : n ∈ added) :
    p.graph.Counted p.config.maxVisits n ∧
      n.state.totalVisits p.graph = m.state.totalVisits p.graph + 1 := by
  obtain ⟨n₀, hadvances, hlimit, rfl⟩ := h.advances hn
  exact hm.advance hg hadvances hlimit

theorem Progress.visitCount (h : Progress p m next added e e') (hn : n ∈ added) (q : ProgramPoint) :
    n.state.visitCount q = m.state.visitCount q + if n.point = q then 1 else 0 := by
  obtain ⟨n₀, hadvances, -, rfl⟩ := h.advances hn
  have hvisits := State.visitCount_congr hadvances.visits
  show (n₀.state.markVisited n₀.point).visitCount q = _
  rw [State.visitCount_markVisited, hvisits, hvisits]
  show _ = _ + if n₀.point = q then 1 else 0
  split
  · next hq => rw [hq]
  · rfl

/-- The last node of a chain has counted how often the chain came by each point. -/
theorem Chain.counts (hg : p.graph.Closed) (hs : Started p ids s e₀) {chain : List ExplodedNode}
    (h : Chain p e₀ chain) :
    ∃ n rest, chain = n :: rest ∧ p.graph.Counted p.config.maxVisits n ∧
      n.state.totalVisits p.graph = chain.length ∧
      ∀ q, n.state.visitCount q = (chain.map ExplodedNode.point).count q := by
  induction h with
  | @start n hn =>
    obtain ⟨hcounted, htotal⟩ := hs.counted hg hn
    refine ⟨n, [], rfl, hcounted, htotal, fun q => ?_⟩
    obtain ⟨n₀, hn₀, -, rfl⟩ := hs.reaches.joined n hn
    obtain rfl := List.mem_singleton.1 hn₀
    show (s.markVisited _).visitCount q = _
    rw [State.visitCount_markVisited, hs.visitCount, hs.visitCount]
    simp [ExplodedNode.marked, List.count_cons]
  | @link m n rest _ hlink ih =>
    obtain ⟨m', rest', heq, hcounted, htotal, hcounts⟩ := ih
    obtain ⟨rfl, rfl⟩ := List.cons.inj heq
    obtain ⟨count, e, e', next, added, hruns, hstep, hn⟩ := hlink
    obtain ⟨hn', htotal'⟩ := hstep.counted hg hcounted hn
    refine ⟨n, m :: rest, rfl, hn', ?_, fun q => ?_⟩
    · rw [htotal', htotal]
      rfl
    · simp [hstep.visitCount hn, hcounts, List.count_cons]

/-! ### The number of steps -/

/-- The number of nodes of a tree of a height in which every inner node has as many children. -/
def treeSize (width : Nat) : Nat → Nat
  | 0 => 1
  | height + 1 => 1 + width * treeSize width height

theorem treeSize_pos (width height : Nat) : 0 < treeSize width height := by
  cases height with
  | zero => exact Nat.one_pos
  | succ height =>
    rw [treeSize]
    omega

theorem treeSize_pred_le {width : Nat} (hwidth : 0 < width) (height : Nat) :
    treeSize width (height - 1) ≤ treeSize width height := by
  cases height with
  | zero => exact Nat.le_refl _
  | succ height =>
    show treeSize width height ≤ 1 + width * treeSize width height
    have := Nat.le_mul_of_pos_left (treeSize width height) hwidth
    omega

/-- How high the tree of a node can be at most. -/
def heightOf (p : Plan) (n : ExplodedNode) : Nat :=
  p.config.maxVisits * (p.graph.blocks.map fun b => b.nodes.length + 1).sum -
    n.state.totalVisits p.graph

/-- How many nodes the trees of some nodes can have at most. -/
def forestSize (p : Plan) (nodes : List ExplodedNode) : Nat :=
  (nodes.map fun n => treeSize (p.graph.width p.solver.maxForks) (heightOf p n)).sum

/-- The tree of a node has room for the node and the trees of the nodes that it leads to. -/
theorem Progress.forestSize_lt (hg : p.graph.Closed) (h : Progress p m next added e e')
    (hm : p.graph.Counted p.config.maxVisits m) :
    forestSize p added < treeSize (p.graph.width p.solver.maxForks) (heightOf p m) := by
  have hfew := h.length_added_le
  cases added with
  | nil => exact treeSize_pos _ _
  | cons n rest =>
    -- all new nodes have one visit more than `m`, so their trees have the same height
    have hheight : ∀ n' ∈ n :: rest, heightOf p n' + 1 = heightOf p m := by
      intro n' hn'
      obtain ⟨hcounted, htotal⟩ := h.counted hg hm hn'
      have hle := State.totalVisits_le (g := p.graph) hcounted.visits
      unfold heightOf
      omega
    have hsize : ∀ k ∈ (n :: rest).map
        (fun n => treeSize (p.graph.width p.solver.maxForks) (heightOf p n)),
        k ≤ treeSize (p.graph.width p.solver.maxForks) (heightOf p n) := by
      intro k hk
      obtain ⟨n', hn', rfl⟩ := List.mem_map.1 hk
      have heq : heightOf p n' = heightOf p n := by
        have := hheight n' hn'
        have := hheight n List.mem_cons_self
        omega
      rw [heq]
    have hsum := List.sum_le_card_nsmul _ _ hsize
    rw [List.length_map, nsmul_eq_mul, Nat.cast_id] at hsum
    calc
      forestSize p (n :: rest)
        ≤ (n :: rest).length * treeSize (p.graph.width p.solver.maxForks) (heightOf p n) := hsum
      _ ≤ p.graph.width p.solver.maxForks *
            treeSize (p.graph.width p.solver.maxForks) (heightOf p n) :=
          Nat.mul_le_mul_right _ hfew
      _ < treeSize (p.graph.width p.solver.maxForks) (heightOf p m) := by
          rw [← hheight n List.mem_cons_self, treeSize]
          omega

theorem forestSize_append (p : Plan) (xs ys : List ExplodedNode) :
    forestSize p (xs ++ ys) = forestSize p xs + forestSize p ys := by
  rw [forestSize, List.map_append, List.sum_append]
  rfl

theorem forestSize_cons (p : Plan) (n : ExplodedNode) (rest : List ExplodedNode) :
    forestSize p (n :: rest) =
      treeSize (p.graph.width p.solver.maxForks) (heightOf p n) + forestSize p rest := by
  rw [forestSize, List.map_cons, List.sum_cons]
  rfl

/-- Every step uses up some of the room that the trees of the waiting nodes have. -/
theorem Runs.forestSize_le (hg : p.graph.Closed) {count : Nat} (h : Runs p count e e')
    (he : ∀ n ∈ e.nodes.toList, p.graph.Counted p.config.maxVisits n) :
    count + forestSize p e'.waiting ≤ forestSize p e.waiting := by
  induction h with
  | refl => rw [Nat.zero_add]
  | step first _ ih =>
    have hcounted := first.forall_nodes (fun hm h hlimit => (hm.advance hg h hlimit).1) he
    have hrest := ih hcounted
    have hlt := first.forestSize_lt hg (he _ first.head_mem)
    obtain ⟨rest, hbefore, hafter⟩ := first.waiting
    rw [hafter, forestSize_append] at hrest
    rw [hbefore, forestSize_cons]
    omega

/-- A node that waits has a tree of at least one node. -/
theorem forestSize_waiting_pos (h : e.nodes[e.steps]? = some m) : 0 < forestSize p e.waiting := by
  rw [waiting_of_head h, forestSize_cons]
  have := treeSize_pos (p.graph.width p.solver.maxForks) (heightOf p m)
  omega

end Exploration

/-- How many steps the exploration of a graph takes at most. -/
def Graph.stepBound (g : Graph) (maxVisits maxForks : Nat) : Nat :=
  Exploration.treeSize (g.width (max maxForks 1))
    (maxVisits * (g.blocks.map fun b => b.nodes.length + 1).sum)

theorem Exploration.Started.forestSize_le {g : Graph} (hg : g.Closed) {config : Config}
    {rules : List Rule} {ids : Supply} {s : State} {e : Exploration}
    (h : Exploration.Started (.of g config rules) ids s e) :
    forestSize (.of g config rules) e.waiting ≤ g.stepBound config.maxVisits config.maxForks := by
  have hwaiting : e.waiting = e.nodes.toList := by
    rw [Exploration.waiting, h.steps]
    rfl
  have hfew : e.nodes.toList.length ≤ 1 := h.reaches.few
  rw [hwaiting]
  rcases hnodes : e.nodes.toList with _ | ⟨n, _ | ⟨n', rest⟩⟩
  · exact Nat.zero_le _
  · have htotal := (h.counted hg (n := n) (by rw [hnodes]; exact List.mem_singleton.2 rfl)).2
    have hheight : heightOf (.of g config rules) n =
        config.maxVisits * (g.blocks.map fun b => b.nodes.length + 1).sum - 1 :=
      congrArg (config.maxVisits * (g.blocks.map fun b => b.nodes.length + 1).sum - ·) htotal
    rw [forestSize_cons, hheight]
    exact treeSize_pred_le (Nat.succ_pos _) _
  · rw [hnodes] at hfew
    simp at hfew

/-- Explorations end without their budget. Every node is reached at the end of a chain of nodes, and
along every chain no point occurs more often than the limit on visits allows, which bounds the
length of the chain. A walk takes a number of steps that is bounded by the graph and by the limits
on visits and forks alone, and it does not run out of a budget of as many steps. -/
theorem Walk.ends_within_stepBound {g : Graph} (hg : g.Built) (config : Config) (rules : List Rule)
    (w : Watchdog) (ids : Supply) :
    ∃ e, (Walk.new (.of g config rules) w ids).start = .ok e ∧
      (∀ n ∈ (Walk.new (.of g config rules) w ids).run.1.exploration.nodes.toList,
        ∃ rest, Exploration.Chain (.of g config rules) e (n :: rest)) ∧
      (∀ chain, Exploration.Chain (.of g config rules) e chain →
        (∀ q, (chain.map ExplodedNode.point).count q ≤ config.maxVisits) ∧
        chain.length ≤ config.maxVisits * (g.blocks.map fun b => b.nodes.length + 1).sum) ∧
      (Walk.new (.of g config rules) w ids).run.1.exploration.steps ≤
        g.stepBound config.maxVisits config.maxForks ∧
      (g.stepBound config.maxVisits config.maxForks ≤ config.maxSteps →
        (Walk.new (.of g config rules) w ids).run.2 ≠ .ok .stepBudgetExceeded) := by
  have hclosed := hg.closed
  obtain ⟨s, e, r, hstart, hs, hr, hrun, hnodes, hsteps⟩ :=
    Walk.exists_ends (p := .of g config rules) hclosed w ids
  refine ⟨e, hstart, ?_, ?_, ?_⟩
  · obtain ⟨count, e', hruns, heq⟩ := hr.exists_runs
    rw [hnodes, heq]
    exact hruns.exists_chain
  · intro chain hchain
    obtain ⟨n, rest, -, hcounted, htotal, hcounts⟩ := hchain.counts hclosed hs
    refine ⟨fun q => hcounts q ▸ hcounted.visits q, ?_⟩
    rw [← htotal]
    exact State.totalVisits_le hcounted.visits
  · rw [hrun, hsteps]
    have hbound := hs.forestSize_le hclosed
    have hruns : ∀ {count e'}, Exploration.Runs (.of g config rules) count e e' →
        e'.steps = count ∧ count + Exploration.forestSize (.of g config rules) e'.waiting ≤
          g.stepBound config.maxVisits config.maxForks := by
      intro count e' h
      refine ⟨by rw [h.steps, hs.steps, Nat.zero_add], ?_⟩
      exact Nat.le_trans (h.forestSize_le hclosed fun n hn => (hs.counted hclosed hn).1) hbound
    cases hr with
    | complete h | cancelled h =>
      obtain ⟨hcount, hle⟩ := hruns h
      exact ⟨by dsimp only; omega, by simp⟩
    | exhausted h hhead =>
      obtain ⟨hcount, hle⟩ := hruns h
      have hpos := Exploration.forestSize_waiting_pos (p := .of g config rules) hhead
      have hbudget : (Plan.of g config rules).config.maxSteps = config.maxSteps := rfl
      exact ⟨by dsimp only; omega, fun h => absurd h (by omega)⟩
    | fault h _ hhead _ _ hfault =>
      obtain ⟨hcount, hle⟩ := hruns h
      have hpos := Exploration.forestSize_waiting_pos (p := .of g config rules) hhead
      exact ⟨by dsimp only; omega, by simp⟩

/-- A method that never returns. -/
def endlessLoop : Graph where
  method := "spin"
  blocks := [⟨[⟨.nameOf, none⟩, ⟨.discard, none⟩], .jump ⟨0⟩ .plain⟩, Draft.exitBlock]
  entry := ⟨0⟩
  exit := ⟨1⟩
  parameters := []
  symbols := .empty

theorem Walk.ends_endlessLoop :
    endlessLoop.Built ∧ endlessLoop.stepBound 2 1 = 511 ∧
      (Walk.new (.of endlessLoop ⟨511, 2, 1, true⟩ []) .lazy .odd).run.2 ≠
        .ok .stepBudgetExceeded := by
  have hbuilt : endlessLoop.Built :=
    ⟨.ofBlocks "spin" [] (endlessLoop.blocks.take 1), ⟨0⟩, Draft.made_ofBlocks _ _ _, rfl⟩
  have hbound : endlessLoop.stepBound 2 1 = 511 := by decide
  obtain ⟨e, -, -, -, -, hbudget⟩ :=
    Walk.ends_within_stepBound hbuilt ⟨511, 2, 1, true⟩ [] .lazy .odd
  exact ⟨hbuilt, hbound, hbudget (Nat.le_of_eq hbound)⟩

end Pathwise
