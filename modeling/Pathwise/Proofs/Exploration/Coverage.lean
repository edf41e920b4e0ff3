import Pathwise.Proofs.Alike.Step
import Pathwise.Proofs.Exploration.Run

/-!
What a complete exploration has seen. Every chain of nodes that steps lead through, from the entry
of the method on, is followed by processed nodes that match the nodes of the chain up to the names
of unknowns. The exploration stops following a chain in one situation only: it has a node of the
chain, but along no path that may still go on to the next point of the chain, as all of them have
come by that point as often as is allowed.

This can happen to chains that have not come by that point so often themselves. Nodes are told apart
by their points and states but not by the visits of their paths, so a node that is reached again
along a path with fewer visits is not processed again, and what only that path could go on to is
not seen.
-/

namespace Pathwise

/-! ### Chains of nodes -/

/-- A chain of nodes from the entry of the method, the last one first, in which a step leads from
every node to the next one. The supply is what is left of the given one. -/
inductive Plan.Path (p : Plan) (ids : Supply) : List ExplodedNode → Supply → Prop where
  | entry {s : State} {ids' : Supply} (h : p.entryState ids = .ok (s, ids')) :
      Path p ids [⟨.start p.graph.entry, s⟩] ids'
  | step {n m : ExplodedNode} {next rest : List ExplodedNode} {ids₁ ids₂ : Supply}
      (hpath : Path p ids (m :: rest) ids₁)
      (hprocess : (p.process m ids₁).result = .ok (next, ids₂)) (hn : n ∈ next) :
      Path p ids (n :: m :: rest) ids₂

/-- How often a chain comes by a point. -/
def ExplodedNode.visitsOf (chain : List ExplodedNode) (point : ProgramPoint) : Nat :=
  (chain.map ExplodedNode.point).count point

/-- The chain comes by no point more often than is allowed. -/
def ExplodedNode.Bounded (limit : Nat) (chain : List ExplodedNode) : Prop :=
  ∀ n ∈ chain, visitsOf chain n.point ≤ limit

namespace ExplodedNode

variable {n m m' : ExplodedNode} {chain : List ExplodedNode} {limit : Nat}

instance : Decidable (Bounded limit chain) := inferInstanceAs (Decidable (∀ n ∈ chain, _))

theorem visitsOf_cons_self : visitsOf (n :: chain) n.point = visitsOf chain n.point + 1 :=
  List.count_cons_self

theorem Bounded.of_cons (h : Bounded limit (n :: chain)) : Bounded limit chain := by
  intro a ha
  exact Nat.le_trans List.count_le_count_cons (h a (List.mem_cons_of_mem _ ha))

theorem Bounded.visitsOf_lt (h : Bounded limit (n :: chain)) : visitsOf chain n.point < limit := by
  have hcount := h n List.mem_cons_self
  rw [visitsOf_cons_self] at hcount
  exact hcount

/-- Which node stands for a matching one does not depend on visits. -/
theorem Matches.of_same (h : n.Matches m) (hsame : m.marked.same m') : n.Matches m' := by
  obtain ⟨R, hR, hpoint, hstate⟩ := h
  obtain ⟨hpoint', hstate'⟩ : m.point = m'.point ∧ (m.state.markVisited m.point).same m'.state := by
    simpa [same, marked] using hsame
  have hmarked : n.state.Like R (m.state.markVisited m.point) :=
    ⟨hstate.stack, hstate.bindings, hstate.facts, hstate.back⟩
  exact ⟨R, hR, hpoint.trans hpoint', hmarked.of_same hstate'⟩

theorem Matches.point_eq (h : n.Matches m) : n.point = m.point := by
  obtain ⟨R, -, hpoint, -⟩ := h
  exact hpoint

/-- A constant has no name, so nodes that match hold the same constants. -/
theorem Matches.lookup_constant (h : n.Matches m) {id : SymbolId} {c : Constant}
    (hn : n.state.lookup id = some (.constant c)) : m.state.lookup id = some (.constant c) := by
  obtain ⟨R, -, -, hstate⟩ := h
  have hlookup := hstate.bindings id
  rw [hn] at hlookup
  cases hm : m.state.lookup id with
  | none =>
    rw [hm] at hlookup
    cases hlookup
  | some w =>
    rw [hm] at hlookup
    cases hlookup with
    | some hlike =>
      cases hlike
      rfl

end ExplodedNode

namespace Plan

variable {p : Plan} {ids ids' : Supply} {n : ExplodedNode} {chain : List ExplodedNode}

/-- Chains draw all unknowns from their supply. -/
theorem Path.within (h : p.Path ids (n :: chain) ids') :
    ∃ k, ids' = ids.after k ∧ n.state.Within ids' := by
  generalize hall : n :: chain = all at h
  induction h generalizing n chain with
  | entry hentry =>
    cases hall
    exact within_of_entryState hentry
  | step hpath hprocess hn ih =>
    cases hall
    obtain ⟨k, rfl, hm⟩ := ih rfl
    obtain ⟨k', rfl, hnext⟩ := within_of_process hm hprocess
    exact ⟨k + k', ids.after_after k k', hnext _ hn⟩

/-- The chain that takes the given turns, the last one first. A turn is the position of a node among
those that a step leads to. -/
def chain? (p : Plan) (ids : Supply) : List Nat → Option (List ExplodedNode × Supply)
  | [] =>
    match p.entryState ids with
    | .ok (s, ids) => some ([⟨.start p.graph.entry, s⟩], ids)
    | .error _ => none
  | turn :: turns =>
    match p.chain? ids turns with
    | some (m :: rest, ids) =>
      match (p.process m ids).result with
      | .ok (next, ids) => next[turn]?.map fun n => (n :: m :: rest, ids)
      | .error _ => none
    | _ => none

theorem path_of_chain? {turns : List Nat} (h : p.chain? ids turns = some (chain, ids')) :
    p.Path ids chain ids' := by
  induction turns generalizing chain ids' with
  | nil =>
    unfold chain? at h
    split at h
    · next hentry =>
      cases h
      exact .entry hentry
    · cases h
  | cons turn turns ih =>
    unfold chain? at h
    split at h
    · next hchain =>
      split at h
      · next hprocess =>
        obtain ⟨n, hn, hnext⟩ := Option.map_eq_some_iff.1 h
        cases hnext
        exact .step (ih hchain) hprocess (List.mem_of_getElem? hn)
      · cases h
    · cases h

/-- A chain with a property that can be decided, found by taking turns. -/
theorem exists_path (p : Plan) (ids : Supply) (turns : List Nat)
    (test : List ExplodedNode → Prop) [DecidablePred test]
    (h : (p.chain? ids turns).any (fun r => test r.1) = true) :
    ∃ chain ids', p.Path ids chain ids' ∧ test chain := by
  cases hr : p.chain? ids turns with
  | none =>
    rw [hr] at h
    cases h
  | some r =>
    rw [hr] at h
    exact ⟨r.1, r.2, path_of_chain? hr, of_decide_eq_true h⟩

/-- A step from the node leads to a point that the path has come by too often. -/
def Drops (p : Plan) (n : ExplodedNode) : Prop :=
  ∃ ids next ids', (p.process n ids).result = .ok (next, ids') ∧
    ∃ a ∈ next, p.config.maxVisits ≤ a.state.visitCount a.point

end Plan

namespace Exploration

variable {p : Plan} {ids : Supply} {e e' : Exploration}

/-! ### What every exploration keeps -/

/-- The nodes draw their unknowns from the supply, and what the steps from processed nodes led to
was reached, unless a path came by a point too often. -/
structure Settled (p : Plan) (ids : Supply) (e : Exploration) : Prop where
  supply : ∃ k, e.ids = ids.after k
  within : ∀ n ∈ e.nodes.toList, n.state.Within e.ids
  reached : ∀ m ∈ e.processed, ∃ k next ids', m.state.Within (ids.after k) ∧
    (p.process m (ids.after k)).result = .ok (next, ids') ∧
    ∀ n ∈ next, n.state.visitCount n.point < p.config.maxVisits →
      ∃ n' ∈ e.nodes.toList, n.marked.same n'

theorem within_marked {n : ExplodedNode} (h : n.state.Within ids) : n.marked.state.Within ids :=
  ⟨h.stack, h.bindings, h.facts, h.back⟩

theorem Started.settled {s : State} (h : Started p ids s e) : e.Settled p ids := by
  obtain ⟨k, hids, hs⟩ := Plan.within_of_entryState h.entry
  refine ⟨⟨k, hids⟩, ?_, ?_⟩
  · intro n hn
    obtain ⟨n₀, hn₀, -, rfl⟩ := h.reaches.joined n hn
    obtain rfl := List.mem_singleton.1 hn₀
    exact within_marked hs
  · intro m hm
    rw [processed, h.steps] at hm
    exact absurd hm List.not_mem_nil

theorem Progress.settled {m : ExplodedNode} {next added : List ExplodedNode}
    (h : Progress p m next added e e') (he : e.Settled p ids) : e'.Settled p ids := by
  obtain ⟨k, hids⟩ := he.supply
  have hm := he.within m h.head_mem
  obtain ⟨k', hids', hnext⟩ := Plan.within_of_process hm h.process
  have hcovered : ∀ n ∈ next, n.state.visitCount n.point < p.config.maxVisits →
      ∃ n' ∈ e'.nodes.toList, n.marked.same n' := by
    rw [h.nodes]
    exact h.reaches.covered
  refine ⟨⟨k + k', by rw [hids', hids, Supply.after_after]⟩, ?_, ?_⟩
  · intro n hn
    rw [h.nodes] at hn
    rcases List.mem_append.1 hn with hn | hn
    · rw [hids']
      exact (he.within n hn).after k'
    · obtain ⟨n₀, hn₀, -, rfl⟩ := h.reaches.joined n hn
      exact within_marked (hnext n₀ hn₀)
  · intro m' hm'
    rw [h.processed] at hm'
    rcases List.mem_append.1 hm' with hm' | hm'
    · obtain ⟨k, next', ids', hwithin, hprocess, hreached⟩ := he.reached m' hm'
      refine ⟨k, next', ids', hwithin, hprocess, fun n hn hcount => ?_⟩
      obtain ⟨n', hn', hsame⟩ := hreached n hn hcount
      exact ⟨n', h.nodes ▸ List.mem_append_left _ hn', hsame⟩
    · obtain rfl := List.mem_singleton.1 hm'
      exact ⟨k, next, e'.ids, hids ▸ hm, hids ▸ h.process, hcovered⟩

theorem mem_nodes_of_runs {count : Nat} (h : Runs p count e e') {n : ExplodedNode}
    (hn : n ∈ e.nodes.toList) : n ∈ e'.nodes.toList :=
  h.invariant (P := fun e => n ∈ e.nodes.toList)
    (fun hstep hn => hstep.nodes ▸ List.mem_append_left _ hn) hn

/-! ### Following a chain -/

/-- One of the nodes matches. -/
def Covers (nodes : List ExplodedNode) (n : ExplodedNode) : Prop := ∃ m ∈ nodes, n.Matches m

/-- The nodes follow the chain up to a node, and none of them matches the next one. Where they match
the last node that they follow, their own paths may not go on, as all of them have come by the next
point of the chain too often. The chain itself has not. -/
def CutOff (limit : Nat) (nodes chain : List ExplodedNode) : Prop :=
  ∃ later next n earlier, chain = later ++ next :: n :: earlier ∧
    (∀ a ∈ n :: earlier, Covers nodes a) ∧ ¬ Covers nodes next ∧
    ExplodedNode.visitsOf (n :: earlier) next.point < limit ∧
    ∀ m ∈ nodes, n.Matches m → limit ≤ m.state.visitCount next.point

theorem CutOff.cons {limit : Nat} {nodes chain : List ExplodedNode}
    (h : CutOff limit nodes chain) (a : ExplodedNode) : CutOff limit nodes (a :: chain) := by
  obtain ⟨later, next, n, earlier, rfl, hcut⟩ := h
  exact ⟨a :: later, next, n, earlier, rfl, hcut⟩

/-- A step from a node that is matched by a processed one leads to a matched node again, if the
path of the processed node may go there. -/
theorem Settled.follow {ids₀ ids₁ : Supply} (he : e.Settled p ids) (hids : ids.draw.Injective)
    (hids₀ : ids₀.draw.Injective) {n m a : ExplodedNode} {next : List ExplodedNode}
    (hn : n.state.Within ids₀) (hprocess : (p.process n ids₀).result = .ok (next, ids₁))
    (ha : a ∈ next) (hm : m ∈ e.processed) (hmatch : n.Matches m) :
    Covers e.nodes.toList a ∨
      p.Drops m ∧ p.config.maxVisits ≤ m.state.visitCount a.point := by
  obtain ⟨k, next', ids', hwithin, hprocess', hreached⟩ := he.reached m hm
  have hids' : (ids.after k).draw.Injective := hids
  obtain ⟨b, hb, hab⟩ :=
    Plan.matches_of_process hids₀ hids' hn hwithin hmatch hprocess hprocess' ha
  by_cases hcount : b.state.visitCount b.point < p.config.maxVisits
  · obtain ⟨b', hb', hsame⟩ := hreached b hb hcount
    exact .inl ⟨b', hb', hab.of_same hsame⟩
  · -- a step leaves the visits alone, so those of `b` are those of `m`
    have hmeets := p.process_meets m (ids.after k)
    rw [hprocess'] at hmeets
    have hvisits := (hmeets.1 b hb).visits
    refine .inr ⟨⟨_, next', ids', hprocess', b, hb, Nat.le_of_not_lt hcount⟩, ?_⟩
    rw [hab.point_eq, State.visitCount, ← hvisits]
    exact Nat.le_of_not_lt hcount

/-- The nodes of an exploration that has processed all of them follow every chain, or the chain is
cut off. -/
theorem Settled.covers_or_cutOff {ids₀ ids' : Supply} (he : e.Settled p ids)
    (hall : e.processed = e.nodes.toList) (hids : ids.draw.Injective)
    (hids₀ : ids₀.draw.Injective)
    (hentry : ∀ {s ids'}, p.entryState ids₀ = .ok (s, ids') → 0 < p.config.maxVisits →
      Covers e.nodes.toList ⟨.start p.graph.entry, s⟩)
    {chain : List ExplodedNode} (hpath : p.Path ids₀ chain ids')
    (hbound : ExplodedNode.Bounded p.config.maxVisits chain) :
    (∀ n ∈ chain, Covers e.nodes.toList n) ∨
      CutOff p.config.maxVisits e.nodes.toList chain := by
  induction hpath with
  | entry hs =>
    refine .inl fun n hn => ?_
    obtain rfl := List.mem_singleton.1 hn
    exact hentry hs (Nat.zero_lt_of_lt hbound.visitsOf_lt)
  | @step n m next rest ids₁ ids₂ hpath hprocess hn ih =>
    rcases ih hbound.of_cons with hcovered | hcut
    · by_cases hnew : Covers e.nodes.toList n
      · exact .inl (List.forall_mem_cons.2 ⟨hnew, hcovered⟩)
      · -- wherever the walk has the last node, it was refused to go on to the new one
        obtain ⟨k, rfl, hwithin⟩ := hpath.within
        have hids₁ : (ids₀.after k).draw.Injective := hids₀
        refine .inr ⟨[], n, m, rest, rfl, hcovered, hnew, hbound.visitsOf_lt, ?_⟩
        intro m' hm' hmatch
        exact ((he.follow hids hids₁ hwithin hprocess hn (hall ▸ hm') hmatch).resolve_left hnew).2
    · exact .inr (hcut.cons n)

/-- The entry of the method was reached, whatever the supply. -/
theorem Started.covers_entry {ids₀ ids' : Supply} {s t : State} (h : Started p ids t e)
    (hids : ids.draw.Injective) (hids₀ : ids₀.draw.Injective)
    (hs : p.entryState ids₀ = .ok (s, ids')) (hlimit : 0 < p.config.maxVisits) :
    Covers e.nodes.toList ⟨.start p.graph.entry, s⟩ := by
  have hcount : t.visitCount (.start p.graph.entry) < p.config.maxVisits := by
    rw [h.visitCount]
    exact hlimit
  obtain ⟨m, hm, hsame⟩ := h.reaches.covered ⟨_, t⟩ (List.mem_singleton.2 rfl) hcount
  exact ⟨m, hm, (Plan.matches_of_entryState hids₀ hids hs h.entry _).of_same hsame⟩

end Exploration

/-! ### Complete walks -/

/-- A complete walk has processed every node of a chain that comes by no point too often, up to the
names of unknowns, or the chain is cut off: at the first node of it that was not processed, every
path on which the walk has come to the node before has used up its visits to this point. -/
theorem Walk.covered_or_cutOff_of_complete {p : Plan} {w : Watchdog} {ids ids₀ ids' : Supply}
    (hids : ids.draw.Injective) (hids₀ : ids₀.draw.Injective)
    (hcomplete : (Walk.new p w ids).run.2 = .ok .complete) {chain : List ExplodedNode}
    (hpath : p.Path ids₀ chain ids') (hbound : ExplodedNode.Bounded p.config.maxVisits chain) :
    (∀ n ∈ chain, Exploration.Covers (Walk.new p w ids).run.1.exploration.processed n) ∨
      Exploration.CutOff p.config.maxVisits (Walk.new p w ids).run.1.exploration.processed
        chain := by
  obtain ⟨t, e, e', count, hstarted, hruns, hall, hprocessed⟩ := runs_of_complete hcomplete
  have hsettled : e'.Settled p ids :=
    hruns.invariant (P := fun e => e.Settled p ids) (fun hstep => hstep.settled) hstarted.settled
  rw [hprocessed]
  refine hsettled.covers_or_cutOff hall hids hids₀ (fun hs hlimit => ?_) hpath hbound
  obtain ⟨m, hm, hmatch⟩ := hstarted.covers_entry hids hids₀ hs hlimit
  exact ⟨m, Exploration.mem_nodes_of_runs hruns hm, hmatch⟩

/-- A method that reads its parameter any number of times. -/
def readLoop : Graph where
  method := "loop"
  blocks := [⟨[⟨.read ⟨0⟩ false, none⟩, ⟨.discard, none⟩], .fork [⟨0⟩, ⟨1⟩]⟩, Draft.exitBlock]
  entry := ⟨0⟩
  exit := ⟨1⟩
  parameters := [⟨0⟩]
  symbols := ⟨[⟨"a", .parameter, ⟨"A", .reference, false, false⟩, false⟩]⟩

/-- A chain that goes round the loop twice is covered by nodes of the first round, although it names
the parameter's value differently. -/
theorem Walk.covers_readLoop :
    ∃ chain ids', (Walk.new (.of readLoop .default []) .lazy .odd).run.2 = .ok .complete ∧
      (Plan.of readLoop .default []).Path ⟨fun n => 2 * n, 0⟩ chain ids' ∧
      ExplodedNode.Bounded 2 chain ∧ chain.length = 7 ∧
      ∀ n ∈ chain, Exploration.Covers
        (Walk.new (.of readLoop .default []) .lazy .odd).run.1.exploration.processed n := by
  have hcomplete : (Walk.new (.of readLoop .default []) .lazy .odd).run.2 = .ok .complete := by
    decide +kernel
  obtain ⟨chain, ids', hpath, hbound, hlength, hvisits⟩ := Plan.exists_path
    (.of readLoop .default []) ⟨fun n => 2 * n, 0⟩ [1, 0, 0, 0, 0, 0]
    (fun chain => ExplodedNode.Bounded 2 chain ∧ chain.length = 7 ∧
      ∀ m ∈ (Walk.new (.of readLoop .default []) .lazy .odd).run.1.exploration.processed,
        ∀ a ∈ chain, m.state.visitCount a.point < 2) (by decide +kernel)
  refine ⟨chain, ids', hcomplete, hpath, hbound, hlength, ?_⟩
  have hodd : Supply.odd.draw.Injective := fun i j (h : 2 * i + 1 = 2 * j + 1) => by omega
  have heven : (fun n => 2 * n : Nat → Identity).Injective := fun i j (h : 2 * i = 2 * j) => by
    omega
  rcases Walk.covered_or_cutOff_of_complete hodd heven hcomplete hpath hbound with hcovered | hcut
  · exact hcovered
  · obtain ⟨later, next, n, earlier, rfl, hcovered, -, -, hcount⟩ := hcut
    obtain ⟨m, hm, hmatch⟩ := hcovered n List.mem_cons_self
    exact absurd (hvisits m hm next (by simp)) (Nat.not_lt.2 (hcount m hm hmatch))

/-- A method with a detour. Both ways to the third block hold the same object in the variable, and
the shorter one has been in the first block. -/
def detour : Graph where
  method := "detour"
  blocks :=
    [⟨[⟨.self, none⟩, ⟨.declaration ⟨0⟩ true, none⟩], .fork [⟨1⟩, ⟨2⟩]⟩,
     ⟨[⟨.read ⟨0⟩ false, none⟩, ⟨.methodGroup "M" .receiver, none⟩, ⟨.discard, none⟩],
       .jump ⟨3⟩ .plain⟩,
     ⟨[⟨.self, none⟩, ⟨.discard, none⟩, ⟨.self, none⟩, ⟨.discard, none⟩], .jump ⟨3⟩ .plain⟩,
     ⟨[⟨.literal .null, none⟩, ⟨.assignment (.symbol ⟨0⟩) .simple, none⟩, ⟨.discard, none⟩],
       .jump ⟨1⟩ .plain⟩,
     Draft.exitBlock]
  entry := ⟨0⟩
  exit := ⟨4⟩
  parameters := []
  symbols := ⟨[⟨"x", .localVariable, ⟨"T", .reference, false, false⟩, false⟩]⟩

/-- The exploration of the detour in which a path comes by every point once at most. -/
def detourPlan : Plan := .of detour { Config.default with maxVisits := 1 } [.nullDereference]

/-- Not every node of a chain that comes by no point too often is processed in a complete walk. -/
theorem misses_bounded_path :
    ∃ chain ids', (Walk.new detourPlan .lazy .odd).run.2 = .ok .complete ∧
      detourPlan.Path .odd chain ids' ∧ ExplodedNode.Bounded 1 chain ∧
      ∃ n ∈ chain, ¬ Exploration.Covers
        (Walk.new detourPlan .lazy .odd).run.1.exploration.processed n := by
  -- the chain takes the longer way, and comes to the first block with nothing in the variable
  obtain ⟨chain, ids', hpath, hbound, n, hn, hnull, hheld⟩ := Plan.exists_path detourPlan .odd
    [0, 0, 0, 0, 0, 0, 0, 0, 0, 1, 0, 0]
    (fun chain => ExplodedNode.Bounded 1 chain ∧ ∃ n ∈ chain, n.state.lookup ⟨0⟩ = some .null ∧
      ∀ m ∈ (Walk.new detourPlan .lazy .odd).run.1.exploration.processed,
        m.point = n.point → m.state.lookup ⟨0⟩ ≠ some .null) (by decide +kernel)
  refine ⟨chain, ids', by decide +kernel, hpath, hbound, n, hn, ?_⟩
  rintro ⟨m, hm, hmatch⟩
  exact hheld m hm hmatch.point_eq.symm (hmatch.lookup_constant hnull)

end Pathwise
