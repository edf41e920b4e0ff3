import Pathwise.Proofs.Alike.Ledger
import Pathwise.Proofs.Alike.Step
import Pathwise.Proofs.Exploration.Run

/-!
Walks do not depend on the identities of unknowns. Two walks that differ in their supplies only go
side by side: they reach nodes that are alike in the same order, ask their watchdogs at the same
times, and end alike, after the same number of steps. Step by step they publish the same findings.

Only the reports about locks that are held where the method is left may come in another order, and
only those that one and the same step publishes. Which of two locks comes first in a state is a
question of their identities.
-/

namespace Pathwise

open Relator (BiUnique)

/-! ### Batches of findings -/

/-- The findings that one step publishes, with the point of the node that it processes. -/
abbrev Batch := ProgramPoint × List Finding

namespace Exploration

/-- What processing a node publishes. -/
def batch (p : Plan) (e : Exploration) (n : ExplodedNode) : Batch :=
  (n.point, (e.ledger.published (p.process n e.ids).observations).map Prod.fst)

/-- What an exploration publishes, step by step. -/
def batches (p : Plan) (w : Watchdog) : (budget : Nat) → Exploration → List Batch
  | 0, _ => []
  | budget + 1, e =>
    match e.nodes[e.steps]? with
    | none => []
    | some n =>
      match e.poll w with
      | (true, _) => []
      | (false, e) =>
        match e.advance p n with
        | (_, .error _) => [e.batch p n]
        | (e', .ok ()) => e.batch p n :: batches p w budget e'

theorem findings_advance (p : Plan) (e : Exploration) (n : ExplodedNode) :
    (e.advance p n).1.ledger.findings = e.ledger.findings ++ (e.batch p n).2 := by
  rw [ledger_advance, Ledger.findings, FindingLog.findings, Ledger.entries_noteAll,
    List.map_append]
  rfl

/-- The findings of an exploration are those of its steps, in order. -/
theorem findings_run (p : Plan) (w : Watchdog) (budget : Nat) (e : Exploration) :
    (run p w budget e).1.ledger.findings =
      e.ledger.findings ++ (batches p w budget e).flatMap Prod.snd := by
  induction budget generalizing e with
  | zero =>
    unfold run
    split <;> simp [batches]
  | succ budget ih =>
    rw [run, batches]
    cases e.nodes[e.steps]? with
    | none => simp
    | some n =>
      obtain ⟨asked, hasked⟩ := poll_eq w e
      cases hpoll : e.poll w with
      | mk stop e₁ =>
        obtain rfl : e₁ = { e with asked } := by rw [← hasked, hpoll]
        have hfindings := findings_advance p { e with asked } n
        cases stop with
        | true => simp
        | false =>
          dsimp only
          cases hadvance : { e with asked }.advance p n with
          | mk e₂ result =>
            rw [hadvance] at hfindings
            cases result with
            | error fault => simpa using hfindings
            | ok =>
              dsimp only at hfindings ⊢
              rw [ih, hfindings, List.flatMap_cons, List.append_assoc]

end Exploration

/-- The batches are the same, or hold the same reports about locks that are held where the method is
left, in some order. -/
def Graph.SameBatch (g : Graph) (b b' : Batch) : Prop :=
  b.1 = b'.1 ∧ (b.2 = b'.2 ∨
    g.Exits b.1 ∧ b.2.Perm b'.2 ∧ ∀ f ∈ b.2, f.rule = LockRelease.rule)

/-! ### Explorations side by side -/

/-- Nodes that are alike, with paths that have been to the same points. -/
structure ExplodedNode.Twin (R : Identity → Identity → Prop) (n m : ExplodedNode) : Prop where
  like : n.Like R m
  visits : n.state.visits = m.state.visits

namespace ExplodedNode.Twin

variable {R S : Identity → Identity → Prop} {n m n' m' : ExplodedNode}

theorem mono (hsub : ∀ x y, R x y → S x y) (h : n.Twin R m) : n.Twin S m :=
  ⟨h.like.mono hsub, h.visits⟩

theorem atVisitLimit_eq (h : n.Twin R m) (limit : Nat) :
    n.state.atVisitLimit n.point limit = m.state.atVisitLimit m.point limit := by
  rw [State.atVisitLimit, State.atVisitLimit, State.visitCount, State.visitCount, h.visits,
    h.like.point]

theorem marked (h : n.Twin R m) : n.marked.Twin R m.marked := by
  refine ⟨⟨h.like.point, ?_⟩, ?_⟩
  · exact ⟨h.like.state.stack, h.like.state.bindings, h.like.state.facts, h.like.state.back⟩
  · show n.state.visits.insert n.point _ = m.state.visits.insert m.point _
    rw [State.visitCount, State.visitCount, h.visits, h.like.point]

theorem same_eq (hR : BiUnique R) (h : n.Twin R m) (h' : n'.Twin R m') :
    n.same n' = m.same m' := by
  rw [same, same, h.like.point, h'.like.point, h.like.state.same_eq hR h'.like.state]

end ExplodedNode.Twin

/-- The explorations have made the same steps, with the identities of unknowns paired. -/
structure Exploration.Alike (P : Pairing) (k : Nat) (e e' : Exploration) : Prop where
  nodes : List.Forall₂ (ExplodedNode.Twin (P.Pairs k)) e.nodes.toList e'.nodes.toList
  steps : e.steps = e'.steps
  ledger : e.ledger.Like (P.Pairs k) e'.ledger
  left : e.ids = P.left.after k
  right : e'.ids = P.right.after k
  asked : e.asked = e'.asked

namespace Exploration

open Pairing

variable {P : Pairing} {k : Nat} {e e' : Exploration} {n m : ExplodedNode}

namespace Alike

theorem head (h : e.Alike P k e') :
    Option.Rel (ExplodedNode.Twin (P.Pairs k)) e.nodes[e.steps]? e'.nodes[e'.steps]? := by
  rw [← Array.getElem?_toList, ← Array.getElem?_toList, h.steps]
  exact optionRel_getElem? h.nodes _

theorem poll (h : e.Alike P k e') (w : Watchdog) :
    (e.poll w).1 = (e'.poll w).1 ∧ (e.poll w).2.Alike P k (e'.poll w).2 := by
  unfold Exploration.poll
  rw [h.steps, h.asked]
  split
  · exact ⟨rfl, h.nodes, rfl, h.ledger, h.left, h.right, rfl⟩
  · exact ⟨rfl, h⟩

theorem reach (h : e.Alike P k e') (limit : Nat) (hn : n.Twin (P.Pairs k) m) :
    (e.reach limit n).Alike P k (e'.reach limit m) := by
  have hany : e.nodes.any n.marked.same = e'.nodes.any m.marked.same := by
    rw [← Array.any_toList, ← Array.any_toList]
    exact any_eq_of_forall₂ h.nodes fun _ _ hab => hn.marked.same_eq (P.pairs_biUnique k) hab
  unfold Exploration.reach
  rw [hn.atVisitLimit_eq limit]
  split
  · exact h
  · show Exploration.Alike P k (if e.nodes.any n.marked.same then e else _)
      (if e'.nodes.any m.marked.same then e' else _)
    rw [hany]
    split
    · exact h
    · refine ⟨?_, h.steps, h.ledger, h.left, h.right, h.asked⟩
      rw [Array.toList_push, Array.toList_push]
      exact List.rel_append h.nodes (.cons hn.marked .nil)

theorem foldl_reach (h : e.Alike P k e') (limit : Nat) {next next' : List ExplodedNode}
    (hnext : List.Forall₂ (ExplodedNode.Twin (P.Pairs k)) next next') :
    (next.foldl (Exploration.reach limit) e).Alike P k
      (next'.foldl (Exploration.reach limit) e') :=
  List.rel_foldl (fun _ _ h _ _ hn => h.reach limit hn) h hnext

end Alike

/-- A step leads from nodes that are alike to nodes that are alike, along paths that have been to
the same points. -/
theorem twins_of_process (p : Plan) (h : n.Twin (P.Pairs k) m) :
    Agree (P.Drawn k fun k' => List.Forall₂ (ExplodedNode.Twin (P.Pairs k')))
      (p.process n (P.left.after k)).result (p.process m (P.right.after k)).result := by
  have hn := p.process_meets n (P.left.after k)
  have hm := p.process_meets m (P.right.after k)
  obtain ⟨fault, hs, ht⟩ | ⟨r, r', hs, ht, k', hk, hids, hids', hlike⟩ :=
    (p.process_alike h.like).cases
  · rw [hs, ht]
    exact .error fault
  · rw [hs] at hn
    rw [ht] at hm
    rw [hs, ht]
    refine .ok ⟨k', hk, hids, hids', ?_⟩
    refine forall₂_imp_of_mem hlike fun a ha b hb hab => ⟨hab, ?_⟩
    rw [(hn.1 a ha).visits, (hm.1 b hb).visits, h.visits]

theorem map_fst_eq {R : Identity → Identity → Prop} {xs ys : List LogEntry}
    (h : List.Forall₂ (LogEntry.Like R) xs ys) : xs.map Prod.fst = ys.map Prod.fst := by
  induction h with
  | nil => rfl
  | cons hxy _ ih => rw [List.map_cons, List.map_cons, hxy.1, ih]

/-- Processing nodes that are alike publishes the same. -/
theorem Alike.batch (p : Plan) (h : e.Alike P k e') (hn : n.Twin (P.Pairs k) m) :
    (e.noted p n).ledger.Like (P.Pairs k) (e'.noted p m).ledger ∧
      p.graph.SameBatch (e.batch p n) (e'.batch p m) := by
  have hR := P.pairs_biUnique k
  have hpoint := hn.like.point
  by_cases hexit : p.graph.Exits n.point
  · obtain ⟨span, hprocess⟩ := p.process_of_exits hexit
    have hleft : (p.process n e.ids).observations =
        Rule.exit p.rules (p.site n.point span) n.state :=
      congrArg Step.observations (hprocess n.state e.ids)
    have hright : (p.process m e'.ids).observations =
        Rule.exit p.rules (p.site n.point span) m.state := by
      rw [show m = ⟨n.point, m.state⟩ by rw [hpoint]]
      exact congrArg Step.observations (hprocess m.state e'.ids)
    obtain ⟨hlike, mid, hperm, hmid⟩ :=
      h.ledger.noteAll_exit hR p.rules (p.site n.point span) hn.like.state
    rw [noted, noted, Exploration.batch, Exploration.batch, hleft, hright]
    refine ⟨hlike, hpoint, .inr ⟨hexit, ?_, ?_⟩⟩
    · rw [← map_fst_eq hmid]
      exact hperm.map Prod.fst
    · intro f hf
      obtain ⟨x, hx, rfl⟩ := List.mem_map.1 hf
      obtain ⟨⟨v, -, a, -, rfl⟩, -⟩ :=
        ((Ledger.published_leaks (fun _ => Rule.atExit_of_mem_exit) e.ledger).2 x).1 hx
      rfl
  · have hstep := p.process_alike_of_not_exits hexit hn.like
    rw [← h.left, ← h.right] at hstep
    obtain ⟨hlike, hpublished⟩ := h.ledger.noteAll hR hstep.observations
    exact ⟨hlike, hpoint, .inl (map_fst_eq hpublished)⟩

theorem Alike.mono {k' : Nat} (hk : k ≤ k') (h : e.Alike P k e') {ids ids' : Supply}
    (hids : ids = P.left.after k') (hids' : ids' = P.right.after k') :
    Exploration.Alike P k' { e with ids } { e' with ids := ids' } :=
  ⟨h.nodes.imp fun _ _ hn => hn.mono (pairs_mono hk), h.steps, h.ledger.mono (pairs_mono hk), hids,
    hids', h.asked⟩

/-- Steps side by side. -/
theorem Alike.advance (p : Plan) (h : e.Alike P k e') (hn : n.Twin (P.Pairs k) m) :
    (e.advance p n).2 = (e'.advance p m).2 ∧
      ∃ k', (e.advance p n).1.Alike P k' (e'.advance p m).1 := by
  have hnoted : (e.noted p n).Alike P k (e'.noted p m) :=
    ⟨h.nodes, congrArg Nat.succ h.steps, (h.batch p hn).1, h.left, h.right, h.asked⟩
  have htwins := twins_of_process p hn
  rw [← h.left, ← h.right] at htwins
  obtain ⟨fault, hs, ht⟩ | ⟨⟨next, ids⟩, ⟨next', ids'⟩, hs, ht, k', hk, hids, hids', hnext⟩ :=
    htwins.cases
  · rw [advance_of_error hs, advance_of_error ht]
    exact ⟨rfl, k, hnoted⟩
  · rw [advance_of_ok hs, advance_of_ok ht]
    exact ⟨rfl, k', (hnoted.mono hk hids hids').foldl_reach _ hnext⟩

/-- Explorations side by side end alike, and publish the same step by step. -/
theorem Alike.run (p : Plan) (w : Watchdog) (budget : Nat) (h : e.Alike P k e') :
    (Exploration.run p w budget e).2 = (Exploration.run p w budget e').2 ∧
      (∃ k', (Exploration.run p w budget e).1.Alike P k' (Exploration.run p w budget e').1) ∧
      List.Forall₂ p.graph.SameBatch (batches p w budget e) (batches p w budget e') := by
  induction budget generalizing k e e' with
  | zero =>
    rw [Exploration.run, Exploration.run]
    obtain ⟨hs, ht⟩ | ⟨n, m, hs, ht, hn⟩ := optionRel_cases h.head
    · rw [hs, ht]
      exact ⟨rfl, ⟨k, h⟩, .nil⟩
    · rw [hs, ht]
      exact ⟨rfl, ⟨k, h⟩, .nil⟩
  | succ budget ih =>
    rw [Exploration.run, Exploration.run, batches, batches]
    obtain ⟨hs, ht⟩ | ⟨n, m, hs, ht, hn⟩ := optionRel_cases h.head
    · rw [hs, ht]
      exact ⟨rfl, ⟨k, h⟩, .nil⟩
    rw [hs, ht]
    obtain ⟨hstop, hpoll⟩ := h.poll w
    cases hs : e.poll w with
    | mk stop e₁ =>
      cases ht : e'.poll w with
      | mk stop' e₁' =>
        rw [hs, ht] at hstop hpoll
        dsimp only at hstop hpoll
        subst hstop
        cases stop with
        | true => exact ⟨rfl, ⟨k, hpoll⟩, .nil⟩
        | false =>
          have hbatch := (hpoll.batch p hn).2
          obtain ⟨hresult, k', hadvance⟩ := hpoll.advance p hn
          dsimp only
          cases hs : e₁.advance p n with
          | mk e₂ result =>
            cases ht : e₁'.advance p m with
            | mk e₂' result' =>
              rw [hs, ht] at hresult hadvance
              dsimp only at hresult hadvance
              subst hresult
              cases result with
              | error fault => exact ⟨by rw [hn.like.point], ⟨k', hadvance⟩, .cons hbatch .nil⟩
              | ok =>
                obtain ⟨hend, hlike, hrest⟩ := ih hadvance
                exact ⟨hend, hlike, .cons hbatch hrest⟩

end Exploration

/-! ### Walks side by side -/

namespace Walk

/-- What a walk publishes, step by step. -/
def batches (p : Plan) (w : Watchdog) (ids : Supply) : List Batch :=
  match (new p w ids).start with
  | .error _ => []
  | .ok e => e.batches p w p.config.maxSteps

/-- The walks end alike after the same number of steps, and publish the same findings step by step,
except that reports about held locks may change places within a step that leaves the method. What is
said at the end is the same. -/
structure Agrees (p : Plan) (w : Watchdog) (ids ids' : Supply) : Prop where
  result : (new p w ids).run.2 = (new p w ids').run.2
  steps : (new p w ids).run.1.exploration.steps = (new p w ids').run.1.exploration.steps
  batches : List.Forall₂ p.graph.SameBatch (batches p w ids) (batches p w ids')
  findings : ∃ closing,
    (new p w ids).run.1.findings = (Walk.batches p w ids).flatMap Prod.snd ++ closing ∧
    (new p w ids').run.1.findings = (Walk.batches p w ids').flatMap Prod.snd ++ closing

/-- Explorations that start alike end alike. -/
theorem agrees_of_alike {p : Plan} {w : Watchdog} {ids ids' : Supply} {P : Pairing} {k : Nat}
    {e e' : Exploration} (hs : (new p w ids).start = .ok e) (ht : (new p w ids').start = .ok e')
    (h : e.Alike P k e') : Agrees p w ids ids' := by
  obtain ⟨hresult, hexploration⟩ := run_of_start hs
  obtain ⟨hresult', hexploration'⟩ := run_of_start ht
  obtain ⟨heq, ⟨k', hlike⟩, hbatches⟩ := h.run p w p.config.maxSteps
  have hrun := e.findings_run p w p.config.maxSteps
  have hrun' := e'.findings_run p w p.config.maxSteps
  rw [ledger_of_start hs, show Ledger.empty.findings = [] from rfl, List.nil_append] at hrun
  rw [ledger_of_start ht, show Ledger.empty.findings = [] from rfl, List.nil_append] at hrun'
  refine ⟨by rw [hresult, hresult', heq], ?_, ?_, ?_⟩
  · rw [hexploration, hexploration']
    exact hlike.steps
  · simpa only [batches, hs, ht] using hbatches
  · simp only [batches, hs, ht, findings, hexploration, hexploration']
    cases hr : e.run p w p.config.maxSteps with
    | mk e₁ result =>
      cases hr' : e'.run p w p.config.maxSteps with
      | mk e₁' result' =>
        rw [hr, hr'] at heq hlike
        rw [hr] at hrun
        rw [hr'] at hrun'
        dsimp only at heq hlike
        subst heq
        cases result with
        | error fault => exact ⟨[], by simpa [closingLedger] using hrun,
            by simpa [closingLedger] using hrun'⟩
        | ok completion =>
          obtain ⟨closing, hl, hl', -⟩ := Ledger.growAlike_finish (P.pairs_biUnique k')
            hlike.ledger p.rules (.start p.graph.entry) completion
          exact ⟨closing.map Prod.fst, by rw [← hrun]; exact hl.findings,
            by rw [← hrun']; exact hl'.findings⟩

/-- Walks whose supplies do not repeat themselves agree, whatever the supplies. -/
theorem agrees_of_injective (p : Plan) (w : Watchdog) {ids ids' : Supply}
    (hids : ids.draw.Injective) (hids' : ids'.draw.Injective) : Agrees p w ids ids' := by
  let P := Pairing.ofKnown hids hids' (fun _ _ => False)
    ⟨fun _ _ _ h => h.elim, fun _ _ _ h => h.elim⟩ fun _ _ h => h.elim
  have hstart := start_new p w ids
  have hstart' := start_new p w ids'
  obtain ⟨fault, hs, ht⟩ | ⟨r, r', hs, ht, k, -, hr, hr', hlike⟩ :=
    (p.entryState_alike (P := P)).cases
  · rw [show p.entryState ids = .error fault from hs] at hstart
    rw [show p.entryState ids' = .error fault from ht] at hstart'
    obtain ⟨hresult, hexploration⟩ := run_of_start_error hstart
    obtain ⟨hresult', hexploration'⟩ := run_of_start_error hstart'
    refine ⟨hresult.trans hresult'.symm, by rw [hexploration, hexploration']; rfl, ?_, [], ?_⟩
    · simp only [batches, hstart, hstart']
      exact .nil
    · simp only [batches, hstart, hstart', findings, hexploration, hexploration']
      exact ⟨rfl, rfl⟩
  · have hvisits := p.entryState_meets ids
    have hvisits' := p.entryState_meets ids'
    rw [show p.entryState ids = .ok r from hs] at hstart hvisits
    rw [show p.entryState ids' = .ok r' from ht] at hstart' hvisits'
    have hempty : (Exploration.empty r.2).Alike P k (Exploration.empty r'.2) :=
      ⟨.nil, rfl, .empty _, hr, hr', rfl⟩
    exact agrees_of_alike hstart hstart' (hempty.reach p.config.maxVisits
      ⟨⟨rfl, hlike⟩, hvisits.2.trans hvisits'.2.symm⟩)

/-- The call that takes the lock on top of the stack. -/
def takeLock : List Node :=
  [⟨.methodGroup "Enter" .receiver, none⟩,
   ⟨.invocation ⟨"Enter", .lockAcquire, false, ⟨"void", .reference, false, false⟩, [], false, []⟩ 0,
     none⟩,
   ⟨.discard, none⟩]

/-- A method that takes two locks and releases none. -/
def twoLocks : Graph where
  method := "both"
  blocks :=
    [⟨⟨.read ⟨0⟩ false, none⟩ :: takeLock ++ ⟨.read ⟨1⟩ false, none⟩ :: takeLock, .jump ⟨1⟩ .plain⟩,
     Draft.exitBlock]
  entry := ⟨0⟩
  exit := ⟨1⟩
  parameters := [⟨0⟩, ⟨1⟩]
  symbols := ⟨["a", "b"].map fun name =>
    ⟨name, .parameter, ⟨"L", .reference, false, false⟩, false⟩⟩

/-- The natural numbers, with the first two swapped. -/
def swapped : Supply := ⟨fun n => if n < 2 then 1 - n else n, 0⟩

/-- The two locks are reported in the order of their identities, and still the walks agree. -/
theorem agrees_twoLocks :
    (new (.of twoLocks .default Rule.defaults) .lazy .odd).run.1.findings.map Finding.arguments =
        [["a"], ["b"]] ∧
      (new (.of twoLocks .default Rule.defaults) .lazy swapped).run.1.findings.map
        Finding.arguments = [["b"], ["a"]] ∧
      Agrees (.of twoLocks .default Rule.defaults) .lazy .odd swapped := by
  have hodd : Supply.odd.draw.Injective := fun i j (h : 2 * i + 1 = 2 * j + 1) => by omega
  have hswapped : swapped.draw.Injective := by
    intro i j h
    have h : (if i < 2 then 1 - i else i) = if j < 2 then 1 - j else j := h
    split at h <;> split at h <;> omega
  exact ⟨by decide +kernel, by decide +kernel, agrees_of_injective _ _ hodd hswapped⟩

end Walk

end Pathwise
