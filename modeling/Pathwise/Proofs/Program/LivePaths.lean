import Mathlib.Data.List.Chain
import Pathwise.Proofs.Program.Sweeps

/-!
Live variables are those that a path reads. A path is a list of blocks, each of which may come right
after the one before it. It reads a symbol if its last block reads the symbol before writing it and
no block before the last writes it, `Graph.ReadPath`.

A path is either a single block or an edge in front of a path. Rounds follow paths in the same way:
what `n` rounds find is read by a path, and what a path reads is found once the rounds have settled.
Hence a tracked symbol is live on entry to a block exactly if a path from the block reads it, and
live on exit exactly if a path from one of its successors does.
-/

namespace Pathwise

variable {g : Graph} {b : BlockId} {block : Block} {s : SymbolId}

/-! ### Reads and writes -/

/-- The instruction depends on what the symbol holds. -/
inductive Instruction.Reads (s : SymbolId) : Instruction → Prop where
  | read (byReference : Bool) : Reads s (.read s byReference)
  /-- The assignment makes the new value from the old one. -/
  | combine {kind : AssignmentKind} (h : kind ≠ .simple) : Reads s (.assignment (.symbol s) kind)

/-- What the symbol held is gone after the instruction. -/
inductive Instruction.Writes (s : SymbolId) : Instruction → Prop where
  | declaration (initialized : Bool) : Writes s (.declaration s initialized)
  | assignment (kind : AssignmentKind) : Writes s (.assignment (.symbol s) kind)
  | isPattern {pattern : Pattern} (h : s ∈ pattern.designatedSymbols) :
      Writes s (.isPattern pattern)

namespace Instruction

variable {i : Instruction}

theorem mem_uses_iff : s ∈ i.uses ↔ i.Reads s := by
  constructor
  · intro h
    unfold uses at h
    split at h
    · rw [List.mem_singleton] at h
      exact h ▸ .read _
    · simp at h
    · next hkind =>
      rw [List.mem_singleton] at h
      exact h ▸ .combine hkind
    · simp at h
  · rintro (_ | ⟨hkind⟩)
    · exact List.mem_singleton_self s
    · unfold uses
      split <;> simp_all

theorem mem_defines_iff : s ∈ i.defines ↔ i.Writes s := by
  constructor
  · intro h
    unfold defines at h
    split at h
    · rw [List.mem_singleton] at h
      exact h ▸ .declaration _
    · rw [List.mem_singleton] at h
      exact h ▸ .assignment _
    · exact .isPattern h
    · simp at h
  · rintro (_ | _ | h)
    · exact List.mem_singleton_self s
    · exact List.mem_singleton_self s
    · exact h

end Instruction

namespace Block

/-- A node of the block reads the symbol, and no node before it writes it. -/
def Exposes (b : Block) (s : SymbolId) : Prop :=
  ∃ before node after, b.nodes = before ++ node :: after ∧ node.instruction.Reads s ∧
    ∀ earlier ∈ before, ¬ earlier.instruction.Writes s

/-- A node of the block, or its case label, writes the symbol. -/
def Overwrites (b : Block) (s : SymbolId) : Prop :=
  (∃ node ∈ b.nodes, node.instruction.Writes s) ∨
    ∃ pattern onTrue onFalse, b.terminator = .branch (.caseLabel pattern) onTrue onFalse ∧
      s ∈ pattern.designatedSymbols

theorem readsFirst_iff {nodes : List Node} :
    readsFirst s nodes ↔ ∃ before node after, nodes = before ++ node :: after ∧
      node.instruction.Reads s ∧ ∀ earlier ∈ before, ¬ earlier.instruction.Writes s := by
  induction nodes with
  | nil => simp [readsFirst]
  | cons node rest ih =>
    rw [readsFirst, Bool.or_eq_true, Bool.and_eq_true, ih, List.contains_iff_mem,
      Instruction.mem_uses_iff, Bool.not_eq_true', Bool.eq_false_iff, ne_eq, List.contains_iff_mem,
      Instruction.mem_defines_iff]
    constructor
    · rintro (hreads | ⟨hwrites, before, read, after, rfl, hreads, hbefore⟩)
      · exact ⟨[], node, rest, rfl, hreads, by simp⟩
      · exact ⟨node :: before, read, after, rfl, hreads, by simpa using ⟨hwrites, hbefore⟩⟩
    · rintro ⟨before, read, after, hnodes, hreads, hbefore⟩
      cases before with
      | nil =>
        obtain ⟨rfl, rfl⟩ := List.cons_eq_cons.1 hnodes
        exact .inl hreads
      | cons first before =>
        obtain ⟨rfl, rfl⟩ := List.cons_eq_cons.1 hnodes
        rw [List.forall_mem_cons] at hbefore
        exact .inr ⟨hbefore.1, before, read, after, rfl, hreads, hbefore.2⟩

theorem exposes_iff : block.exposes s ↔ block.Exposes s := readsFirst_iff

theorem mem_terminator_defines_iff {t : Terminator} :
    s ∈ t.defines ↔ ∃ pattern onTrue onFalse, t = .branch (.caseLabel pattern) onTrue onFalse ∧
      s ∈ pattern.designatedSymbols := by
  unfold Terminator.defines
  split <;> simp_all

theorem defines_iff : block.defines s ↔ block.Overwrites s := by
  simp [defines, Overwrites, Instruction.mem_defines_iff, mem_terminator_defines_iff]

end Block

/-! ### Paths -/

namespace Graph

/-- The symbol is a local variable or a parameter that no closure captures. -/
def Tracks (g : Graph) (s : SymbolId) : Prop :=
  ∃ symbol, g.symbols.get? s = some symbol ∧ symbol.isLocalOrParameter ∧ symbol.captured = false

theorem mem_trackedSymbols : s ∈ g.trackedSymbols ↔ g.Tracks s := by
  rw [trackedSymbols, List.mem_filter]
  constructor
  · rintro ⟨-, hany⟩
    obtain ⟨symbol, hget, htest⟩ := (Option.any_eq_true _ _).1 hany
    rw [Bool.and_eq_true, Bool.not_eq_true'] at htest
    exact ⟨symbol, hget, htest⟩
  · rintro ⟨symbol, hget, hlocal, hcaptured⟩
    have hindex : s.index < g.symbols.size := (List.getElem?_eq_some_iff.1 hget).1
    refine ⟨List.mem_map.2 ⟨s.index, List.mem_range.2 hindex, rfl⟩, ?_⟩
    simp [hget, hlocal, hcaptured]

/-- Control may go from the one block to the other. -/
def Edge (g : Graph) (a b : BlockId) : Prop :=
  ∃ block, g.block? a = some block ∧ b ∈ block.terminator.successors

/-- The path leads along edges, over blocks that do not write the symbol, to a block that reads it
before writing it. -/
structure ReadPath (g : Graph) (s : SymbolId) (path : List BlockId) : Prop where
  edges : path.IsChain g.Edge
  reads : ∃ through last block, path = through ++ [last] ∧
    g.block? last = some block ∧ block.Exposes s ∧
    ∀ id ∈ through, ∀ b, g.block? id = some b → ¬ b.Overwrites s

theorem readPath_singleton :
    g.ReadPath s [b] ↔ ∃ block, g.block? b = some block ∧ block.Exposes s := by
  constructor
  · rintro ⟨-, through, last, block, hpath, hblock, hexposes, -⟩
    cases through with
    | nil =>
      cases hpath
      exact ⟨block, hblock, hexposes⟩
    | cons first through => simp at hpath
  · rintro ⟨block, hblock, hexposes⟩
    exact ⟨.singleton b, [], b, block, rfl, hblock, hexposes, by simp⟩

theorem readPath_cons_cons {next : BlockId} {rest : List BlockId} :
    g.ReadPath s (b :: next :: rest) ↔
      ∃ block, g.block? b = some block ∧ ¬ block.Overwrites s ∧
        next ∈ block.terminator.successors ∧ g.ReadPath s (next :: rest) := by
  constructor
  · rintro ⟨hedges, through, last, final, hpath, hfinal, hexposes, hkeeps⟩
    obtain ⟨⟨block, hblock, hnext⟩, hedges⟩ := List.isChain_cons_cons.1 hedges
    cases through with
    | nil => simp at hpath
    | cons first through =>
      obtain ⟨rfl, htail⟩ := List.cons_eq_cons.1 hpath
      rw [List.forall_mem_cons] at hkeeps
      exact ⟨block, hblock, hkeeps.1 block hblock, hnext, hedges, through, last, final, htail,
        hfinal, hexposes, hkeeps.2⟩
  · rintro ⟨block, hblock, hkeeps, hnext, hedges, through, last, final, hpath, hfinal, hexposes,
      hthrough⟩
    refine ⟨List.isChain_cons_cons.2 ⟨⟨block, hblock, hnext⟩, hedges⟩, b :: through, last, final,
      congrArg (b :: ·) hpath, hfinal, hexposes, ?_⟩
    rw [List.forall_mem_cons]
    refine ⟨fun block' hblock' => ?_, hthrough⟩
    obtain rfl : block = block' := Option.some.inj (hblock.symm.trans hblock')
    exact hkeeps

/-- Some path from the block reads the symbol exactly if the block does so itself, or does not write
it and some path from a successor reads it. -/
theorem exists_readPath_iff :
    (∃ rest, g.ReadPath s (b :: rest)) ↔ ∃ block, g.block? b = some block ∧
      (block.Exposes s ∨
        ¬ block.Overwrites s ∧ ∃ next ∈ block.terminator.successors,
          ∃ rest, g.ReadPath s (next :: rest)) := by
  constructor
  · rintro ⟨rest, hpath⟩
    cases rest with
    | nil =>
      obtain ⟨block, hblock, hexposes⟩ := readPath_singleton.1 hpath
      exact ⟨block, hblock, .inl hexposes⟩
    | cons next rest =>
      obtain ⟨block, hblock, hkeeps, hnext, hpath⟩ := readPath_cons_cons.1 hpath
      exact ⟨block, hblock, .inr ⟨hkeeps, next, hnext, rest, hpath⟩⟩
  · rintro ⟨block, hblock, hexposes | ⟨hkeeps, next, hnext, rest, hpath⟩⟩
    · exact ⟨[], readPath_singleton.2 ⟨block, hblock, hexposes⟩⟩
    · exact ⟨next :: rest, readPath_cons_cons.2 ⟨block, hblock, hkeeps, hnext, hpath⟩⟩

end Graph

/-! ### Rounds follow paths -/

namespace Liveness

variable {n : Nat}

/-- A round finds a tracked symbol on entry to the blocks that read it first, and to those that keep
it and lead to a block where it was found. -/
theorem index_mem_found_succ (hs : g.Tracks s) :
    b.index ∈ found g.trackedSymbols g.summaries s (n + 1) ↔
      ∃ block, g.block? b = some block ∧
        (block.Exposes s ∨
          ¬ block.Overwrites s ∧ ∃ next ∈ block.terminator.successors,
            next.index ∈ found g.trackedSymbols g.summaries s n) := by
  have hs := Graph.mem_trackedSymbols.2 hs
  rw [mem_found_succ, Graph.getElem?_summaries]
  cases g.block? b with
  | none => simp
  | some block => simp [hs, BlockSummary.of, Block.exposes_iff, ← Block.defines_iff]

/-- What the rounds find is read by a path. -/
theorem exists_readPath_of_mem_found (hs : g.Tracks s)
    (h : b.index ∈ found g.trackedSymbols g.summaries s n) : ∃ rest, g.ReadPath s (b :: rest) := by
  induction n generalizing b with
  | zero => simp [found_zero] at h
  | succ n ih =>
    rw [Graph.exists_readPath_iff]
    obtain ⟨block, hblock, hexposes | ⟨hkeeps, next, hnext, hfound⟩⟩ :=
      (index_mem_found_succ hs).1 h
    · exact ⟨block, hblock, .inl hexposes⟩
    · exact ⟨block, hblock, .inr ⟨hkeeps, next, hnext, ih hfound⟩⟩

/-- What a path of any length reads is found once the rounds have settled. -/
theorem mem_found_of_readPath (hs : g.Tracks s) {rest : List BlockId}
    (h : g.ReadPath s (b :: rest)) :
    b.index ∈ found g.trackedSymbols g.summaries s g.summaries.length := by
  -- the path may be longer than there are rounds: one more round finds nothing new
  induction rest generalizing b with
  | nil =>
    obtain ⟨block, hblock, hexposes⟩ := Graph.readPath_singleton.1 h
    rw [found_length_eq_succ, index_mem_found_succ hs]
    exact ⟨block, hblock, .inl hexposes⟩
  | cons next rest ih =>
    obtain ⟨block, hblock, hkeeps, hnext, hpath⟩ := Graph.readPath_cons_cons.1 h
    rw [found_length_eq_succ, index_mem_found_succ hs]
    exact ⟨block, hblock, .inr ⟨hkeeps, next, hnext, ih hpath⟩⟩

theorem mem_found_iff_exists_readPath (hs : g.Tracks s) :
    b.index ∈ found g.trackedSymbols g.summaries s g.summaries.length ↔
      ∃ rest, g.ReadPath s (b :: rest) :=
  ⟨exists_readPath_of_mem_found hs, fun ⟨_, hpath⟩ => mem_found_of_readPath hs hpath⟩

theorem exists_liveIn (hblock : g.block? b = some block) :
    ∃ ins, (analyze g).liveIn? b = some ins ∧
      ∀ s, s ∈ ins ↔ g.Tracks s ∧ ∃ rest, g.ReadPath s (b :: rest) := by
  have hindex : b.index < g.summaries.length := by
    rw [Graph.length_summaries]
    exact (List.getElem?_eq_some_iff.1 hblock).1
  refine ⟨_, getElem?_rounds _ _ _ hindex, fun s => ?_⟩
  rw [List.mem_filter, Graph.mem_trackedSymbols, decide_eq_true_iff]
  exact and_congr_right mem_found_iff_exists_readPath

theorem exists_liveOut (hblock : g.block? b = some block) :
    ∃ outs, (analyze g).liveOut? b = some outs ∧
      ∀ s, s ∈ outs ↔ g.Tracks s ∧ ∃ next rest, g.Edge b next ∧ g.ReadPath s (next :: rest) := by
  have houts : (analyze g).liveOut? b = some
      ((BlockSummary.of g.trackedSymbols block).liveOut g.trackedSymbols (analyze g).ins) := by
    simp [liveOut?, analyze_eq, Graph.getElem?_summaries, hblock]
  refine ⟨_, houts, fun s => ?_⟩
  rw [analyze_eq, mem_liveOut, Graph.mem_trackedSymbols]
  refine and_congr_right fun hs => ?_
  constructor
  · rintro ⟨next, hnext, hfound⟩
    obtain ⟨rest, hpath⟩ := exists_readPath_of_mem_found hs hfound
    exact ⟨next, rest, ⟨block, hblock, hnext⟩, hpath⟩
  · rintro ⟨next, rest, ⟨block', hedge, hnext⟩, hpath⟩
    obtain rfl : block = block' := Option.some.inj (hblock.symm.trans hedge)
    exact ⟨next, hnext, mem_found_of_readPath hs hpath⟩

theorem isLiveOut_iff_of_liveOut {outs : List SymbolId} (h : (analyze g).liveOut? b = some outs) :
    (analyze g).isLiveOut b s ↔ (g.Tracks s → s ∈ outs) := by
  rw [isLiveOut, h, ← Graph.mem_trackedSymbols, analyze]
  by_cases hs : s ∈ g.trackedSymbols <;> simp [hs]

/-- Live variables are those that a path reads. Sweeps over the blocks come to an end in whatever
order they are made, with the live sets. A tracked symbol is live on exit from a block if an edge
and a path behind it lead to a read, and live on entry if a path from the block itself does. Other
symbols are live on exit from every block. -/
theorem live_iff_readPath (g : Graph) :
    (∀ order : List Nat, (∀ index < g.blocks.length, index ∈ order) →
      Settles (sweep g.summaries order) (unswept g.trackedSymbols g.summaries) (analyze g)) ∧
    (∀ b block, g.block? b = some block →
      ∃ ins outs, (analyze g).liveIn? b = some ins ∧ (analyze g).liveOut? b = some outs ∧
        ∀ s, (s ∈ ins ↔ g.Tracks s ∧ ∃ rest, g.ReadPath s (b :: rest)) ∧
          (s ∈ outs ↔ g.Tracks s ∧ ∃ next rest, g.Edge b next ∧ g.ReadPath s (next :: rest)) ∧
          ((analyze g).isLiveOut b s ↔ (g.Tracks s → s ∈ outs))) ∧
    ∀ b s, ¬ g.Tracks s → (analyze g).isLiveOut b s := by
  refine ⟨fun order horder => settles_sweep g horder, fun b block hblock => ?_, fun b s hs => ?_⟩
  · obtain ⟨ins, hins, hmem_ins⟩ := exists_liveIn hblock
    obtain ⟨outs, houts, hmem_outs⟩ := exists_liveOut hblock
    exact ⟨ins, outs, hins, houts, fun s =>
      ⟨hmem_ins s, hmem_outs s, isLiveOut_iff_of_liveOut houts⟩⟩
  · rw [← Graph.mem_trackedSymbols] at hs
    simp [isLiveOut, analyze, hs]

end Liveness

end Pathwise
