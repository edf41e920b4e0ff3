import Mathlib.Data.Finset.Card
import Mathlib.Order.Monotone.Basic
import Pathwise.Program.Liveness

/-!
As many rounds as there are blocks settle the live variables. Symbols do not depend on each other,
so each has a set of blocks of its own, those on entry to which it is live. Rounds only add to this
set, a round that adds nothing is followed by none that does, and there are no more blocks to add
than there are blocks.

The settled sets satisfy the equation of liveness, `Liveness.isLiveIn_eq`: a tracked symbol is live
on entry to a block exactly if the block reads it before writing it, or does not write it and it is
live on exit.
-/

namespace Pathwise

/-- The summaries of the blocks of a graph. -/
def Graph.summaries (g : Graph) : List BlockSummary :=
  g.blocks.map (BlockSummary.of g.trackedSymbols)

@[simp] theorem Graph.length_summaries (g : Graph) : g.summaries.length = g.blocks.length :=
  List.length_map _

theorem Graph.getElem?_summaries {g : Graph} {b : BlockId} :
    g.summaries[b.index]? = (g.block? b).map (BlockSummary.of g.trackedSymbols) :=
  List.getElem?_map

namespace Liveness

/-! ### Rounds -/

section

variable {tracked : List SymbolId} {blocks : List BlockSummary} {id : SymbolId} {n index : Nat}

theorem length_rounds (tracked : List SymbolId) (blocks : List BlockSummary) (n : Nat) :
    (rounds tracked blocks n).length = blocks.length := by
  cases n <;> simp [rounds, round]

/-- The blocks on entry to which a number of rounds finds the symbol live. -/
def found (tracked : List SymbolId) (blocks : List BlockSummary) (id : SymbolId) (n : Nat) :
    Finset Nat :=
  {index ∈ Finset.range blocks.length | id ∈ (rounds tracked blocks n)[index]?.getD []}

theorem mem_found :
    index ∈ found tracked blocks id n ↔ id ∈ (rounds tracked blocks n)[index]?.getD [] := by
  rw [found, Finset.mem_filter, Finset.mem_range, and_iff_right_iff_imp]
  intro h
  by_contra hlength
  rw [List.getElem?_eq_none (by rw [length_rounds]; omega)] at h
  simp at h

theorem mem_liveOut {b : BlockSummary} :
    id ∈ b.liveOut tracked (rounds tracked blocks n) ↔
      id ∈ tracked ∧ ∃ target ∈ b.successors, target.index ∈ found tracked blocks id n := by
  simp [BlockSummary.liveOut, mem_found]

/-- A round finds a symbol where it is read first, and before the blocks where it was found. -/
theorem mem_found_succ :
    index ∈ found tracked blocks id (n + 1) ↔ ∃ b, blocks[index]? = some b ∧ id ∈ tracked ∧
      (id ∈ b.exposed ∨
        id ∉ b.defined ∧ ∃ target ∈ b.successors, target.index ∈ found tracked blocks id n) := by
  rw [mem_found, rounds, round, List.getElem?_map]
  cases hb : blocks[index]? with
  | none => simp
  | some b => simp +contextual [BlockSummary.liveIn, mem_liveOut]

theorem found_zero : found tracked blocks id 0 = ∅ := by
  ext index
  rw [mem_found, rounds, List.getElem?_map]
  cases blocks[index]? <;> simp

theorem found_subset_succ (n : Nat) :
    found tracked blocks id n ⊆ found tracked blocks id (n + 1) := by
  induction n with
  | zero => simp [found_zero]
  | succ n ih =>
    intro index h
    rw [mem_found_succ] at h ⊢
    obtain ⟨b, hb, htracked, hexposed | ⟨hdefined, target, htarget, hfound⟩⟩ := h
    · exact ⟨b, hb, htracked, .inl hexposed⟩
    · exact ⟨b, hb, htracked, .inr ⟨hdefined, target, htarget, ih hfound⟩⟩

theorem found_succ_of_eq (h : found tracked blocks id n = found tracked blocks id (n + 1)) :
    found tracked blocks id (n + 1) = found tracked blocks id (n + 2) := by
  ext index
  rw [mem_found_succ, mem_found_succ, h]

/-- A set of blocks grows no more often than there are blocks. -/
theorem found_length_eq_succ (tracked : List SymbolId) (blocks : List BlockSummary)
    (id : SymbolId) :
    found tracked blocks id blocks.length = found tracked blocks id (blocks.length + 1) := by
  have hmono : Monotone fun n => (found tracked blocks id n).card :=
    monotone_nat_of_le_succ fun n => Finset.card_le_card (found_subset_succ n)
  have hbound : ∀ n, (found tracked blocks id n).card ≤ blocks.length := fun n =>
    (Finset.card_filter_le _ _).trans (Finset.card_range _).le
  have heq : ∀ n, (found tracked blocks id n).card = (found tracked blocks id (n + 1)).card →
      found tracked blocks id n = found tracked blocks id (n + 1) := fun n hcard =>
    Finset.eq_of_subset_of_card_le (found_subset_succ n) hcard.ge
  have hstable := Nat.stabilises_of_monotone hmono hbound
    (fun n hcard => congrArg Finset.card (found_succ_of_eq (heq n hcard)))
    (Nat.le_succ blocks.length)
  exact heq _ hstable.symm

end

/-! ### The settled sets -/

/-- The analysis is that of as many rounds as there are blocks. -/
theorem analyze_eq (g : Graph) : analyze g =
    ⟨g.trackedSymbols, rounds g.trackedSymbols g.summaries g.summaries.length,
      g.summaries.map (BlockSummary.liveOut g.trackedSymbols
        (rounds g.trackedSymbols g.summaries g.summaries.length))⟩ :=
  rfl

/-- May the symbol be read after control enters the block, before it is written? Symbols that are
not tracked may always be, and nothing is known about blocks outside the graph. -/
def isLiveIn (l : Liveness) (b : BlockId) (s : SymbolId) : Bool :=
  !l.tracked.contains s || (l.liveIn? b).all fun live => live.contains s

variable {g : Graph} {b : BlockId} {block : Block} {id : SymbolId}

theorem isLiveIn_iff (hblock : g.block? b = some block) (htracked : id ∈ g.trackedSymbols) :
    (analyze g).isLiveIn b id ↔
      b.index ∈ found g.trackedSymbols g.summaries id g.summaries.length := by
  have hindex : b.index < g.blocks.length := (List.getElem?_eq_some_iff.1 hblock).1
  simp [isLiveIn, liveIn?, analyze_eq, mem_found, htracked, hindex, length_rounds]

theorem isLiveOut_iff (hblock : g.block? b = some block) (htracked : id ∈ g.trackedSymbols) :
    (analyze g).isLiveOut b id ↔ ∃ target ∈ block.terminator.successors,
      target.index ∈ found g.trackedSymbols g.summaries id g.summaries.length := by
  simp [isLiveOut, liveOut?, analyze_eq, htracked, Graph.getElem?_summaries, hblock, mem_liveOut,
    BlockSummary.of]

theorem isLiveIn_eq (hblock : g.block? b = some block) (htracked : id ∈ g.trackedSymbols) :
    (analyze g).isLiveIn b id =
      (block.exposes id || (!block.defines id && (analyze g).isLiveOut b id)) := by
  rw [Bool.eq_iff_iff, isLiveIn_iff hblock htracked, found_length_eq_succ, mem_found_succ,
    Bool.or_eq_true, Bool.and_eq_true, isLiveOut_iff hblock htracked]
  simp [Graph.getElem?_summaries, hblock, htracked, BlockSummary.of]

/-- A symbol that is dead on entry to a block is tracked, and is not read by the block before it is
written; it is dead on exit if it is not written. -/
theorem of_isLiveIn_eq_false (hblock : g.block? b = some block)
    (h : (analyze g).isLiveIn b id = false) :
    id ∈ g.trackedSymbols ∧ block.exposes id = false ∧
      (block.defines id = false → (analyze g).isLiveOut b id = false) := by
  have htracked : id ∈ g.trackedSymbols := by
    by_contra hnot
    simp [isLiveIn, analyze, hnot] at h
  rw [isLiveIn_eq hblock htracked] at h
  exact ⟨htracked, by simp_all⟩

end Liveness

end Pathwise
