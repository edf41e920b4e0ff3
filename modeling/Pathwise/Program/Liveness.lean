import Pathwise.Program.Graph

/-!
Live variables. A variable is live at a place if some path from there reads it before it is written
again. Only local variables and parameters that no closure captures are tracked; every other symbol
may be read at places the graph does not show and counts as live everywhere.

A block is summarised by the tracked symbols it reads before writing them and those it writes. One
round carries the live sets one edge backwards, so after `n` rounds a symbol is live on entry to a
block exactly if a path of at most `n` blocks leads to such a read. A path need not repeat a block,
hence as many rounds as there are blocks reach every read.

Sets of tracked symbols are kept as sublists of the tracked ones, in ascending order.
-/

namespace Pathwise

/-- The symbols subject to liveness, ascending. -/
def Graph.trackedSymbols (g : Graph) : List SymbolId :=
  g.symbols.ids.filter fun id =>
    (g.symbols.get? id).any fun s => s.isLocalOrParameter && !s.captured

namespace Block

/-- Does a run over the nodes read the symbol before it writes it? -/
def readsFirst (s : SymbolId) : List Node → Bool
  | [] => false
  | node :: rest =>
    node.instruction.uses.contains s ||
      (!node.instruction.defines.contains s && readsFirst s rest)

/-- Does the block read the symbol before it writes it? -/
def exposes (b : Block) (s : SymbolId) : Bool := readsFirst s b.nodes

/-- Does the block, or its case label, write the symbol? -/
def defines (b : Block) (s : SymbolId) : Bool :=
  (b.nodes.any fun node => node.instruction.defines.contains s) ||
    b.terminator.defines.contains s

end Block

/-- The tracked symbols that a block reads before writing, and those that it writes. -/
structure BlockSummary where
  exposed : List SymbolId
  defined : List SymbolId
  successors : List BlockId

/-- The summary of a block. -/
def BlockSummary.of (tracked : List SymbolId) (b : Block) : BlockSummary where
  exposed := tracked.filter b.exposes
  defined := tracked.filter b.defines
  successors := b.terminator.successors

namespace BlockSummary

/-- The symbols live on exit from a block, given those live on entry to each block. -/
def liveOut (tracked : List SymbolId) (ins : List (List SymbolId)) (b : BlockSummary) :
    List SymbolId :=
  tracked.filter fun s => b.successors.any fun target => (ins[target.index]?.getD []).contains s

/-- The symbols live on entry to a block, given those live on entry to each block. -/
def liveIn (tracked : List SymbolId) (ins : List (List SymbolId)) (b : BlockSummary) :
    List SymbolId :=
  let out := b.liveOut tracked ins
  tracked.filter fun s => b.exposed.contains s || (!b.defined.contains s && out.contains s)

end BlockSummary

/-- The live variables of a graph. -/
structure Liveness where
  tracked : List SymbolId
  /-- For each block, the symbols live on entry. -/
  ins : List (List SymbolId)
  /-- For each block, the symbols live on exit. -/
  outs : List (List SymbolId)
  deriving DecidableEq

namespace Liveness

/-- Carries the live sets one edge backwards. -/
def round (tracked : List SymbolId) (blocks : List BlockSummary) (ins : List (List SymbolId)) :
    List (List SymbolId) :=
  blocks.map (BlockSummary.liveIn tracked ins)

/-- The sets live on entry after a number of rounds, starting from nothing. -/
def rounds (tracked : List SymbolId) (blocks : List BlockSummary) : Nat → List (List SymbolId)
  | 0 => blocks.map fun _ => []
  | n + 1 => round tracked blocks (rounds tracked blocks n)

/-- The live variables of a graph. -/
def analyze (g : Graph) : Liveness :=
  let tracked := g.trackedSymbols
  let blocks := g.blocks.map (BlockSummary.of tracked)
  let ins := rounds tracked blocks blocks.length
  ⟨tracked, ins, blocks.map (BlockSummary.liveOut tracked ins)⟩

/-- The tracked symbols live on entry to a block of the graph. -/
def liveIn? (l : Liveness) (b : BlockId) : Option (List SymbolId) := l.ins[b.index]?

/-- The tracked symbols live on exit from a block of the graph. -/
def liveOut? (l : Liveness) (b : BlockId) : Option (List SymbolId) := l.outs[b.index]?

/-- May the symbol still be read after control leaves the block? Symbols that are not tracked may
always be, and nothing is known about blocks outside the graph. -/
def isLiveOut (l : Liveness) (b : BlockId) (s : SymbolId) : Bool :=
  !l.tracked.contains s || (l.liveOut? b).all fun out => out.contains s

end Liveness

end Pathwise
