import Pathwise.Program.Instruction

/-!
The control flow graph of one method: basic blocks of instructions, each ended by a terminator that
says where control goes next. A block is identified by its position in the graph.

A program point is a place in the graph. Its offset counts the nodes of the block that lie before
it, so the offset that equals the length of the block is the point of the terminator.
-/

namespace Pathwise

/-- A reference to a block, by its position in the graph. -/
structure BlockId where
  index : Nat
  deriving DecidableEq

namespace BlockId

/-- Blocks are ordered by position. -/
instance : Ord BlockId := ⟨compareOn BlockId.index⟩

instance : Std.TransOrd BlockId :=
  inferInstanceAs (Std.TransCmp (compareOn BlockId.index))

instance : Std.LawfulEqOrd BlockId where
  compare_self {a} := Std.compare_self (a := a.index)
  eq_of_compare {a b} h := by
    cases a; cases b
    exact congrArg BlockId.mk (Std.LawfulEqOrd.eq_of_compare h)

/-- The written form, such as `B2`. -/
def text (b : BlockId) : String := "B" ++ toString b.index

end BlockId

/-- A place in the source text. -/
structure Span where
  line : Nat
  column : Nat
  deriving DecidableEq

/-- The written form, line before column. -/
def Span.text (s : Span) : String := toString s.line ++ ":" ++ toString s.column

/-- A node of a block: an instruction and, if it is known, where it stands in the source. -/
structure Node where
  instruction : Instruction
  span : Option Span
  deriving DecidableEq

/-! ### Terminators -/

/-- Why control jumps. The flags say whether an operand is waiting on the stack for the jump. -/
inductive JumpKind where
  | plain
  | returns (hasValue : Bool)
  | throws (hasValue : Bool)
  /-- Enters a scope that disposes a resource at its end. -/
  | usingScope (hasResource : Bool)
  /-- Enters a scope that holds a lock. -/
  | lockScope
  deriving DecidableEq

/-- What a two-way branch decides on; the value it tests is on top of the stack. -/
inductive BranchKind where
  | condition
  | catchFilter
  /-- Goes on to the right operand if the left one is true. -/
  | logicalAnd (pushResult : Bool)
  /-- Goes on to the right operand if the left one is false. -/
  | logicalOr (pushResult : Bool)
  /-- Goes on to the right operand if the left one is null. -/
  | coalesce (pushResult : Bool)
  /-- Goes on to the member if the receiver is not null. -/
  | conditionalAccess (pushResult : Bool)
  | caseLabel (pattern : Pattern)
  /-- Enters the loop body while there are elements left. -/
  | forEach
  deriving DecidableEq

/-- How a block ends. -/
inductive Terminator where
  | jump (target : BlockId) (kind : JumpKind)
  | branch (kind : BranchKind) (onTrue onFalse : BlockId)
  /-- Any one of the targets may come next. -/
  | fork (targets : List BlockId)
  /-- The method is left. -/
  | exit
  deriving DecidableEq

namespace Terminator

/-- The blocks that may come next, in order. -/
def successors : Terminator → List BlockId
  | .jump target _ => [target]
  | .branch _ onTrue onFalse => [onTrue, onFalse]
  | .fork targets => targets
  | .exit => []

/-- The symbols that a case label binds. -/
def defines : Terminator → List SymbolId
  | .branch (.caseLabel pattern) _ _ => pattern.designatedSymbols
  | _ => []

end Terminator

/-! ### Graphs -/

/-- A basic block. -/
structure Block where
  nodes : List Node
  terminator : Terminator
  deriving DecidableEq

/-- The span of the last node that has run when the terminator is reached. -/
def Block.lastSpan (b : Block) : Option Span := b.nodes.getLast?.bind Node.span

/-- The control flow graph of a method. -/
structure Graph where
  method : String
  blocks : List Block
  entry : BlockId
  exit : BlockId
  /-- The parameters, in order of declaration. -/
  parameters : List SymbolId
  symbols : SymbolTable
  deriving DecidableEq

/-- The block with the given id, if there is one. -/
def Graph.block? (g : Graph) (id : BlockId) : Option Block := g.blocks[id.index]?

/-! ### Program points -/

/-- A place in a graph. -/
structure ProgramPoint where
  block : BlockId
  /-- How many nodes of the block lie before the point. -/
  offset : Nat
  deriving DecidableEq

namespace ProgramPoint

/-- Points are ordered by block, then by offset. -/
instance : Ord ProgramPoint :=
  ⟨compareLex (compareOn ProgramPoint.block) (compareOn ProgramPoint.offset)⟩

instance : Std.TransOrd ProgramPoint :=
  inferInstanceAs
    (Std.TransCmp (compareLex (compareOn ProgramPoint.block) (compareOn ProgramPoint.offset)))

instance : Std.LawfulEqOrd ProgramPoint where
  compare_self {a} := by
    show (compare a.block a.block).then (compare a.offset a.offset) = .eq
    simp [Std.compare_self]
  eq_of_compare {a b} h := by
    cases a; cases b
    have h := Ordering.then_eq_eq.mp h
    simp only [ProgramPoint.mk.injEq]
    exact ⟨Std.LawfulEqOrd.eq_of_compare h.1, Std.LawfulEqOrd.eq_of_compare h.2⟩

/-- The first point of a block. -/
def start (block : BlockId) : ProgramPoint := ⟨block, 0⟩

/-- The point behind the next node of the same block. -/
def next (p : ProgramPoint) : ProgramPoint := ⟨p.block, p.offset + 1⟩

/-- The written form, such as `B7:1`. -/
def text (p : ProgramPoint) : String := p.block.text ++ ":" ++ toString p.offset

end ProgramPoint

end Pathwise
