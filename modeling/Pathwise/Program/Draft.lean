import Pathwise.Fault

/-!
A graph under construction. Blocks are reserved first and given their contents later, so that
terminators can refer to blocks that come after them. Closing a draft checks that every reserved
block has contents and that no terminator leads out of the graph; `Draft.build` accepts exactly the
drafts for which this holds.
-/

namespace Pathwise

/-- A graph under construction. A reserved block holds `none` until it is defined. -/
structure Draft where
  method : String
  blocks : List (Option Block)
  exit : Option BlockId
  parameters : List SymbolId
  symbols : SymbolTable
  deriving DecidableEq

namespace Draft

/-- A draft of the given method, with nothing in it. -/
def new (method : String) : Draft := ⟨method, [], none, [], .empty⟩

/-- Declares a symbol. Parameters are also noted in order of declaration. -/
def declare (d : Draft) (s : Symbol) : Draft × SymbolId :=
  let (symbols, id) := d.symbols.add s
  let parameters := if s.kind = .parameter then d.parameters ++ [id] else d.parameters
  ({ d with symbols, parameters }, id)

/-- Reserves one more block. -/
def reserve (d : Draft) : Draft × BlockId :=
  ({ d with blocks := d.blocks ++ [none] }, ⟨d.blocks.length⟩)

/-- The contents of an exit block that is not defined otherwise. -/
def exitBlock : Block := ⟨[], .exit⟩

/-- Reserves and defines the exit block. A draft has one exit: asking again gives the same. -/
def reserveExit (d : Draft) : Draft × BlockId :=
  match d.exit with
  | some exit => (d, exit)
  | none =>
    let exit : BlockId := ⟨d.blocks.length⟩
    ({ d with blocks := d.blocks ++ [some exitBlock], exit := some exit }, exit)

/-- Gives a reserved block its contents, in place of any earlier ones. An id that was never
reserved changes nothing. -/
def define (d : Draft) (id : BlockId) (block : Block) : Draft :=
  { d with blocks := d.blocks.set id.index (some block) }

/-- Checks the blocks from position `index` on against a graph of `count` blocks. -/
def close (count : Nat) : (index : Nat) → List (Option Block) → Except Fault (List Block)
  | _, [] => .ok []
  | index, none :: _ => .error (.noSuchBlock ⟨index⟩)
  | index, some block :: rest =>
    match block.terminator.successors.find? fun target => count ≤ target.index with
    | some missing => .error (.noSuchBlock missing)
    | none => return block :: (← close count (index + 1) rest)

/-- Closes the draft into a graph that is entered at `entry`. -/
def build (d : Draft) (entry : BlockId) : Except Fault Graph :=
  match d.exit with
  | none => .error .missingExitBlock
  | some exit =>
    if d.blocks.length ≤ entry.index then .error (.noSuchBlock entry)
    else do
      let blocks ← close d.blocks.length 0 d.blocks
      return ⟨d.method, blocks, entry, exit, d.parameters, d.symbols⟩

end Draft

end Pathwise
