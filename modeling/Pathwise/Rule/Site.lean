import Pathwise.Rule.Finding
import Pathwise.Symbolic.Solver

/-!
Where a rule looks at a state: a point of the graph, with what the rule needs to describe what it
sees there. The operand at some depth of the stack is named after the instruction that pushed it,
found by walking back through the block and undoing the stack effects on the way.
-/

namespace Pathwise

/-- The node among the first `offset` ones that pushed the operand which lies at `depth` once they
have run. -/
def producer? (nodes : List Node) : (offset depth : Nat) → Option (Nat × Instruction)
  | 0, _ => none
  | offset + 1, depth =>
    match nodes[offset]? with
    | none => producer? nodes offset depth
    | some node =>
      match node.instruction.stackEffect with
      | none => none
      | some effect =>
        if depth < effect.pushes then some (offset, node.instruction)
        else producer? nodes offset (depth + effect.pops - effect.pushes)

/-- A producer lies before the offset. -/
theorem producer?_lt {nodes : List Node} {offset depth position : Nat} {i : Instruction}
    (h : producer? nodes offset depth = some (position, i)) : position < offset := by
  induction offset generalizing depth with
  | zero => simp [producer?] at h
  | succ offset ih =>
    unfold producer? at h
    split at h
    · exact Nat.lt_succ_of_lt (ih h)
    · split at h
      · simp at h
      · split at h
        · simp only [Option.some.injEq, Prod.mk.injEq] at h
          omega
        · exact Nat.lt_succ_of_lt (ih h)

/-- The symbol whose read pushed an operand, seen through casts. -/
def operandSymbol (nodes : List Node) (offset depth : Nat) : Option SymbolId :=
  match h : producer? nodes offset depth with
  | some (_, .read id _) => some id
  | some (_, .memberAccess id _) => some id
  | some (position, .cast _) =>
    have := producer?_lt h
    operandSymbol nodes position 0
  | _ => none
termination_by offset

/-- A point of a graph, seen by a rule. -/
structure Site where
  graph : Graph
  solver : Solver
  point : ProgramPoint
  span : Option Span

namespace Site

def location (site : Site) : Location := ⟨site.point, site.span⟩

/-- The name of a symbol of the graph. -/
def symbolName (site : Site) (id : SymbolId) : Option String :=
  (site.graph.symbols.get? id).map Symbol.name

/-- The nodes of the block, and how many of them lie before the point. -/
def before (site : Site) : Option (List Node × Nat) :=
  (site.graph.block? site.point.block).map fun b =>
    (b.nodes, min site.point.offset b.nodes.length)

/-- The name of the variable or member that pushed the operand at a depth. There is none if the
operand was computed, or pushed in an earlier block. -/
def operandName (site : Site) (depth : Nat) : Option String := do
  let (nodes, offset) ← site.before
  site.symbolName (← operandSymbol nodes offset depth)

/-- The name of the receiver of a call with the given number of arguments. -/
def receiverName (site : Site) (argCount : Nat) : Option String := do
  let (nodes, offset) ← site.before
  let (position, _) ← producer? nodes offset argCount
  site.symbolName (← operandSymbol nodes position 0)

/-- A name for a value: that of the first symbol that holds it, if there is one. -/
def nameOf (site : Site) (s : State) (v : Value) : String :=
  match (s.symbolsBoundTo v).findSome? site.symbolName with
  | some name => name
  | none => if v = .self then "this" else "Object"

/-- The first state in which a fact holds, if there is one. -/
def constrain (site : Site) (s : State) (v : Value) (c : Constraint) : Option State :=
  site.solver.narrow? s v c

end Site

end Pathwise
