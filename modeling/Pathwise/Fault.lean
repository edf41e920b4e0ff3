import Pathwise.Program.Graph

/-!
What can be wrong with a graph. A fault never speaks about the analysed program: paths that cannot
be taken and budgets that run out are ordinary outcomes. A fault found while a graph is explored
carries the program point at which it was found.
-/

namespace Pathwise

/-- A defect of a graph, or a misuse of the exploration. -/
inductive Fault where
  | noSuchStackFrame (depth : Nat)
  | stackImbalance (instruction : String) (expected actual : Nat)
  | unsupportedInstruction (kind : String)
  | noSuchBlock (block : BlockId)
  | missingExitBlock
  | noSuchSymbol (symbol : SymbolId)
  | invalidProgramPoint (offset length : Nat)
  | alreadyExecuted
  deriving DecidableEq

/-- The message for a fault. -/
def Fault.message : Fault → String
  | .noSuchStackFrame depth => "No operand was available at stack depth " ++ toString depth
  | .stackImbalance instruction expected actual =>
    "Instruction " ++ instruction ++ " left a stack of depth " ++ toString actual ++ " where " ++
      toString expected ++ " was expected"
  | .unsupportedInstruction kind =>
    "The instruction kind " ++ kind ++ " is not supported by the instruction visitor"
  | .noSuchBlock block => "The block " ++ block.text ++ " does not exist in the control flow graph"
  | .missingExitBlock => "The control flow graph has no exit block"
  | .noSuchSymbol symbol => "The symbol " ++ symbol.text ++ " does not exist in the symbol table"
  | .invalidProgramPoint offset length =>
    "Offset " ++ toString offset ++ " is out of bounds in a block of " ++ toString length ++
      " instructions"
  | .alreadyExecuted =>
    "The walk was started on an exploded graph that has already been executed"

/-- A fault and the point at which it was found. -/
structure LocatedFault where
  point : ProgramPoint
  fault : Fault
  deriving DecidableEq

/-- The message for a fault, with its point in front. -/
def LocatedFault.message (f : LocatedFault) : String :=
  "[" ++ f.point.text ++ "]: " ++ f.fault.message

end Pathwise
