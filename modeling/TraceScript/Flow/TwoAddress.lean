import TraceScript.Flow.Program

/-!
Two-address form: an arithmetic instruction changes its left operand, so a result that belongs
elsewhere is preceded by a move.
-/
namespace TraceScript.Flow

namespace Instruction

def twoAddress : Instruction → List Instruction
  | .arith op dst lhs rhs =>
    if lhs = dst then [.arith op dst lhs rhs] else [.move dst lhs, .arith op dst dst rhs]
  | i => [i]

end Instruction

namespace Block

def twoAddress (b : Block) : Block :=
  { b with code := (b.code.toList.flatMap Instruction.twoAddress).toArray }

end Block

namespace Program

def twoAddress (p : Program) : Program := { p with blocks := p.blocks.map Block.twoAddress }

end Program

end TraceScript.Flow
