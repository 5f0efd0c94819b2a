import RingTape.Code.Op
import RingTape.Location

/-!
Programs as trees of code: single instructions, and blocks that repeat their members. A block has at least
one member, which its shape says.
-/

namespace RingTape

set_option autoImplicit false

structure Instruction where
  op : Op
  gate : Gate
  location : Location

/-- The keyword, the operand if there is one, and the terminator. -/
def Instruction.text (instruction : Instruction) : String :=
  let operand :=
    match instruction.op.operand? with
    | some operand => " " ++ operand.text
    | none => ""
  instruction.op.name ++ operand ++ instruction.gate.terminator.toString

structure Block (α : Type) where
  gate : Gate
  first : α
  others : List α
  location : Location

namespace Block

variable {α : Type}

def members (block : Block α) : List α :=
  block.first :: block.others

/-- The block with the given members, unless there are none. -/
def ofMembers? (gate : Gate) (location : Location) : List α → Option (Block α)
  | [] => none
  | first :: others => some ⟨gate, first, others, location⟩

end Block

inductive Code where
  | instruction (instruction : Instruction)
  | block (block : Block Code)

end RingTape
