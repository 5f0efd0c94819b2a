import RingTape.CellTree

/-!
The operations of the language and their names.
-/

namespace RingTape

set_option autoImplicit false

/-- When an instruction or a block is carried out, by the condition register. -/
inductive Gate where
  | always
  | whenTrue
  | whenFalse
deriving DecidableEq, Repr

namespace Gate

def admits : Gate → Bool → Bool
  | .always, _ => true
  | .whenTrue, condition => condition
  | .whenFalse, condition => !condition

/-- The character that ends an instruction with this gate. -/
def terminator : Gate → Char
  | .always => ';'
  | .whenTrue => '?'
  | .whenFalse => '!'

def ofTerminator? : Char → Option Gate
  | ';' => some .always
  | '?' => some .whenTrue
  | '!' => some .whenFalse
  | _ => none

end Gate

/-- A register that an operand can name. -/
inductive Register where
  /-- The accumulator. -/
  | accumulator
  /-- The value of the cell under the head. -/
  | active
deriving DecidableEq, Repr

def Register.text : Register → String
  | .accumulator => "a"
  | .active => "m"

inductive Operand where
  | constant (value : Num)
  | register (name : Register)
deriving DecidableEq, Repr

def Operand.text : Operand → String
  | .constant value => value.text
  | .register name => name.text

/-- Arithmetic on the accumulator; a `from` operation has the operand on the left. -/
inductive Arithmetic where
  | add
  | subtract
  | subtractFrom
  | multiply
  | divide
  | divideFrom
  | remainder
  | remainderFrom
deriving DecidableEq, Repr

inductive Connective where
  | and
  | or
  | xor
deriving DecidableEq, Repr

/-- A connective applied to the condition register and an operand, which counts as true unless it is 0. -/
def Connective.apply : Connective → Bool → Num → Bool
  | .and, condition, operand => condition && operand != 0
  | .or, condition, operand => condition || operand != 0
  | .xor, condition, operand => condition != (operand != 0)

inductive Comparison where
  | greater
  | equal
  | less
  | atLeast
  | atMost
  | unequal
deriving DecidableEq, Repr

/-- Whether the accumulator stands in the relation to the operand. -/
def Comparison.holds : Comparison → Num → Num → Bool
  | .greater, accumulator, operand => operand < accumulator
  | .equal, accumulator, operand => accumulator = operand
  | .less, accumulator, operand => accumulator < operand
  | .atLeast, accumulator, operand => operand ≤ accumulator
  | .atMost, accumulator, operand => accumulator ≤ operand
  | .unequal, accumulator, operand => accumulator ≠ operand

/-- Moves of the head. -/
inductive Move where
  | up
  | down
  | previous
  | next
  | back (count : Operand)
  | forward (count : Operand)
  /-- To the anchor of the ring. -/
  | restart
  /-- Stay, and make the cell under the head the anchor. -/
  | rotate
deriving DecidableEq, Repr

/-- Changes to the ring around the head. -/
inductive Edit where
  | insertBefore
  | insertAfter
  | deleteBefore
  | deleteAfter
deriving DecidableEq, Repr

/-- What is read or written: one byte, a decimal number, or a line of bytes. -/
inductive Format where
  | byte
  | number
  | line
deriving DecidableEq, Repr

inductive Op where
  | leave
  | increment
  | decrement
  | invert
  | setAccumulator (operand : Operand)
  | setCondition (operand : Operand)
  | setValue (operand : Operand)
  /-- Overwrite the cell under the head with a copy of a memory literal. -/
  | setMemory (literal : CellTree)
  | arithmetic (operation : Arithmetic) (operand : Operand)
  | connect (connective : Connective) (operand : Operand)
  | compare (comparison : Comparison) (operand : Operand)
  | move (direction : Move)
  | edit (change : Edit)
  | input (format : Format)
  | output (format : Format)

def Arithmetic.name : Arithmetic → String
  | .add => "+"
  | .subtract => "-"
  | .subtractFrom => "r-"
  | .multiply => "*"
  | .divide => "/"
  | .divideFrom => "r/"
  | .remainder => "%"
  | .remainderFrom => "r%"

def Connective.name : Connective → String
  | .and => "and"
  | .or => "or"
  | .xor => "xor"

def Comparison.name : Comparison → String
  | .greater => ">>"
  | .equal => "="
  | .less => "<<"
  | .atLeast => ">="
  | .atMost => "<="
  | .unequal => "/="

def Move.name : Move → String
  | .up => "^"
  | .down => "v"
  | .previous => "<"
  | .next => ">"
  | .back _ => "<"
  | .forward _ => ">"
  | .restart => "R"
  | .rotate => "rot"

def Edit.name : Edit → String
  | .insertBefore => "<+"
  | .insertAfter => "+>"
  | .deleteBefore => "<-"
  | .deleteAfter => "->"

def Format.inputName : Format → String
  | .byte => "chin"
  | .number => "numin"
  | .line => "strin"

def Format.outputName : Format → String
  | .byte => "chout"
  | .number => "numout"
  | .line => "strout"

namespace Op

/-- The keyword that spells an operation. -/
def name : Op → String
  | .leave => "break"
  | .increment => "++"
  | .decrement => "--"
  | .invert => "not"
  | .setAccumulator _ => "A"
  | .setCondition _ => "C"
  | .setValue _ => "."
  | .setMemory _ => "."
  | .arithmetic operation _ => operation.name
  | .connect connective _ => connective.name
  | .compare comparison _ => comparison.name
  | .move direction => direction.name
  | .edit change => change.name
  | .input format => format.inputName
  | .output format => format.outputName

/-- The operand, for operations that take one. -/
def operand? : Op → Option Operand
  | .setAccumulator operand => some operand
  | .setCondition operand => some operand
  | .setValue operand => some operand
  | .arithmetic _ operand => some operand
  | .connect _ operand => some operand
  | .compare _ operand => some operand
  | .move (.back count) => some count
  | .move (.forward count) => some count
  | _ => none

end Op

end RingTape
