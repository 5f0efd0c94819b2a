import RingTape.Code.Basic
import RingTape.Machine.Streams
import RingTape.Store.Copy
import RingTape.Text.Utf8

/-!
The machine that runs a program: its memory, its registers and its streams, and what each operation does to
them. An operation that fails aborts the run and leaves everything as far as it had got.
-/

namespace RingTape

set_option autoImplicit false

inductive AbortReason where
  | decrementPastZero
  | negativeDifference (minuend subtrahend : Num)
  | divisionByZero (dividend : Num)
  | remainderByZero (dividend : Num)
  | emptyDescent (value : Num)
  | invalidCharacter (value : Num)
  | memory (fault : Fault)
  | stepLimit (limit : Nat)
  | stream (message : String)
deriving DecidableEq, Repr

def AbortReason.message : AbortReason → String
  | .decrementPastZero => "attempted decrement past zero"
  | .negativeDifference minuend subtrahend =>
      s!"attempted to perform invalid SUB ( {minuend.text} - {subtrahend.text} )"
  | .divisionByZero dividend => s!"attempted to perform DIV by zero ( {dividend.text} / 0 )"
  | .remainderByZero dividend => s!"attempted to perform MOD by zero ( {dividend.text} % 0 )"
  | .emptyDescent value => s!"attempted to enter child of cell with value {value.text}"
  | .invalidCharacter value => s!"attempted chout of invalid character ( #{value.text} )"
  | .memory fault => s!"invalid memory operation: {fault.message}"
  | .stepLimit limit => s!"step limit of {decimalText limit} instructions exceeded"
  | .stream message => s!"I/O failure: {message}"

structure Registers where
  accumulator : Num
  condition : Bool
  /-- The cell under the head. -/
  head : CellId
deriving DecidableEq, Repr

structure Machine where
  store : Store
  registers : Registers
  streams : Streams
  /-- The number of instructions visited. -/
  steps : Nat

/-- How the machine goes on after an instruction or a block. -/
inductive Flow where
  /-- With what comes next. -/
  | okay
  /-- After the innermost block around. -/
  | leave
  /-- Not at all. -/
  | exit
deriving DecidableEq, Repr

abbrev MachineM := EStateM AbortReason Machine

namespace Machine

/-- Do something to the memory. -/
def onStore {α : Type} (program : StoreM α) : MachineM α := fun machine =>
  match program machine.store with
  | .ok result store => .ok result { machine with store := store }
  | .error fault store => .error (.memory fault) { machine with store := store }

/-- Do something to the streams. -/
def onStreams {α : Type} (program : StreamM α) : MachineM α := fun machine =>
  match program machine.streams with
  | .ok result streams => .ok result { machine with streams := streams }
  | .error message streams => .error (.stream message) { machine with streams := streams }

def registersNow : MachineM Registers := do
  return (← get).registers

def head : MachineM CellId := do
  return (← get).registers.head

def setAccumulator (value : Num) : MachineM Unit :=
  modify fun machine => { machine with registers := { machine.registers with accumulator := value } }

def setCondition (value : Bool) : MachineM Unit :=
  modify fun machine => { machine with registers := { machine.registers with condition := value } }

def setHead (cell : CellId) : MachineM Unit :=
  modify fun machine => { machine with registers := { machine.registers with head := cell } }

/-- The value of the cell under the head. -/
def activeValue : MachineM Num := do
  return (← onStore (Store.cell (← head))).value

def resolve : Operand → MachineM Num
  | .constant value => return value
  | .register .accumulator => return (← registersNow).accumulator
  | .register .active => activeValue

end Machine

namespace Arithmetic

/-- A difference, which must be neither negative nor too large. -/
def difference (minuend subtrahend : Num) : Except AbortReason Num :=
  match Num.ofInt? (minuend.toInt - subtrahend.toInt) with
  | some value => if 0 ≤ value then .ok value else .error (.negativeDifference minuend subtrahend)
  | none => .error (.negativeDifference minuend subtrahend)

/-- A quotient rounded toward zero. -/
def quotient (dividend divisor : Num) : Except AbortReason Num :=
  if divisor = 0 then .error (.divisionByZero dividend) else .ok (dividend / divisor)

/-- What a quotient leaves, with the sign of the dividend. -/
def modulus (dividend divisor : Num) : Except AbortReason Num :=
  if divisor = 0 then .error (.remainderByZero dividend) else .ok (dividend % divisor)

def apply : Arithmetic → Num → Num → Except AbortReason Num
  | .add, accumulator, operand => .ok (accumulator + operand)
  | .multiply, accumulator, operand => .ok (accumulator * operand)
  | .subtract, accumulator, operand => difference accumulator operand
  | .subtractFrom, accumulator, operand => difference operand accumulator
  | .divide, accumulator, operand => quotient accumulator operand
  | .divideFrom, accumulator, operand => quotient operand accumulator
  | .remainder, accumulator, operand => modulus accumulator operand
  | .remainderFrom, accumulator, operand => modulus operand accumulator

end Arithmetic

namespace Machine

/-- Move the head; a move onto the top of the tree, or past it, ends the run. -/
def move : Move → MachineM Flow
  | .up => do
      let head ← head
      let _ ← onStore (Store.cell head)
      match (← get).store.parent? head with
      | none => return .exit
      | some parent =>
          setHead parent.id
          return if ← onStore (Store.isTop parent.id) then .exit else .okay
  | .down => do
      let value ← activeValue
      if value ≤ 0 then
        throw (.emptyDescent value)
      setHead (← onStore (Store.child (← head)))
      return .okay
  | .previous => do
      setHead (← onStore (Store.prev (← head)))
      return .okay
  | .next => do
      setHead (← onStore (Store.next (← head)))
      return .okay
  | .back count => do
      let count ← resolve count
      setHead (← onStore (Store.shiftBack (← head) count))
      return .okay
  | .forward count => do
      let count ← resolve count
      setHead (← onStore (Store.shiftForward (← head) count))
      return .okay
  | .restart => do
      let parent ← onStore (Store.parentOf (← head))
      setHead (← onStore (Store.child parent.id))
      return .okay
  | .rotate => do
      onStore (Store.makeFirst (← head))
      return .okay

/-- Change the ring and put the head on the new neighbour; on the top of the tree the run ends. -/
def edit (change : Edit) : MachineM Flow := do
  let head ← head
  let target ← onStore <|
    match change with
    | .insertBefore => Store.insertBefore head 0
    | .insertAfter => Store.insertAfter head 0
    | .deleteBefore => Store.deleteBefore head
    | .deleteAfter => Store.deleteAfter head
  setHead target
  return if ← onStore (Store.isTop target) then .exit else .okay

/-- Read into the cell under the head. -/
def input : Format → MachineM Unit
  | .byte => do
      let byte ← onStreams Streams.readByte
      let value := match byte with
        | some byte => Num.ofByte byte
        | none => 0
      onStore (Store.setValue (← head) value)
  | .number => do
      let value ← onStreams Streams.readNumber
      onStore (Store.setValue (← head) value)
  | .line => do
      let line := CellTree.ofBytes (← onStreams Streams.readLine)
      onStore (Store.copyFrom (← head) line.store line.root)

/-- Write the value of the cell under the head, or the low bytes of its children. -/
def output (format : Format) : MachineM Unit := do
  let value ← activeValue
  match format with
  | .byte =>
      match value.toByte? with
      | some byte => onStreams (Streams.write [byte])
      | none => throw (.invalidCharacter value)
  | .number => onStreams (Streams.write (Text.Utf8.encode value.text.toList))
  | .line =>
      if 0 < value then
        let first ← onStore (Store.child (← head))
        let values ← onStore (Store.valuesFrom value.toInt.toNat first)
        onStreams (Streams.write (values.map Num.lowByte))

/-- Carry out one operation. -/
def perform : Op → MachineM Flow
  | .leave => return .leave
  | .increment => do
      setAccumulator ((← registersNow).accumulator + 1)
      return .okay
  | .decrement => do
      let accumulator := (← registersNow).accumulator
      if accumulator ≤ 0 then
        throw .decrementPastZero
      setAccumulator (accumulator - 1)
      return .okay
  | .invert => do
      setCondition (!(← registersNow).condition)
      return .okay
  | .setAccumulator operand => do
      setAccumulator (← resolve operand)
      return .okay
  | .setCondition operand => do
      setCondition ((← resolve operand) != 0)
      return .okay
  | .setValue operand => do
      let value ← resolve operand
      onStore (Store.setValue (← head) value)
      return .okay
  | .setMemory literal => do
      onStore (Store.copyFrom (← head) literal.store literal.root)
      return .okay
  | .arithmetic operation operand => do
      let operand ← resolve operand
      match operation.apply (← registersNow).accumulator operand with
      | .ok value =>
          setAccumulator value
          return .okay
      | .error reason => throw reason
  | .connect connective operand => do
      let operand ← resolve operand
      setCondition (connective.apply (← registersNow).condition operand)
      return .okay
  | .compare comparison operand => do
      let operand ← resolve operand
      setCondition (comparison.holds (← registersNow).accumulator operand)
      return .okay
  | .move direction => move direction
  | .edit change => edit change
  | .input format => do
      input format
      return .okay
  | .output format => do
      output format
      return .okay

end Machine

end RingTape
