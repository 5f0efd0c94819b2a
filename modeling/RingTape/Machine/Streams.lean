import RingTape.Num

/-!
The two byte streams of a program, with counts of their traffic. The input either ends or breaks down once
its bytes are used up; what has been consumed before it breaks down stays consumed.
-/

namespace RingTape

set_option autoImplicit false

/-- What happens when a program looks for a byte after the last one. -/
inductive InputEnd where
  | stop
  | fail (message : String)
deriving DecidableEq, Repr

structure Traffic where
  bytesRead : Nat
  bytesWritten : Nat
  reads : Nat
  writes : Nat
deriving DecidableEq, Repr

structure Streams where
  input : List UInt8
  inputEnd : InputEnd
  output : Array UInt8
  traffic : Traffic
deriving DecidableEq, Repr

/-- A program on the streams; the message of a failure is that of the input. -/
abbrev StreamM := EStateM String Streams

namespace Streams

def ofInput (input : List UInt8) (inputEnd : InputEnd) : Streams :=
  ⟨input, inputEnd, #[], ⟨0, 0, 0, 0⟩⟩

/-- The blanks before a number. -/
def isBlank (byte : UInt8) : Bool :=
  byte = 0x20 || byte = 0x09 || byte = 0x0A || byte = 0x0C || byte = 0x0D

def isDigit (byte : UInt8) : Bool :=
  0x30 ≤ byte && byte ≤ 0x39

def countRead : StreamM Unit :=
  modify fun streams =>
    { streams with traffic := { streams.traffic with reads := streams.traffic.reads + 1 } }

/-- Take `count` bytes off the input and count them. -/
def consume (count : Nat) : StreamM Unit :=
  modify fun streams =>
    { streams with
      input := streams.input.drop count
      traffic := { streams.traffic with bytesRead := streams.traffic.bytesRead + count } }

/-- Look at the rest of the input, which may turn out to have broken down. -/
def look : StreamM (List UInt8) := do
  let streams ← get
  match streams.input, streams.inputEnd with
  | [], .fail message => throw message
  | input, _ => return input

/-- One byte, or none at the end. -/
def readByte : StreamM (Option UInt8) := do
  countRead
  match ← look with
  | byte :: _ =>
      consume 1
      return some byte
  | [] => return none

/-- Append a digit to a number, counting away from zero and stopping at the ends of the width. -/
def appendDigit (negative : Bool) (value : Num) (byte : UInt8) : Num :=
  let shifted := Num.saturate (value.toInt * 10)
  let digit := (byte.toNat - 0x30 : Nat)
  Num.saturate (if negative then shifted.toInt - digit else shifted.toInt + digit)

/--
A decimal number after blanks and an optional sign. The byte after it is looked at and stays; with no digits
the number is 0.
-/
def readNumber : StreamM Num := do
  countRead
  let input := (← get).input
  consume (input.takeWhile isBlank).length
  let input ← look
  let sign := input.head?.filter fun byte => byte = 0x2D || byte = 0x2B
  consume sign.toList.length
  let digits := (input.drop sign.toList.length).takeWhile isDigit
  consume digits.length
  let _ ← look
  return digits.foldl (appendDigit (sign = some 0x2D)) 0

/--
The bytes up to the next line feed, which is consumed with them, or up to the end. Input that breaks down
before a line feed is lost, and its bytes are not counted.
-/
def readLine : StreamM (List UInt8) := do
  countRead
  let streams ← get
  let line := streams.input.takeWhile fun byte => byte ≠ 0x0A
  if line.length < streams.input.length then
    consume (line.length + 1)
    return line
  match streams.inputEnd with
  | .stop =>
      consume line.length
      return line
  | .fail message =>
      set { streams with input := [] }
      throw message

def write (bytes : List UInt8) : StreamM Unit :=
  modify fun streams =>
    { streams with
      output := streams.output.appendList bytes
      traffic :=
        { streams.traffic with
          writes := streams.traffic.writes + 1
          bytesWritten := streams.traffic.bytesWritten + bytes.length } }

/-- Nothing is held back on the way out: what has been written is already there. -/
def flush : StreamM Unit :=
  return ()

/-- Hand over what has been written, once. -/
def takeOutput : StreamM (Array UInt8) :=
  modifyGet fun streams => (streams.output, { streams with output := #[] })

end Streams

end RingTape
