/-!
The one integral width of the language, a signed 64-bit register value. Its own arithmetic wraps; the few
rules that must not wrap are stated over the integers and brought back by `Num.ofInt?` or `Num.saturate`.
-/

namespace RingTape

set_option autoImplicit false

abbrev Num := Int64

namespace Num

def least : Int := -0x8000000000000000

def greatest : Int := 0x7FFFFFFFFFFFFFFF

/-- The register value of an integer, when the width can hold it. -/
def ofInt? (exact : Int) : Option Num :=
  if least ≤ exact ∧ exact ≤ greatest then some (Int64.ofInt exact) else none

/-- The nearest register value of an integer. -/
def saturate (exact : Int) : Num :=
  Int64.ofInt (max least (min greatest exact))

def ofByte (byte : UInt8) : Num :=
  Int64.ofNat byte.toNat

/-- The low eight bits. -/
def lowByte (value : Num) : UInt8 :=
  value.toUInt64.toUInt8

/-- The byte equal to the value, for values from 0 to 255. -/
def toByte? (value : Num) : Option UInt8 :=
  if 0 ≤ value ∧ value ≤ 255 then some value.lowByte else none

/-- A truth value as a number: 1 or 0. -/
def ofBool (truth : Bool) : Num :=
  if truth then 1 else 0

end Num

/-- Decimal digits of a natural number, without leading zeros. -/
def decimalDigits (number : Nat) : List Char :=
  Nat.toDigits 10 number

/-- Decimal text of an integer, with a minus sign when it is negative. -/
def decimalText : Int → String
  | .ofNat number => String.ofList (decimalDigits number)
  | .negSucc number => String.ofList ('-' :: decimalDigits (number + 1))

def Num.text (value : Num) : String :=
  decimalText value.toInt

end RingTape
