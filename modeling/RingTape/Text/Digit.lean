import RingTape.Num

/-!
Digits and the numbers they spell, in any radix up to 16.
-/

namespace RingTape.Text

set_option autoImplicit false

/-- The value of a digit in the given radix; letters of either case stand for ten and up. -/
def digit? (radix : Nat) (char : Char) : Option Nat :=
  let value :=
    if '0' ≤ char ∧ char ≤ '9' then some (char.toNat - '0'.toNat)
    else if 'a' ≤ char ∧ char ≤ 'f' then some (char.toNat - 'a'.toNat + 10)
    else if 'A' ≤ char ∧ char ≤ 'F' then some (char.toNat - 'A'.toNat + 10)
    else none
  value.filter fun digit => digit < radix

def isDigit (radix : Nat) (char : Char) : Bool :=
  (digit? radix char).isSome

/-- The number that digits spell, most significant first. -/
def valueOf (radix : Nat) (digits : List Char) : Nat :=
  digits.foldl (fun value char => value * radix + (digit? radix char).getD 0) 0

end RingTape.Text
