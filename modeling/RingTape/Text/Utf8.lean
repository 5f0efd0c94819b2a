/-!
UTF-8. `encode` writes text as bytes. `decodeLossy` reads any bytes as text for display: each longest part
that begins like a character and is not one becomes a single U+FFFD.
-/

namespace RingTape.Text.Utf8

set_option autoImplicit false

def encode (text : List Char) : List UInt8 :=
  text.flatMap String.utf8EncodeChar

def replacement : Char := '\uFFFD'

/-- A character that has begun: its bits so far, the bytes it still needs, and the range of the next one. -/
structure Pending where
  bits : Nat
  owed : Nat
  low : UInt8
  high : UInt8

/-- What the first byte of a character says: a whole character, the start of one, or neither. -/
inductive Lead where
  | whole (char : Char)
  | start (pending : Pending)
  | invalid

def lead (byte : UInt8) : Lead :=
  let bits := byte.toNat
  if byte < 0x80 then .whole (Char.ofNat bits)
  else if byte < 0xC2 then .invalid
  else if byte < 0xE0 then .start ⟨bits % 32, 1, 0x80, 0xBF⟩
  else if byte = 0xE0 then .start ⟨bits % 16, 2, 0xA0, 0xBF⟩
  else if byte = 0xED then .start ⟨bits % 16, 2, 0x80, 0x9F⟩
  else if byte < 0xF0 then .start ⟨bits % 16, 2, 0x80, 0xBF⟩
  else if byte = 0xF0 then .start ⟨bits % 8, 3, 0x90, 0xBF⟩
  else if byte < 0xF4 then .start ⟨bits % 8, 3, 0x80, 0xBF⟩
  else if byte = 0xF4 then .start ⟨bits % 8, 3, 0x80, 0x8F⟩
  else .invalid

/-- The characters that a first byte completes, and the character it begins. -/
def Lead.open : Lead → List Char × Option Pending
  | .whole char => ([char], none)
  | .start pending => ([], some pending)
  | .invalid => ([replacement], none)

def decodeFrom : Option Pending → List UInt8 → List Char
  | none, [] => []
  | some _, [] => [replacement]
  | none, byte :: rest =>
      let (done, pending) := (lead byte).open
      done ++ decodeFrom pending rest
  | some pending, byte :: rest =>
      if pending.low ≤ byte ∧ byte ≤ pending.high then
        let bits := pending.bits * 64 + byte.toNat % 64
        if pending.owed ≤ 1 then
          Char.ofNat bits :: decodeFrom none rest
        else
          decodeFrom (some ⟨bits, pending.owed - 1, 0x80, 0xBF⟩) rest
      else
        let (done, begun) := (lead byte).open
        replacement :: done ++ decodeFrom begun rest

def decodeLossy (bytes : List UInt8) : List Char :=
  decodeFrom none bytes

end RingTape.Text.Utf8
