import RingTape.Text.Digit
import RingTape.Text.Utf8

/-!
What integer, character and string literals stand for. The body of a quoted literal is decoded byte by byte
over its UTF-8 form: a backslash begins an escape, any other byte stands for itself.
-/

namespace RingTape

set_option autoImplicit false

inductive LiteralError where
  | invalidInteger (text : String)
  | invalidEscape (seen : String)
  | invalidHexEscape (seen : String)
  | emptyChar (quoted : String)
  | wideChar (quoted : String)
deriving DecidableEq, Repr

namespace LiteralError

def message : LiteralError → String
  | .invalidInteger text => s!"invalid integer literal `{text}`"
  | .invalidEscape seen => s!"invalid character escape sequence `{seen}`"
  | .invalidHexEscape seen => s!"invalid character escape sequence `{seen}`"
  | .emptyChar quoted => s!"character literal `{quoted}` is empty"
  | .wideChar quoted => s!"character literal `{quoted}` contains more than one character"

def help? : LiteralError → Option String
  | .invalidHexEscape _ =>
      some "ascii escape sequences must be of the form `\\xHH`, where H are hexadecimal digits"
  | _ => none

end LiteralError

namespace Literal

/-- The radix and the digits of an integer literal: a marked radix, or decimal. -/
def radixOf : List Char → Nat × List Char
  | '0' :: 'b' :: digit :: digits => (2, digit :: digits)
  | '0' :: 'o' :: digit :: digits => (8, digit :: digits)
  | '0' :: 'd' :: digit :: digits => (10, digit :: digits)
  | '0' :: 'x' :: digit :: digits => (16, digit :: digits)
  | digits => (10, digits)

/-- The value of an integer literal that is all digits and fits the width. -/
def integer (text : String) : Except LiteralError Num :=
  let (radix, digits) := radixOf text.toList
  if !digits.isEmpty && digits.all (Text.isDigit radix) then
    match Num.ofInt? (Text.valueOf radix digits) with
    | some value => .ok value
    | none => .error (.invalidInteger text)
  else
    .error (.invalidInteger text)

/-- The byte that an escape letter stands for. -/
def namedEscape? (letter : UInt8) : Option UInt8 :=
  match Char.ofNat letter.toNat with
  | '\\' => some 0x5C
  | '\'' => some 0x27
  | '"' => some 0x22
  | ';' => some 0x3B
  | '?' => some 0x3F
  | ' ' => some 0x20
  | 's' => some 0x20
  | '0' => some 0x00
  | 'a' => some 0x07
  | 'b' => some 0x08
  | 'e' => some 0x1B
  | 'f' => some 0x0C
  | 'n' => some 0x0A
  | '\n' => some 0x0A
  | 'r' => some 0x0D
  | 't' => some 0x09
  | 'v' => some 0x0B
  | _ => none

/-- The value of a byte that is a hexadecimal digit. -/
def hexDigit? (byte : UInt8) : Option UInt8 :=
  (Text.digit? 16 (Char.ofNat byte.toNat)).map UInt8.ofNat

/-- Bytes of a text as they are shown in a message. -/
def shown (bytes : List UInt8) : String :=
  String.ofList (Text.Utf8.decodeLossy bytes)

def backslash : UInt8 := 0x5C

/-- The letter that begins an escape by its hexadecimal value. -/
def hexMark : UInt8 := 0x78

/-- The bytes that the body of a quoted literal stands for. -/
def decodeBytes : List UInt8 → Except LiteralError (List UInt8)
  | [] => .ok []
  | byte :: rest =>
      if byte ≠ backslash then
        (decodeBytes rest).map (byte :: ·)
      else
        match rest with
        | [] => .error (.invalidEscape "\\")
        | letter :: rest =>
            if letter = hexMark then
              match rest with
              | high :: low :: rest =>
                  match hexDigit? high, hexDigit? low with
                  | some upper, some lower => (decodeBytes rest).map ((upper * 16 + lower) :: ·)
                  | _, _ => .error (.invalidHexEscape ("\\x" ++ shown [high, low]))
              | short => .error (.invalidHexEscape ("\\x" ++ shown short))
            else
              match namedEscape? letter with
              | some decoded => (decodeBytes rest).map (decoded :: ·)
              | none => .error (.invalidEscape ("\\" ++ shown [letter]))

def escapes (raw : String) : Except LiteralError (List UInt8) :=
  decodeBytes (Text.Utf8.encode raw.toList)

/-- The value of a character literal, which is that of its only byte. -/
def char (raw : String) : Except LiteralError Num :=
  match escapes raw with
  | .error error => .error error
  | .ok [] => .error (.emptyChar ("'" ++ raw ++ "'"))
  | .ok [byte] => .ok (Num.ofByte byte)
  | .ok _ => .error (.wideChar ("'" ++ raw ++ "'"))

end Literal

end RingTape
