import RingTape.Text.Digit

/-!
Leaves of JSON text, each read off the front of a list of characters. `skipValue` passes over any value,
checking only that it is one; `readInteger` reads a number that must be a register value, so neither a
fraction, nor an exponent, nor a negative zero.
-/

namespace RingTape.Text.Json

set_option autoImplicit false

def isSpace (char : Char) : Bool :=
  char = ' ' || char = '\n' || char = '\t' || char = '\r'

def skipSpace (text : List Char) : List Char :=
  text.dropWhile isSpace

def isHex (char : Char) : Bool :=
  Text.isDigit 16 char

/-- The character that a one-letter escape stands for. -/
def escaped? : Char → Option Char
  | '"' => some '"'
  | '\\' => some '\\'
  | '/' => some '/'
  | 'b' => some '\x08'
  | 'f' => some '\x0c'
  | 'n' => some '\n'
  | 'r' => some '\r'
  | 't' => some '\t'
  | _ => none

/-- One unit of a string: a character, or a 16-bit unit given by its number. -/
inductive Piece where
  | char (char : Char)
  | unit (code : Nat)
deriving DecidableEq, Repr

/-- The units of a string up to its closing quote, and the text after it. -/
def readPieces : List Char → Option (List Piece × List Char)
  | [] => none
  | '"' :: rest => some ([], rest)
  | '\\' :: 'u' :: a :: b :: c :: d :: rest =>
      if [a, b, c, d].all isHex then
        (readPieces rest).map fun (pieces, rest) => (.unit (Text.valueOf 16 [a, b, c, d]) :: pieces, rest)
      else
        none
  | '\\' :: letter :: rest =>
      match escaped? letter with
      | some char => (readPieces rest).map fun (pieces, rest) => (.char char :: pieces, rest)
      | none => none
  | char :: rest =>
      if char < ' ' then
        none
      else
        (readPieces rest).map fun (pieces, rest) => (.char char :: pieces, rest)

/-- The text that units spell; a surrogate counts only as half of a pair. -/
def joinPieces : List Piece → Option (List Char)
  | [] => some []
  | .char char :: rest => (joinPieces rest).map (char :: ·)
  | .unit high :: .unit low :: rest =>
      if 0xD800 ≤ high ∧ high < 0xDC00 then
        if 0xDC00 ≤ low ∧ low < 0xE000 then
          (joinPieces rest).map (Char.ofNat (0x10000 + (high - 0xD800) * 0x400 + (low - 0xDC00)) :: ·)
        else
          none
      else if 0xDC00 ≤ high ∧ high < 0xE000 then
        none
      else
        (joinPieces (.unit low :: rest)).map (Char.ofNat high :: ·)
  | .unit code :: rest =>
      if 0xD800 ≤ code ∧ code < 0xE000 then none else (joinPieces rest).map (Char.ofNat code :: ·)

/-- An opening quote, the key it begins and the colon after it. -/
def readKey (text : List Char) : Option (List Char × List Char) := do
  let '"' :: rest := skipSpace text | none
  let (pieces, rest) ← readPieces rest
  let key ← joinPieces pieces
  let ':' :: rest := skipSpace rest | none
  return (key, rest)

/-- At least one digit. -/
def skipDigits (text : List Char) : Option (List Char) :=
  match text with
  | char :: _ => if Text.isDigit 10 char then some (text.dropWhile (Text.isDigit 10)) else none
  | [] => none

/-- The digits before a fraction: a zero alone, or digits that do not begin with one. -/
def skipWhole (text : List Char) : Option (List Char) :=
  match text with
  | '0' :: rest =>
      match rest with
      | char :: _ => if Text.isDigit 10 char then none else some rest
      | [] => some rest
  | _ => skipDigits text

def skipFraction (text : List Char) : Option (List Char) :=
  match text with
  | '.' :: rest => skipDigits rest
  | _ => some text

def skipExponent (text : List Char) : Option (List Char) :=
  match text with
  | mark :: rest =>
      if mark = 'e' ∨ mark = 'E' then
        match rest with
        | sign :: digits => if sign = '+' ∨ sign = '-' then skipDigits digits else skipDigits rest
        | [] => none
      else
        some text
  | [] => some text

def skipNumber (text : List Char) : Option (List Char) :=
  let unsigned :=
    match text with
    | '-' :: rest => rest
    | _ => text
  skipWhole unsigned >>= skipFraction >>= skipExponent

mutual

/-- Pass over one value of any kind. -/
def skipValue : Nat → List Char → Option (List Char)
  | 0, _ => none
  | fuel + 1, text =>
      match skipSpace text with
      | '"' :: rest => (readPieces rest).map Prod.snd
      | '[' :: rest =>
          match skipSpace rest with
          | ']' :: rest => some rest
          | rest => skipItems fuel rest
      | '{' :: rest =>
          match skipSpace rest with
          | '}' :: rest => some rest
          | rest => skipFields fuel rest
      | 'n' :: 'u' :: 'l' :: 'l' :: rest => some rest
      | 't' :: 'r' :: 'u' :: 'e' :: rest => some rest
      | 'f' :: 'a' :: 'l' :: 's' :: 'e' :: rest => some rest
      | rest => skipNumber rest

def skipItems : Nat → List Char → Option (List Char)
  | 0, _ => none
  | fuel + 1, text =>
      match skipValue fuel text with
      | none => none
      | some rest =>
          match skipSpace rest with
          | ',' :: rest => skipItems fuel rest
          | ']' :: rest => some rest
          | _ => none

def skipFields : Nat → List Char → Option (List Char)
  | 0, _ => none
  | fuel + 1, text =>
      match skipSpace text with
      | '"' :: rest =>
          match readPieces rest with
          | none => none
          | some (_, rest) =>
              match skipSpace rest with
              | ':' :: rest =>
                  match skipValue fuel rest with
                  | none => none
                  | some rest =>
                      match skipSpace rest with
                      | ',' :: rest => skipFields fuel rest
                      | '}' :: rest => some rest
                      | _ => none
              | _ => none
      | _ => none

end

/-- Digits that are followed by neither a fraction nor an exponent, and the number they spell. -/
def readWhole (text : List Char) : Option (Nat × List Char) := do
  let rest ← skipWhole text
  let number := Text.valueOf 10 (text.takeWhile (Text.isDigit 10))
  match rest with
  | mark :: _ => if mark = '.' ∨ mark = 'e' ∨ mark = 'E' then none else return (number, rest)
  | [] => return (number, rest)

def readInteger (text : List Char) : Option (Num × List Char) :=
  match skipSpace text with
  | '-' :: rest => do
      let (number, rest) ← readWhole rest
      if number = 0 then
        none
      let value ← Num.ofInt? (-number)
      return (value, rest)
  | rest => do
      let (number, rest) ← readWhole rest
      let value ← Num.ofInt? number
      return (value, rest)

end RingTape.Text.Json
