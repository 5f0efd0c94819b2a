import RingTape.Code.Op
import RingTape.Location

/-!
Tokens, the words of a source text. The body of a quoted literal is kept as it was written.
-/

namespace RingTape

set_option autoImplicit false

/-- A literal that stands for a number. -/
inductive Numeral where
  | integer (text : String)
  | truth (value : Bool)
  | char (raw : String) (closed : Bool)
deriving DecidableEq, Repr

inductive Token where
  | keyword (word : String)
  | dot
  | register (name : Register)
  | terminator (gate : Gate)
  | openBlock
  | closeBlock
  | openMemory
  | closeMemory
  | string (raw : String) (closed : Bool)
  | numeral (number : Numeral)
  | concat
deriving DecidableEq, Repr

/-- A quoted body with its quotes, the second only if the literal is closed. -/
def quoted (quote raw : String) (closed : Bool) : String :=
  quote ++ raw ++ (if closed then quote else "")

def Numeral.text : Numeral → String
  | .integer text => text
  | .truth true => "T"
  | .truth false => "F"
  | .char raw closed => quoted "'" raw closed

namespace Token

/-- The token as it was written. -/
def text : Token → String
  | .keyword word => word
  | .dot => "."
  | .register name => name.text
  | .terminator gate => gate.terminator.toString
  | .openBlock => "\x7b"
  | .closeBlock => "\x7d"
  | .openMemory => "("
  | .closeMemory => ")"
  | .string raw closed => quoted "\"" raw closed
  | .numeral number => number.text
  | .concat => "&"

def isNumeral : Token → Bool
  | .numeral _ => true
  | _ => false

/-- Whether the token can be an operand. -/
def isOperand : Token → Bool
  | .register _ => true
  | .numeral _ => true
  | _ => false

/-- Whether the token can begin a memory literal. -/
def beginsMemory : Token → Bool
  | .string _ _ => true
  | .openMemory => true
  | .numeral _ => true
  | _ => false

/-- How the end of the text is named where a token was expected. -/
def endText : String := "end of input"

/-- A word by what it is: a register, a truth value, an integer if it begins with a digit, or a keyword. -/
def ofWord (word : List Char) : Token :=
  match word with
  | ['a'] => .register .accumulator
  | ['m'] => .register .active
  | ['T'] => .numeral (.truth true)
  | ['F'] => .numeral (.truth false)
  | first :: _ =>
      if first.isDigit then .numeral (.integer (String.ofList word)) else .keyword (String.ofList word)
  | [] => .keyword ""

/-- The tokens that are one character long. -/
def ofChar? : Char → Option Token
  | '{' => some .openBlock
  | '}' => some .closeBlock
  | '(' => some .openMemory
  | ')' => some .closeMemory
  | ';' => some (.terminator .always)
  | '?' => some (.terminator .whenTrue)
  | '!' => some (.terminator .whenFalse)
  | '.' => some .dot
  | '&' => some .concat
  | _ => none

end Token

end RingTape
