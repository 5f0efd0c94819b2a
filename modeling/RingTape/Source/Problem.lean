import RingTape.Code.Keyword
import RingTape.Source.Literal
import RingTape.Source.Token

/-!
What can be wrong with a source text, and how it is reported.
-/

namespace RingTape

set_option autoImplicit false

/-- A message at a place, with an optional hint. -/
structure Diagnostic where
  message : String
  location : Location
  help : Option String
deriving DecidableEq, Repr

namespace Diagnostic

def text (diagnostic : Diagnostic) : String :=
  let message := diagnostic.location.mark ("Parse error: " ++ diagnostic.message)
  match diagnostic.help with
  | some help => message ++ "\n -> Hint: " ++ help
  | none => message

/-- Several diagnostics, one after the other. -/
def textAll (diagnostics : List Diagnostic) : String :=
  "\n".intercalate (diagnostics.map text)

end Diagnostic

/-- Whether a keyword stands alone or before an operand. -/
inductive Arity where
  | nullary
  | unary
deriving DecidableEq, Repr

def Arity.text : Arity → String
  | .nullary => "nullary"
  | .unary => "unary"

inductive Problem where
  | repeatedBlock
  | repeatedMemory
  | emptyMemory
  | repeatedAccumulator
  | repeatedCondition
  | strayToken (token : Token)
  | missingBlock
  /-- A register seed is not followed by a number; `found` is what follows. -/
  | seedWithoutNumber (name found : String)
  | unclosedBlock
  | emptyBlock
  | notInstruction (token : Token)
  | unknownKeyword (arity : Arity) (word : String)
  | badMemoryValue
  | unclosedChar (token : String)
  | unclosedString (token : String)
  | literal (error : LiteralError)
  /-- A string was expected; `isMemory` says whether another memory literal stands there. -/
  | notString (found : String) (isMemory : Bool)
  | unclosedMemory
  | notLiteral (token : Token)
  | memory (fault : Fault)
deriving DecidableEq, Repr

namespace Problem

def message : Problem → String
  | .repeatedBlock => "more than one instruction block at top-level scope"
  | .repeatedMemory => "more than one memory literal at top-level scope"
  | .emptyMemory => "initial memory must contain at least one cell"
  | .repeatedAccumulator => "more than one initial accumulator value"
  | .repeatedCondition => "more than one initial conditional value"
  | .strayToken token => s!"invalid token at top-level scope `{token.text}`"
  | .missingBlock => "program has no instruction block"
  | .seedWithoutNumber name found =>
      s!"expected a numeric literal after `{name}`, found `{found}`"
  | .unclosedBlock => "instruction block is not closed"
  | .emptyBlock => "instruction block must contain at least one instruction"
  | .notInstruction token => s!"invalid instruction code `{token.text}`"
  | .unknownKeyword arity word => s!"unrecognized {arity.text} instruction `{word}`"
  | .badMemoryValue => "invalid memory value for `.` instruction"
  | .unclosedChar token => s!"character literal `{token}` is not closed"
  | .unclosedString token => s!"string literal `{token}` is not closed"
  | .literal error => error.message
  | .notString found _ => s!"expected a string literal, but instead got `{found}`"
  | .unclosedMemory => "memory block is not closed"
  | .notLiteral token => s!"invalid memory token `{token.text}`"
  | .memory fault => fault.message

/-- The hint for an unknown keyword: the other arity if it has the word, or else a similar word. -/
def keywordHelp? (arity : Arity) (word : String) : Option String :=
  if arity = .nullary ∧ word ∈ Keyword.unaryWords then
    some s!"`{word}` takes an argument"
  else if arity = .unary ∧ word ∈ Keyword.nullaryWords then
    some s!"`{word}` does not take an argument"
  else
    (Keyword.suggest word).map fun keyword => s!"did you mean `{keyword}`?"

def help? : Problem → Option String
  | .emptyMemory => some "the program starts on the first child of the memory literal"
  | .missingBlock => some "wrap the program's instructions in '\x7b' and '\x7d'"
  | .unclosedBlock => some "did you forget a '\x7d'?"
  | .notInstruction token =>
      if token.beginsMemory || token.isOperand then some "did you mean to use '.'?" else none
  | .unknownKeyword arity word => keywordHelp? arity word
  | .unclosedChar _ => some "did you forget a `'`?"
  | .unclosedString _ => some "did you forget a `\"`?"
  | .literal error => error.help?
  | .notString _ true => some "`&` can only be used to concatenate string literals"
  | .notString _ false => some "did you use an unnecessary `&`?"
  | .unclosedMemory => some "did you forget a ')'?"
  | .notLiteral _ => some "only literal values may appear in a memory block"
  | _ => none

def diagnostic (problem : Located Problem) : Diagnostic :=
  ⟨problem.value.message, problem.location, problem.value.help?⟩

end Problem

end RingTape
