import RingTape.Source.Token
import RingTape.Text.Blank

/-!
Scanning a source text into tokens, one character at a time. Between tokens stand blanks and comments, which
run from `#` to the end of the line. A word ends where a blank, a comment, a quote or a token of one
character begins.
-/

namespace RingTape

set_option autoImplicit false

/-- Which quote a literal is written in. -/
inductive Quote where
  | single
  | double
deriving DecidableEq, Repr

namespace Quote

def char : Quote → Char
  | .single => '\''
  | .double => '"'

def ofChar? : Char → Option Quote
  | '\'' => some .single
  | '"' => some .double
  | _ => none

/-- The token of a literal in these quotes. -/
def token (quote : Quote) (raw : List Char) (closed : Bool) : Token :=
  match quote with
  | .single => .numeral (.char (String.ofList raw) closed)
  | .double => .string (String.ofList raw) closed

end Quote

/-- What the scanner is inside of; the characters of a token are kept latest first. -/
inductive Scanner.Mode where
  | gap
  | comment
  | word (reversed : List Char) (start : Location)
  | quoted (quote : Quote) (reversed : List Char) (escaped : Bool) (start : Location)
deriving DecidableEq, Repr

structure Scanner where
  mode : Scanner.Mode
  here : Location
  tokens : Array (Located Token)

namespace Scanner

def initial : Scanner := ⟨.gap, Location.start, #[]⟩

/-- What a character outside of tokens begins: a token at once, or a new mode. -/
def enter (char : Char) (here : Location) : Option Token × Mode :=
  match Token.ofChar? char with
  | some token => (some token, .gap)
  | none =>
      match Quote.ofChar? char with
      | some quote => (none, .quoted quote [] false here)
      | none =>
          if Text.isBlank char then (none, .gap)
          else if char = '#' then (none, .comment)
          else (none, .word [char] here)

/-- Whether a character ends a word. -/
def endsWord (char : Char) : Bool :=
  Text.isBlank char || (Token.ofChar? char).isSome || (Quote.ofChar? char).isSome || char = '#'

/-- Take a character outside of tokens, after the tokens found so far. -/
def begin (tokens : Array (Located Token)) (here : Location) (char : Char) : Scanner :=
  match enter char here with
  | (some token, mode) => ⟨mode, here.advance char, tokens.push ⟨token, here⟩⟩
  | (none, mode) => ⟨mode, here.advance char, tokens⟩

/-- Take one character. -/
def feed (scanner : Scanner) (char : Char) : Scanner :=
  let next := scanner.here.advance char
  match scanner.mode with
  | .gap => begin scanner.tokens scanner.here char
  | .comment => ⟨if char = '\n' then .gap else .comment, next, scanner.tokens⟩
  | .word reversed start =>
      if endsWord char then
        begin (scanner.tokens.push ⟨Token.ofWord reversed.reverse, start⟩) scanner.here char
      else
        ⟨.word (char :: reversed) start, next, scanner.tokens⟩
  | .quoted quote reversed escaped start =>
      if escaped then
        ⟨.quoted quote (char :: reversed) false start, next, scanner.tokens⟩
      else if char = quote.char then
        ⟨.gap, next, scanner.tokens.push ⟨quote.token reversed.reverse true, start⟩⟩
      else
        ⟨.quoted quote (char :: reversed) (char = '\\') start, next, scanner.tokens⟩

/-- The tokens when the text ends here. -/
def finish (scanner : Scanner) : List (Located Token) :=
  let last :=
    match scanner.mode with
    | .gap => []
    | .comment => []
    | .word reversed start => [⟨Token.ofWord reversed.reverse, start⟩]
    | .quoted quote reversed _ start => [⟨quote.token reversed.reverse false, start⟩]
  scanner.tokens.toList ++ last

end Scanner

/-- The tokens of a source text and the place where it ends. -/
structure TokenList where
  tokens : List (Located Token)
  finish : Location

def TokenList.scan (source : String) : TokenList :=
  let scanner := source.toList.foldl Scanner.feed Scanner.initial
  ⟨scanner.finish, scanner.here⟩

end RingTape
