import RingTape.Code.Basic
import RingTape.Source.Problem

/-!
Reading memory literals, instructions and blocks off the front of a list of tokens. Reading never stops at
a problem: it notes it, passes over what it cannot use and goes on, so one reading reports everything that is
wrong. The tokens left over are always an end piece of those given.
-/

namespace RingTape

set_option autoImplicit false

/-- What was read, if it could be used, with the tokens after it and the problems met. -/
structure Reading (α : Type) where
  value : Option α
  rest : List (Located Token)
  problems : List (Located Problem)

namespace Reading

variable {α β : Type}

def map (change : α → β) (reading : Reading α) : Reading β :=
  ⟨reading.value.map change, reading.rest, reading.problems⟩

/-- One reading and then the readings after it, usable only if all of them are. -/
def cons (head : Reading α) (tail : Reading (List α)) : Reading (List α) :=
  ⟨head.value.bind fun first => tail.value.map (first :: ·), tail.rest, head.problems ++ tail.problems⟩

/-- Two readings one after the other, usable only if both are. -/
def append (head tail : Reading (List α)) : Reading (List α) :=
  ⟨head.value.bind fun first => tail.value.map (first ++ ·), tail.rest, head.problems ++ tail.problems⟩

/-- The result of a check, with the tokens after what was checked. -/
def ofExcept (location : Location) (rest : List (Located Token)) : Except Problem α → Reading α
  | .ok value => ⟨some value, rest, []⟩
  | .error problem => ⟨none, rest, [⟨problem, location⟩]⟩

end Reading

/-- The value of a literal that stands for a number. -/
def Numeral.value : Numeral → Except Problem Num
  | .integer text => (Literal.integer text).mapError Problem.literal
  | .truth value => .ok (Num.ofBool value)
  | .char raw true => (Literal.char raw).mapError Problem.literal
  | .char raw false => .error (.unclosedChar (Numeral.char raw false).text)

/-- The bytes of one string literal. -/
def stringBytes (raw : String) (closed : Bool) : Except Problem (List UInt8) :=
  if closed then
    (Literal.escapes raw).mapError Problem.literal
  else
    .error (.unclosedString (Token.string raw false).text)

namespace Reading

/-- How the next token is named in a message. -/
def nextText : List (Located Token) → String
  | [] => Token.endText
  | token :: _ => token.value.text

/-- String literals joined by `&`, as the bytes of all of them. -/
def strings (finish : Location) : List (Located Token) → Reading (List UInt8)
  | ⟨.string raw closed, location⟩ :: rest =>
      let piece := ofExcept location rest (stringBytes raw closed)
      match rest with
      | ⟨.concat, _⟩ :: rest => piece.append (strings finish rest)
      | _ => piece
  | ⟨token, location⟩ :: rest =>
      ⟨none, ⟨token, location⟩ :: rest, [⟨.notString token.text token.beginsMemory, location⟩]⟩
  | [] => ⟨none, [], [⟨.notString Token.endText false, finish⟩]⟩

/-- The tree whose root has the given children. -/
def group (location : Location) (children : Reading (List CellTree)) : Reading CellTree :=
  match children.value with
  | none => ⟨none, children.rest, children.problems⟩
  | some trees =>
      match CellTree.ofChildren trees with
      | .ok tree => ⟨some tree, children.rest, children.problems⟩
      | .error fault => ⟨none, children.rest, children.problems ++ [⟨.memory fault, location⟩]⟩

/--
The memory literals up to the closing parenthesis. Each call takes at least one token, so as much fuel as
there are tokens is enough.
-/
def items (finish : Location) : Nat → Location → List (Located Token) → Reading (List CellTree)
  | _, opened, [] => ⟨none, [], [⟨.unclosedMemory, opened⟩]⟩
  | 0, _, rest => ⟨none, rest, []⟩
  | fuel + 1, opened, ⟨token, location⟩ :: rest =>
      match token with
      | .closeMemory => ⟨some [], rest, []⟩
      | .openMemory =>
          let tree := group location (items finish fuel location rest)
          tree.cons (items finish fuel opened tree.rest)
      | .string raw closed =>
          let bytes := strings finish (⟨.string raw closed, location⟩ :: rest)
          (bytes.map CellTree.ofBytes).cons (items finish fuel opened bytes.rest)
      | .numeral number =>
          ((ofExcept location rest number.value).map CellTree.leaf).cons (items finish fuel opened rest)
      | other => (ofExcept location rest (.error (.notLiteral other))).cons (items finish fuel opened rest)

/-- The memory literal that begins with the given token. -/
def memory (finish : Location) (token : Located Token) (rest : List (Located Token)) : Reading CellTree :=
  match token.value with
  | .openMemory => group token.location (items finish rest.length token.location rest)
  | .string _ _ => (strings finish (token :: rest)).map CellTree.ofBytes
  | .numeral number => (ofExcept token.location rest number.value).map CellTree.leaf
  | other => ofExcept token.location rest (.error (.notLiteral other))

/-- The operand that a token stands for, if it can be one. -/
def operand? (token : Token) : Option (Except Problem Operand) :=
  match token with
  | .register name => some (.ok (.register name))
  | .numeral number => some (number.value.map Operand.constant)
  | _ => none

/-- A terminator, if there is one. -/
def gate : List (Located Token) → Gate × List (Located Token)
  | ⟨.terminator gate, _⟩ :: rest => (gate, rest)
  | rest => (.always, rest)

/-- An operation and the terminator after it as an instruction. -/
def gated (location : Location) (op : Reading Op) : Reading Instruction :=
  let (gate, rest) := gate op.rest
  ⟨op.value.map fun op => ⟨op, gate, location⟩, rest, op.problems⟩

/-- An operation without operand. -/
def nullary (word : String) (location : Location) (rest : List (Located Token)) : Reading Op :=
  ofExcept location rest <|
    match Keyword.nullary? word with
    | some op => .ok op
    | none => .error (.unknownKeyword .nullary word)

/-- The operation of a keyword, with its operand if one follows. -/
def operation (word : String) (location : Location) (rest : List (Located Token)) : Reading Op :=
  match rest with
  | [] => nullary word location rest
  | next :: after =>
      match operand? next.value with
      | none => nullary word location rest
      | some (.error problem) => ⟨none, after, [⟨problem, next.location⟩]⟩
      | some (.ok operand) =>
          ofExcept location after <|
            match Keyword.unary? word operand with
            | some op => .ok op
            | none => .error (.unknownKeyword .unary word)

/-- What a dot assigns to the cell under the head: an operand, or a memory literal. -/
def assignment (finish : Location) (location : Location) (rest : List (Located Token)) :
    Reading Instruction :=
  match rest with
  | [] => ofExcept location rest (.error .badMemoryValue)
  | next :: after =>
      match operand? next.value with
      | some operand => gated location ((ofExcept next.location after operand).map Op.setValue)
      | none =>
          if next.value.beginsMemory then
            gated location ((memory finish next after).map Op.setMemory)
          else if next.value = .closeBlock then
            ofExcept location rest (.error .badMemoryValue)
          else
            ofExcept location after (.error .badMemoryValue)

/-- The instruction that begins with the given token. -/
def instruction (finish : Location) (token : Located Token) (rest : List (Located Token)) :
    Reading Instruction :=
  match token.value with
  | .dot => assignment finish token.location rest
  | .keyword word => gated token.location (operation word token.location rest)
  | other => ofExcept token.location rest (.error (.notInstruction other))

/-- The usable members of a block, and whether anything at all stood in it. -/
structure Body where
  members : List Code
  attempted : Bool

/-- A member and then the members after it; an unusable member is left out. -/
def join (member : Reading Code) (rest : Reading Body) : Reading Body :=
  ⟨rest.value.map fun body => ⟨member.value.toList ++ body.members, true⟩, rest.rest,
    member.problems ++ rest.problems⟩

/-- The block with the given body. -/
def close (gate : Gate) (location : Location) (body : Reading Body) : Reading (Block Code) :=
  match body.value with
  | none => ⟨none, body.rest, body.problems⟩
  | some ⟨first :: others, _⟩ => ⟨some ⟨gate, first, others, location⟩, body.rest, body.problems⟩
  | some ⟨[], true⟩ => ⟨none, body.rest, body.problems⟩
  | some ⟨[], false⟩ => ⟨none, body.rest, body.problems ++ [⟨.emptyBlock, location⟩]⟩

/--
The members of a block up to its closing brace. Each call takes at least one token, so as much fuel as there
are tokens is enough.
-/
def members (finish : Location) : Nat → Location → List (Located Token) → Reading Body
  | _, opened, [] => ⟨none, [], [⟨.unclosedBlock, opened⟩]⟩
  | 0, _, rest => ⟨none, rest, []⟩
  | fuel + 1, opened, ⟨token, location⟩ :: rest =>
      match token with
      | .closeBlock => ⟨some ⟨[], false⟩, rest, []⟩
      | .openBlock =>
          let (gate, rest) := gate rest
          let inner := close gate location (members finish fuel location rest)
          join (inner.map Code.block) (members finish fuel opened inner.rest)
      | other =>
          let member := instruction finish ⟨other, location⟩ rest
          join (member.map Code.instruction) (members finish fuel opened member.rest)

/-- The block whose opening brace stands at the given place. -/
def block (finish : Location) (opened : Location) (rest : List (Located Token)) : Reading (Block Code) :=
  let (gate, rest) := gate rest
  close gate opened (members finish rest.length opened rest)

end Reading

end RingTape
