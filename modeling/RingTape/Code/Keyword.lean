import RingTape.Code.Op

/-!
Keywords. A keyword that is followed by an operand is looked up in the unary table, any other in the nullary
one; `<` and `>` are in both. `suggest` finds the keyword that a mistyped word was probably meant to be.
-/

namespace RingTape.Keyword

set_option autoImplicit false

/-- Keywords that take no operand. -/
def nullaryWords : List String :=
  ["break", "++", "--", "not", "chin", "numin", "strin", "chout", "numout", "strout", "^", "v",
    "<", ">", "R", "rot", "<+", "+>", "<-", "->"]

/-- Keywords that take an operand. -/
def unaryWords : List String :=
  ["A", "C", "+", "-", "r-", "*", "/", "r/", "%", "r%", "and", "or", "xor", ">>", "=", "<<", ">=",
    "<=", "/=", "<", ">"]

def nullary? : String → Option Op
  | "break" => some .leave
  | "++" => some .increment
  | "--" => some .decrement
  | "not" => some .invert
  | "chin" => some (.input .byte)
  | "numin" => some (.input .number)
  | "strin" => some (.input .line)
  | "chout" => some (.output .byte)
  | "numout" => some (.output .number)
  | "strout" => some (.output .line)
  | "^" => some (.move .up)
  | "v" => some (.move .down)
  | "<" => some (.move .previous)
  | ">" => some (.move .next)
  | "R" => some (.move .restart)
  | "rot" => some (.move .rotate)
  | "<+" => some (.edit .insertBefore)
  | "+>" => some (.edit .insertAfter)
  | "<-" => some (.edit .deleteBefore)
  | "->" => some (.edit .deleteAfter)
  | _ => none

def unary? (word : String) (operand : Operand) : Option Op :=
  match word with
  | "A" => some (.setAccumulator operand)
  | "C" => some (.setCondition operand)
  | "+" => some (.arithmetic .add operand)
  | "-" => some (.arithmetic .subtract operand)
  | "r-" => some (.arithmetic .subtractFrom operand)
  | "*" => some (.arithmetic .multiply operand)
  | "/" => some (.arithmetic .divide operand)
  | "r/" => some (.arithmetic .divideFrom operand)
  | "%" => some (.arithmetic .remainder operand)
  | "r%" => some (.arithmetic .remainderFrom operand)
  | "and" => some (.connect .and operand)
  | "or" => some (.connect .or operand)
  | "xor" => some (.connect .xor operand)
  | ">>" => some (.compare .greater operand)
  | "=" => some (.compare .equal operand)
  | "<<" => some (.compare .less operand)
  | ">=" => some (.compare .atLeast operand)
  | "<=" => some (.compare .atMost operand)
  | "/=" => some (.compare .unequal operand)
  | "<" => some (.move (.back operand))
  | ">" => some (.move (.forward operand))
  | _ => none

/-- The keywords that are words: at least two letters and nothing else. -/
def words : List String :=
  (nullaryWords ++ unaryWords).filter fun keyword =>
    1 < keyword.length && keyword.toList.all Char.isAlpha

/-- Equality up to the case of ASCII letters. -/
def sameLetters (left right : String) : Bool :=
  left.toList.map Char.toLower == right.toList.map Char.toLower

/-- Whether one character was replaced, inserted or left out. -/
def differByOne (left right : List Char) : Bool :=
  let short := if left.length ≤ right.length then left else right
  let long := if left.length ≤ right.length then right else left
  if long.length = short.length then
    (short.zip long).countP (fun (a, b) => a ≠ b) = 1
  else if long.length = short.length + 1 then
    (List.range long.length).any fun place => long.eraseIdx place == short
  else
    false

/-- The first keyword with the same letters, or else the first that differs by one character. -/
def suggest (unknown : String) : Option String :=
  match words.find? (sameLetters unknown) with
  | some keyword => some keyword
  | none => words.find? fun keyword => differByOne unknown.toList keyword.toList

end RingTape.Keyword
