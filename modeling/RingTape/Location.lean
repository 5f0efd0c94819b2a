import RingTape.Num

/-!
Places in a source text. Lines and columns count from 1; line 0 stands for an unknown place.
-/

namespace RingTape

set_option autoImplicit false

structure Location where
  line : Nat
  column : Nat
deriving DecidableEq, Repr

namespace Location

def unknown : Location := ⟨0, 0⟩

/-- The place of the first character. -/
def start : Location := ⟨1, 1⟩

def isKnown (location : Location) : Bool :=
  0 < location.line

/-- The place after a character; only a line feed ends a line. -/
def advance (location : Location) (char : Char) : Location :=
  if char = '\n' then ⟨location.line + 1, 1⟩ else ⟨location.line, location.column + 1⟩

def text (location : Location) : String :=
  if location.isKnown then
    "line " ++ decimalText location.line ++ ":" ++ decimalText location.column
  else
    "unknown location"

/-- A message followed by its place, if that is known. -/
def mark (location : Location) (message : String) : String :=
  if location.isKnown then message ++ " (" ++ location.text ++ ")" else message

end Location

/-- Something found at a place. -/
structure Located (α : Type) where
  value : α
  location : Location
deriving DecidableEq, Repr

end RingTape
