import RingTape.Source.Reading
import RingTape.Source.Scanner

/-!
What a source text describes: one block, at most one memory literal, and at most one seed for each of the two
registers, in any order.
-/

namespace RingTape

set_option autoImplicit false

structure Draft where
  root : Block Code
  memory : Option CellTree
  accumulator : Option Num
  condition : Option Bool

/-- The parts of a draft that have been read so far. -/
structure Outline where
  hasBlock : Bool := false
  root : Option (Block Code) := none
  memory : Option CellTree := none
  accumulator : Option Num := none
  condition : Option Bool := none

namespace Outline

/-- The number after the name of a register. -/
def seed (name : String) (location : Location) (rest : List (Located Token)) : Reading Num :=
  match rest with
  | ⟨.numeral number, place⟩ :: rest => Reading.ofExcept place rest number.value
  | _ => Reading.ofExcept location rest (.error (.seedWithoutNumber name (Reading.nextText rest)))

/-- A problem that is there only under a condition. -/
def noteIf (condition : Bool) (problem : Problem) (location : Location) : List (Located Problem) :=
  if condition then [⟨problem, location⟩] else []

/-- An outline with one more part, the tokens after that part and the problems met in it. -/
structure Extended where
  outline : Outline
  rest : List (Located Token)
  problems : List (Located Problem)

/-- Read one part of a program, which begins with the given token, into the outline. -/
def readPart (finish : Location) (outline : Outline) (token : Located Token)
    (rest : List (Located Token)) : Extended :=
  let location := token.location
  match token.value with
  | .openBlock =>
      let block := Reading.block finish location rest
      ⟨{ outline with hasBlock := true, root := outline.root.or block.value }, block.rest,
        noteIf outline.hasBlock .repeatedBlock location ++ block.problems⟩
  | .keyword "a:" =>
      let seed := seed "a:" location rest
      ⟨{ outline with accumulator := outline.accumulator.or seed.value }, seed.rest,
        noteIf outline.accumulator.isSome .repeatedAccumulator location ++ seed.problems⟩
  | .keyword "c:" =>
      let seed := seed "c:" location rest
      ⟨{ outline with condition := outline.condition.or (seed.value.map fun value => value != 0) },
        seed.rest, noteIf outline.condition.isSome .repeatedCondition location ++ seed.problems⟩
  | other =>
      if other.beginsMemory then
        let memory := Reading.memory finish token rest
        let isEmpty := memory.value.any fun tree => tree.value ≤ 0
        ⟨{ outline with memory := outline.memory.or memory.value }, memory.rest,
          noteIf outline.memory.isSome .repeatedMemory location ++ memory.problems
            ++ noteIf isEmpty .emptyMemory location⟩
      else
        ⟨outline, rest, [⟨.strayToken other, location⟩]⟩

/--
Read all parts of a program. Each call takes at least one token, so as much fuel as there are tokens is
enough.
-/
def readAll (finish : Location) : Nat → Outline → List (Located Token) → Outline × List (Located Problem)
  | fuel + 1, outline, token :: rest =>
      let part := readPart finish outline token rest
      let (final, problems) := readAll finish fuel part.outline part.rest
      (final, part.problems ++ problems)
  | _, outline, _ => (outline, [])

end Outline

/-- The draft that a source text describes, or everything that is wrong with it. -/
def Draft.read (source : String) : Except (List (Located Problem)) Draft :=
  let ⟨tokens, finish⟩ := TokenList.scan source
  let (outline, problems) := Outline.readAll finish tokens.length {} tokens
  let problems := problems ++ Outline.noteIf (!outline.hasBlock) .missingBlock finish
  match outline.root, problems with
  | some root, [] => .ok ⟨root, outline.memory, outline.accumulator, outline.condition⟩
  | _, problems => .error problems

end RingTape
