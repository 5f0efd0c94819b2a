import RingTape.Snapshot.Basic
import RingTape.Text.Json

/-!
Snapshots as JSON text. Written, a snapshot is an object with the keys `value`, `materialized`, `forward`
and `backward` in this order, the last two only when they are not empty. Read, the keys may come in any
order, each at most once, and others are passed over; an array of the four values in that order does as
well. Objects and arrays may be nested 127 deep.
-/

namespace RingTape.Snapshot

set_option autoImplicit false

open Text.Json

mutual

/-- The text without any spaces. -/
def compactChars : Snapshot → List Char
  | ⟨value, materialized, forward, backward⟩ =>
      "\x7b\"value\":".toList ++ value.text.toList
        ++ ",\"materialized\":".toList ++ materialized.text.toList
        ++ (if forward.isEmpty then [] else ",\"forward\":[".toList ++ compactAll forward ++ [']'])
        ++ (if backward.isEmpty then [] else ",\"backward\":[".toList ++ compactAll backward ++ [']'])
        ++ ['}']

def compactAll : List Snapshot → List Char
  | [] => []
  | [snapshot] => compactChars snapshot
  | snapshot :: rest => compactChars snapshot ++ ',' :: compactAll rest

end

/-- A new line, indented by two spaces a level. -/
def newline (level : Nat) : List Char :=
  '\n' :: List.replicate (2 * level) ' '

mutual

/-- The text with each item on a line of its own. -/
def prettyChars (level : Nat) : Snapshot → List Char
  | ⟨value, materialized, forward, backward⟩ =>
      '{' :: newline (level + 1) ++ "\"value\": ".toList ++ value.text.toList
        ++ ',' :: newline (level + 1) ++ "\"materialized\": ".toList ++ materialized.text.toList
        ++ (if forward.isEmpty then []
            else ',' :: newline (level + 1) ++ "\"forward\": [".toList
              ++ newline (level + 2) ++ prettyAll (level + 2) forward ++ newline (level + 1) ++ [']'])
        ++ (if backward.isEmpty then []
            else ',' :: newline (level + 1) ++ "\"backward\": [".toList
              ++ newline (level + 2) ++ prettyAll (level + 2) backward ++ newline (level + 1) ++ [']'])
        ++ newline level ++ ['}']

def prettyAll (level : Nat) : List Snapshot → List Char
  | [] => []
  | [snapshot] => prettyChars level snapshot
  | snapshot :: rest => prettyChars level snapshot ++ ',' :: newline level ++ prettyAll level rest

end

def pretty (snapshot : Snapshot) : String :=
  String.ofList (prettyChars 0 snapshot)

/-- The fields of an object that have been read so far. -/
structure Fields where
  value : Option Num := none
  materialized : Option Num := none
  forward : Option (List Snapshot) := none
  backward : Option (List Snapshot) := none

/-- The snapshot the fields make up, if the two numbers are among them. -/
def Fields.finish (fields : Fields) : Option Snapshot := do
  return ⟨← fields.value, ← fields.materialized, fields.forward.getD [], fields.backward.getD []⟩

mutual

/-- Read a snapshot off the front of the text, with `room` levels of nesting to spare. -/
def readFrom : Nat → Nat → List Char → Option (Snapshot × List Char)
  | fuel + 1, room + 1, text =>
      match skipSpace text with
      | '{' :: rest =>
          match skipSpace rest with
          | '}' :: _ => none
          | rest => readFields fuel room {} rest
      | '[' :: rest => readTuple fuel room rest
      | _ => none
  | _, _, _ => none

/-- Read the remaining fields of an object and its closing brace. -/
def readFields : Nat → Nat → Fields → List Char → Option (Snapshot × List Char)
  | fuel + 1, room, fields, text => do
      let (key, rest) ← readKey text
      let (fields, rest) ←
        if key = "value".toList then
          if fields.value.isSome then none
          else (readInteger rest).map fun (value, rest) => ({ fields with value := some value }, rest)
        else if key = "materialized".toList then
          if fields.materialized.isSome then none
          else (readInteger rest).map fun (value, rest) => ({ fields with materialized := some value }, rest)
        else if key = "forward".toList then
          if fields.forward.isSome then none
          else (readList fuel room rest).map fun (list, rest) => ({ fields with forward := some list }, rest)
        else if key = "backward".toList then
          if fields.backward.isSome then none
          else (readList fuel room rest).map fun (list, rest) => ({ fields with backward := some list }, rest)
        else
          (skipValue (2 * rest.length + 1) rest).map fun rest => (fields, rest)
      match skipSpace rest with
      | ',' :: rest => readFields fuel room fields rest
      | '}' :: rest => return (← fields.finish, rest)
      | _ => none
  | 0, _, _, _ => none

/-- Read the four values of an array, the last two of which may be left out. -/
def readTuple : Nat → Nat → List Char → Option (Snapshot × List Char)
  | fuel + 1, room, text => do
      let (value, rest) ← readInteger text
      let ',' :: rest := skipSpace rest | none
      let (materialized, rest) ← readInteger rest
      match skipSpace rest with
      | ']' :: rest => return (⟨value, materialized, [], []⟩, rest)
      | ',' :: rest =>
          let (forward, rest) ← readList fuel room rest
          match skipSpace rest with
          | ']' :: rest => return (⟨value, materialized, forward, []⟩, rest)
          | ',' :: rest =>
              let (backward, rest) ← readList fuel room rest
              match skipSpace rest with
              | ']' :: rest => return (⟨value, materialized, forward, backward⟩, rest)
              | _ => none
          | _ => none
      | _ => none
  | 0, _, _ => none

def readList : Nat → Nat → List Char → Option (List Snapshot × List Char)
  | fuel + 1, room + 1, text =>
      match skipSpace text with
      | '[' :: rest =>
          match skipSpace rest with
          | ']' :: rest => some ([], rest)
          | rest => readItems fuel room rest
      | _ => none
  | _, _, _ => none

/-- Read the remaining items of an array and its closing bracket. -/
def readItems : Nat → Nat → List Char → Option (List Snapshot × List Char)
  | fuel + 1, room, text => do
      let (snapshot, rest) ← readFrom fuel room text
      match skipSpace rest with
      | ',' :: rest =>
          let (snapshots, rest) ← readItems fuel room rest
          return (snapshot :: snapshots, rest)
      | ']' :: rest => return ([snapshot], rest)
      | _ => none
  | 0, _, _ => none

end

end RingTape.Snapshot
