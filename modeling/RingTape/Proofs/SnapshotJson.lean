import RingTape.Proofs.Decimal
import RingTape.Snapshot.Json

/-!
Snapshots written as JSON and read again. What is written is read back exactly, whatever the numbers and the
lists, if it is not nested deeper than the reader goes; and no text makes the reader go deeper, so what it has
once accepted stays as it is however often it is written and read.
-/

namespace RingTape

set_option autoImplicit false

namespace Text.Json

theorem skipSpace_cons {first : Char} (solid : isSpace first = false) (rest : List Char) :
    skipSpace (first :: rest) = first :: rest :=
  List.dropWhile_cons_of_neg (by simp [solid])

section Numbers

theorem skipWhole_of_ne_zero {first : Char} (leads : first ≠ '0') (rest : List Char) :
    skipWhole (first :: rest) = skipDigits (first :: rest) := by
  unfold skipWhole
  split
  next same => exact absurd (List.cons.inj same).1 leads
  next => rfl

theorem readInteger_of_unsigned {first : Char} (solid : isSpace first = false) (unsigned : first ≠ '-')
    {digits after : List Char} {number : Nat} {value : Num}
    (read : readWhole (first :: digits) = some (number, after)) (exact : Num.ofInt? number = some value) :
    readInteger (first :: digits) = some (value, after) := by
  rw [readInteger, skipSpace_cons solid]
  split
  next signed => exact absurd (List.cons.inj signed).1 unsigned
  next => simp [read, exact]

theorem isSpace_of_isDigit {char : Char} (digit : char.isDigit = true) : isSpace char = false := by
  apply Bool.eq_false_iff.mpr
  intro space
  simp only [isSpace, Bool.or_eq_true, decide_eq_true_eq] at space
  rcases space with ((rfl | rfl) | rfl) | rfl <;> cases digit

/-- What may follow a number: the number does not go on there. -/
def Closes (mark : Char) : Prop :=
  Text.isDigit 10 mark = false ∧ mark ≠ '.' ∧ mark ≠ 'e' ∧ mark ≠ 'E'

instance (mark : Char) : Decidable (Closes mark) :=
  inferInstanceAs (Decidable (_ ∧ _))

variable {mark : Char} (closes : Closes mark) (rest : List Char)

include closes

theorem skipWhole_decimalDigits (number : Nat) :
    skipWhole (decimalDigits number ++ mark :: rest) = some (mark :: rest) := by
  have after : (decimalDigits number ++ mark :: rest).dropWhile (Text.isDigit 10) = mark :: rest := by
    rw [List.dropWhile_append_of_pos isDigit_ten_of_mem_decimalDigits,
      List.dropWhile_cons_of_neg (by simp [closes.1])]
  cases spelled : decimalDigits number with
  | nil => exact absurd spelled (decimalDigits_ne_nil number)
  | cons first digits =>
      have digit : Text.isDigit 10 first = true :=
        isDigit_ten_of_mem_decimalDigits first (spelled ▸ List.mem_cons_self)
      by_cases zero : number = 0
      · have alone : decimalDigits number = ['0'] := by
          rw [zero]
          exact Nat.toDigits_zero 10
        rw [← spelled, alone]
        simp [skipWhole, closes.1]
      · have leads : first ≠ '0' := fun same => head_decimalDigits zero (by rw [spelled, same, List.head?_cons])
        rw [spelled] at after
        rw [List.cons_append, skipWhole_of_ne_zero leads, skipDigits, if_pos digit, ← List.cons_append, after]

theorem readWhole_decimalDigits (number : Nat) :
    readWhole (decimalDigits number ++ mark :: rest) = some (number, mark :: rest) := by
  have digits : (decimalDigits number ++ mark :: rest).takeWhile (Text.isDigit 10) = decimalDigits number := by
    rw [List.takeWhile_append_of_pos isDigit_ten_of_mem_decimalDigits, List.takeWhile_cons_of_neg (by simp [closes.1]),
      List.append_nil]
  rw [readWhole, skipWhole_decimalDigits closes, digits, valueOf_decimalDigits]
  simp [closes.2]

/-- Every register value is read back from its text, at both ends of the width too. -/
theorem readInteger_text (value : Num) :
    readInteger (value.text.toList ++ mark :: rest) = some (value, mark :: rest) := by
  by_cases natural : 0 ≤ value.toInt
  · obtain ⟨number, text, exact⟩ := text_of_natural natural
    have read := readWhole_decimalDigits closes rest number
    rw [text, String.toList_ofList]
    cases spelled : decimalDigits number with
    | nil => exact absurd spelled (decimalDigits_ne_nil number)
    | cons first digits =>
        have digit := isDigit_of_mem_decimalDigits first (spelled ▸ List.mem_cons_self)
        have unsigned : first ≠ '-' := by
          rintro rfl
          cases digit
        rw [spelled] at read
        exact readInteger_of_unsigned (isSpace_of_isDigit digit) unsigned read exact
  · obtain ⟨number, positive, text, exact⟩ := text_of_negative (Int.not_le.mp natural)
    rw [text, String.toList_ofList, List.cons_append, readInteger, skipSpace_cons (by decide)]
    simp [readWhole_decimalDigits closes, positive, exact]

end Numbers

end Text.Json

namespace Snapshot

open Text.Json

mutual

/-- How deep objects and arrays are nested in the text of a snapshot. -/
def depth : Snapshot → Nat
  | ⟨_, _, forward, backward⟩ => max (depthAll forward) (depthAll backward) + 1

/-- How deep they are nested in the array of some snapshots, if there are any. -/
def depthAll : List Snapshot → Nat
  | [] => 0
  | snapshot :: rest => max (depth snapshot + 1) (depthAll rest)

end

theorem depthAll_le_iff {list : List Snapshot} {bound : Nat} :
    depthAll list ≤ bound ↔ ∀ snapshot ∈ list, snapshot.depth + 1 ≤ bound := by
  induction list with
  | nil => simp [depthAll]
  | cons snapshot list induction => simp [depthAll, induction]

theorem compactAll_singleton (snapshot : Snapshot) : compactAll [snapshot] = compactChars snapshot :=
  rfl

theorem compactAll_cons_cons (snapshot next : Snapshot) (more : List Snapshot) :
    compactAll (snapshot :: next :: more) = compactChars snapshot ++ ',' :: compactAll (next :: more) :=
  rfl

/-- One field of an object. -/
inductive Entry where
  | value (number : Num)
  | materialized (number : Num)
  | forward (list : List Snapshot)
  | backward (list : List Snapshot)

/-- The text of an array of snapshots. -/
def arrayChars (list : List Snapshot) : List Char :=
  '[' :: compactAll list ++ [']']

namespace Entry

def key : Entry → String
  | .value _ => "value"
  | .materialized _ => "materialized"
  | .forward _ => "forward"
  | .backward _ => "backward"

def payload : Entry → List Char
  | .value number | .materialized number => number.text.toList
  | .forward list | .backward list => arrayChars list

def chars (entry : Entry) : List Char :=
  '"' :: entry.key.toList ++ '"' :: ':' :: entry.payload

/-- The fields with one more, unless it is there already. -/
def put (fields : Fields) : Entry → Option Fields
  | .value number => if fields.value.isSome then none else some { fields with value := some number }
  | .materialized number =>
      if fields.materialized.isSome then none else some { fields with materialized := some number }
  | .forward list => if fields.forward.isSome then none else some { fields with forward := some list }
  | .backward list => if fields.backward.isSome then none else some { fields with backward := some list }

def list? : Entry → Option (List Snapshot)
  | .value _ | .materialized _ => none
  | .forward list | .backward list => some list

/-- There is room for the array of the entry, if it has one, and that is not empty. -/
def Fits (room : Nat) (entry : Entry) : Prop :=
  ∀ list, entry.list? = some list → list ≠ [] ∧ depthAll list ≤ room

theorem payload_of_list? {entry : Entry} {list : List Snapshot} (listed : entry.list? = some list) :
    entry.payload = arrayChars list := by
  cases entry <;> cases listed <;> rfl

end Entry

/-- The fields that are written of a snapshot. -/
def entries : Snapshot → List Entry
  | ⟨value, materialized, forward, backward⟩ =>
      [.value value, .materialized materialized]
        ++ (if forward.isEmpty then [] else [.forward forward])
        ++ (if backward.isEmpty then [] else [.backward backward])

/-- Fields in the given order, with commas between them. -/
def entriesChars (entries : List Entry) : List Char :=
  [','].intercalate (entries.map Entry.chars)

theorem entriesChars_singleton (entry : Entry) : entriesChars [entry] = entry.chars :=
  List.intercalate_singleton

theorem entriesChars_cons_cons (entry next : Entry) (more : List Entry) :
    entriesChars (entry :: next :: more) = entry.chars ++ ',' :: entriesChars (next :: more) := by
  simp [entriesChars, List.intercalate_cons_cons]

theorem entriesChars_begins {entries : List Entry} (filled : entries ≠ []) :
    ∃ tail, entriesChars entries = '"' :: tail := by
  match entries, filled with
  | [entry], _ => exact ⟨_, entriesChars_singleton entry⟩
  | entry :: next :: more, _ => exact ⟨_, entriesChars_cons_cons entry next more⟩

/-- An object with the given fields in the given order. -/
def object (entries : List Entry) : List Char :=
  '{' :: entriesChars entries ++ ['}']

theorem compactChars_mk (value materialized : Num) (forward backward : List Snapshot) :
    compactChars ⟨value, materialized, forward, backward⟩ =
      '{' :: '"' :: ("value".toList ++ ['"', ':']) ++ value.text.toList
        ++ ',' :: '"' :: ("materialized".toList ++ ['"', ':']) ++ materialized.text.toList
        ++ (if forward.isEmpty then []
            else ',' :: '"' :: ("forward".toList ++ ['"', ':', '[']) ++ compactAll forward ++ [']'])
        ++ (if backward.isEmpty then []
            else ',' :: '"' :: ("backward".toList ++ ['"', ':', '[']) ++ compactAll backward ++ [']'])
        ++ ['}'] :=
  rfl

theorem compactChars_eq_object (snapshot : Snapshot) : compactChars snapshot = object snapshot.entries := by
  obtain ⟨value, materialized, forward, backward⟩ := snapshot
  rw [compactChars_mk]
  cases forward <;> cases backward <;>
    simp [object, entries, entriesChars_singleton, entriesChars_cons_cons, Entry.chars, Entry.key, Entry.payload,
      arrayChars]

theorem compactAll_begins {list : List Snapshot} (filled : list ≠ []) : ∃ tail, compactAll list = '{' :: tail := by
  match list, filled with
  | [snapshot], _ =>
      rw [compactAll_singleton, compactChars_eq_object]
      exact ⟨_, rfl⟩
  | snapshot :: next :: more, _ =>
      rw [compactAll_cons_cons, compactChars_eq_object]
      exact ⟨_, rfl⟩

theorem entries_ne_nil (snapshot : Snapshot) : snapshot.entries ≠ [] := by
  obtain ⟨value, materialized, forward, backward⟩ := snapshot
  exact List.cons_ne_nil _ _

theorem mem_unless_empty (make : List Snapshot → Entry) (list : List Snapshot) (entry : Entry) :
    entry ∈ (if list.isEmpty then [] else [make list]) ↔ list ≠ [] ∧ entry = make list := by
  cases list <;> simp

theorem list_of_mem_entries {snapshot : Snapshot} {entry : Entry} (inside : entry ∈ snapshot.entries)
    {list : List Snapshot} (listed : entry.list? = some list) :
    list ≠ [] ∧ (list = snapshot.forward ∨ list = snapshot.backward) := by
  obtain ⟨value, materialized, forward, backward⟩ := snapshot
  rw [entries, List.mem_append, List.mem_append, mem_unless_empty Entry.forward, mem_unless_empty Entry.backward,
    List.mem_pair] at inside
  rcases inside with ((rfl | rfl) | ⟨filled, rfl⟩) | ⟨filled, rfl⟩
  · cases listed
  · cases listed
  · cases listed
    exact ⟨filled, .inl rfl⟩
  · cases listed
    exact ⟨filled, .inr rfl⟩

theorem depth_pos (snapshot : Snapshot) : 0 < snapshot.depth := by
  obtain ⟨value, materialized, forward, backward⟩ := snapshot
  exact Nat.succ_pos _

theorem fits_entries (snapshot : Snapshot) {room : Nat} (shallow : snapshot.depth ≤ room + 1) :
    ∀ entry ∈ snapshot.entries, entry.Fits room := by
  intro entry inside list listed
  obtain ⟨filled, own⟩ := list_of_mem_entries inside listed
  obtain ⟨value, materialized, forward, backward⟩ := snapshot
  have within : max (depthAll forward) (depthAll backward) ≤ room := Nat.le_of_succ_le_succ shallow
  obtain ⟨ahead, behind⟩ := Nat.max_le.mp within
  rcases own with rfl | rfl
  · exact ⟨filled, ahead⟩
  · exact ⟨filled, behind⟩

/-- The fields that are written of a snapshot make it up again. -/
theorem gather_entries (snapshot : Snapshot) :
    (snapshot.entries.foldlM Entry.put {}).bind Fields.finish = some snapshot := by
  obtain ⟨value, materialized, forward, backward⟩ := snapshot
  cases forward <;> cases backward <;> rfl

section Fields

variable (fuel room : Nat)

/-- What is read of a field after its key. -/
def readField (fields : Fields) (key rest : List Char) : Option (Fields × List Char) :=
  if key = "value".toList then
    if fields.value.isSome then none
    else (readInteger rest).map fun (value, rest) => ({ fields with value := some value }, rest)
  else if key = "materialized".toList then
    if fields.materialized.isSome then none
    else (readInteger rest).map fun (value, rest) => ({ fields with materialized := some value }, rest)
  else if key = "forward".toList then
    if fields.forward.isSome then none
    else (readList fuel room rest).map fun (list, rest) => ({ fields with forward := some list }, rest)
  else if key = "backward".toList then
    if fields.backward.isSome then none
    else (readList fuel room rest).map fun (list, rest) => ({ fields with backward := some list }, rest)
  else
    (skipValue (2 * rest.length + 1) rest).map fun rest => (fields, rest)

/-- What is read after a field: more of them, or the end of the object. -/
def readOn (fields : Fields) (rest : List Char) : Option (Snapshot × List Char) :=
  match skipSpace rest with
  | ',' :: rest => readFields fuel room fields rest
  | '}' :: rest => do return (← fields.finish, rest)
  | _ => none

theorem readFields_succ (fields : Fields) (text : List Char) :
    readFields (fuel + 1) room fields text = (readKey text).bind fun found =>
      (readField fuel room fields found.1 found.2).bind fun read => readOn fuel room read.1 read.2 := by
  rw [readFields]
  cases readKey text with
  | none => rfl
  | some found =>
      obtain ⟨key, rest⟩ := found
      simp only [readField, Option.bind_eq_bind, Option.bind_some]
      split_ifs <;> rfl

theorem readKey_chars (entry : Entry) (rest : List Char) :
    readKey (entry.chars ++ rest) = some (entry.key.toList, entry.payload ++ rest) := by
  have split : entry.chars ++ rest = '"' :: (entry.key.toList ++ '"' :: ':' :: (entry.payload ++ rest)) := by
    simp [Entry.chars]
  rw [split]
  generalize entry.payload ++ rest = after
  cases entry <;> simp only [Entry.key] <;> rfl

theorem readField_payload {fields : Fields} {entry : Entry} {mark : Char} {rest : List Char} (closes : Closes mark)
    (reads : ∀ list, entry.list? = some list →
      readList fuel room (arrayChars list ++ mark :: rest) = some (list, mark :: rest)) :
    readField fuel room fields entry.key.toList (entry.payload ++ mark :: rest) =
      (entry.put fields).map (·, mark :: rest) := by
  cases entry with
  | value number =>
      rw [Entry.key, Entry.payload, readField, if_pos rfl, readInteger_text closes, Entry.put]
      split <;> rfl
  | materialized number =>
      rw [Entry.key, Entry.payload, readField, if_neg (by decide), if_pos rfl, readInteger_text closes, Entry.put]
      split <;> rfl
  | forward list =>
      rw [Entry.key, Entry.payload, readField, if_neg (by decide), if_neg (by decide), if_pos rfl, reads list rfl,
        Entry.put]
      split <;> rfl
  | backward list =>
      rw [Entry.key, Entry.payload, readField, if_neg (by decide), if_neg (by decide), if_neg (by decide), if_pos rfl,
        reads list rfl, Entry.put]
      split <;> rfl

theorem readOn_comma (fields : Fields) (rest : List Char) :
    readOn fuel room fields (',' :: rest) = readFields fuel room fields rest :=
  rfl

theorem readOn_brace (fields : Fields) (rest : List Char) :
    readOn fuel room fields ('}' :: rest) = fields.finish.map (·, rest) := by
  rw [readOn, skipSpace_cons (by decide)]
  cases fields.finish <;> rfl

end Fields

/-- With this much fuel, whatever was written is read back, if its text takes no more than half of the fuel. -/
structure Reads (fuel : Nat) : Prop where
  entries (room : Nat) (fields : Fields) (entries : List Entry) (rest : List Char) (filled : entries ≠ [])
    (enough : 2 * (entriesChars entries).length + 2 ≤ fuel)
    (fits : ∀ entry ∈ entries, entry.Fits room) :
    readFields fuel room fields (entriesChars entries ++ '}' :: rest) =
      ((entries.foldlM Entry.put fields).bind Fields.finish).map (·, rest)
  list (room : Nat) (list : List Snapshot) (rest : List Char) (filled : list ≠ [])
    (enough : 2 * (arrayChars list).length ≤ fuel) (shallow : depthAll list ≤ room) :
    readList fuel room (arrayChars list ++ rest) = some (list, rest)
  items (room : Nat) (list : List Snapshot) (rest : List Char) (filled : list ≠ [])
    (enough : 2 * (compactAll list).length + 2 ≤ fuel) (shallow : depthAll list ≤ room + 1) :
    readItems fuel room (compactAll list ++ ']' :: rest) = some (list, rest)
  snapshot (room : Nat) (snapshot : Snapshot) (rest : List Char)
    (enough : 2 * (compactChars snapshot).length ≤ fuel) (shallow : snapshot.depth ≤ room) :
    readFrom fuel room (compactChars snapshot ++ rest) = some (snapshot, rest)

section Reads

variable {fuel : Nat} (reads : Reads fuel) (room : Nat) (rest : List Char)

include reads

theorem Reads.readFields_step (fields : Fields) (entry : Entry) {mark : Char} (closes : Closes mark)
    (enough : 2 * entry.chars.length ≤ fuel) (fits : entry.Fits room) :
    readFields (fuel + 1) room fields (entry.chars ++ mark :: rest) =
      (entry.put fields).bind fun fields => readOn fuel room fields (mark :: rest) := by
  have lists (list : List Snapshot) (listed : entry.list? = some list) :
      readList fuel room (arrayChars list ++ mark :: rest) = some (list, mark :: rest) := by
    have short : (arrayChars list).length ≤ entry.chars.length := by
      simp only [Entry.chars, Entry.payload_of_list? listed, List.length_append, List.length_cons]
      omega
    exact reads.list room list (mark :: rest) (fits list listed).1 (by omega) (fits list listed).2
  rw [readFields_succ, readKey_chars, Option.bind_some, readField_payload fuel room closes lists, Option.bind_map]
  rfl

theorem Reads.readFields_succ (fields : Fields) (entries : List Entry) (filled : entries ≠ [])
    (enough : 2 * (entriesChars entries).length + 2 ≤ fuel + 1)
    (fits : ∀ entry ∈ entries, entry.Fits room) :
    readFields (fuel + 1) room fields (entriesChars entries ++ '}' :: rest) =
      ((entries.foldlM Entry.put fields).bind Fields.finish).map (·, rest) := by
  cases entries with
  | nil => exact absurd rfl filled
  | cons entry more =>
      have fitting := fits entry List.mem_cons_self
      cases more with
      | nil =>
          rw [entriesChars_singleton] at enough ⊢
          rw [reads.readFields_step room rest fields entry (by decide) (by omega) fitting]
          cases put : entry.put fields <;> simp [put, readOn_brace]
      | cons next more =>
          rw [entriesChars_cons_cons] at enough ⊢
          rw [List.length_append, List.length_cons] at enough
          rw [List.append_assoc, List.cons_append,
            reads.readFields_step room _ fields entry (by decide) (by omega) fitting]
          cases put : entry.put fields with
          | none => simp [put]
          | some fields =>
              have further := reads.entries room fields (next :: more) rest (List.cons_ne_nil _ _) (by omega)
                fun entry inside => fits entry (List.mem_cons_of_mem _ inside)
              rw [Option.bind_some, readOn_comma, List.foldlM_cons, put, further]
              rfl

theorem Reads.readFrom_object (entries : List Entry) (filled : entries ≠ [])
    (enough : 2 * (object entries).length ≤ fuel + 1) (fits : ∀ entry ∈ entries, entry.Fits room) :
    readFrom (fuel + 1) (room + 1) (object entries ++ rest) =
      ((entries.foldlM Entry.put {}).bind Fields.finish).map (·, rest) := by
  simp only [object, List.length_append, List.length_cons, List.length_nil] at enough
  have read := reads.entries room {} entries rest filled (by omega) fits
  obtain ⟨tail, begins⟩ := entriesChars_begins filled
  rw [object, List.cons_append, List.cons_append, List.append_assoc, List.singleton_append, readFrom,
    skipSpace_cons (by decide)]
  rw [begins] at read ⊢
  exact read

theorem Reads.readItems_succ (list : List Snapshot) (filled : list ≠ [])
    (enough : 2 * (compactAll list).length + 2 ≤ fuel + 1) (shallow : depthAll list ≤ room + 1) :
    readItems (fuel + 1) room (compactAll list ++ ']' :: rest) = some (list, rest) := by
  cases list with
  | nil => exact absurd rfl filled
  | cons snapshot more =>
      rw [depthAll, Nat.max_le] at shallow
      have first : snapshot.depth ≤ room := Nat.le_of_succ_le_succ shallow.1
      cases more with
      | nil =>
          rw [compactAll_singleton] at enough ⊢
          rw [readItems, reads.snapshot room snapshot (']' :: rest) (by omega) first]
          rfl
      | cons next more =>
          rw [compactAll_cons_cons] at enough ⊢
          rw [List.length_append, List.length_cons] at enough
          have further := reads.items room (next :: more) rest (List.cons_ne_nil _ _) (by omega) shallow.2
          rw [List.append_assoc, List.cons_append, readItems, reads.snapshot room snapshot _ (by omega) first]
          simp only [Option.bind_eq_bind, Option.bind_some, skipSpace_cons (show isSpace ',' = false by decide)]
          rw [further]
          rfl

theorem Reads.readList_succ (list : List Snapshot) (filled : list ≠ [])
    (enough : 2 * (arrayChars list).length ≤ fuel + 1) (shallow : depthAll list ≤ room) :
    readList (fuel + 1) room (arrayChars list ++ rest) = some (list, rest) := by
  simp only [arrayChars, List.length_append, List.length_cons, List.length_nil] at enough
  obtain ⟨tail, begins⟩ := compactAll_begins filled
  cases room with
  | zero =>
      -- An array that holds anything needs a level of its own.
      obtain ⟨snapshot, inside⟩ := List.exists_mem_of_ne_nil list filled
      exact absurd (depthAll_le_iff.mp shallow snapshot inside) (Nat.not_succ_le_zero _)
  | succ room =>
      have read := reads.items room list rest filled (by omega) shallow
      rw [arrayChars, List.cons_append, List.cons_append, List.append_assoc, List.singleton_append, readList,
        skipSpace_cons (by decide)]
      rw [begins] at read ⊢
      exact read

theorem Reads.readFrom_succ (snapshot : Snapshot) (enough : 2 * (compactChars snapshot).length ≤ fuel + 1)
    (shallow : snapshot.depth ≤ room) :
    readFrom (fuel + 1) room (compactChars snapshot ++ rest) = some (snapshot, rest) := by
  cases room with
  | zero => exact absurd shallow (Nat.not_le_of_gt snapshot.depth_pos)
  | succ room =>
      rw [compactChars_eq_object] at enough ⊢
      rw [reads.readFrom_object room rest snapshot.entries snapshot.entries_ne_nil enough (snapshot.fits_entries shallow),
        snapshot.gather_entries]
      rfl

end Reads

/-- Each reader calls the others with one less fuel, so one induction serves all four. -/
theorem reads (fuel : Nat) : Reads fuel := by
  induction fuel with
  | zero =>
      constructor
      · intro room fields entries rest filled enough
        omega
      · intro room list rest filled enough
        rw [arrayChars] at enough
        simp at enough
      · intro room list rest filled enough
        omega
      · intro room snapshot rest enough
        rw [compactChars_eq_object, object] at enough
        simp at enough
  | succ fuel reads =>
      constructor
      · intro room fields entries rest
        exact reads.readFields_succ room rest fields entries
      · intro room list rest
        exact reads.readList_succ room rest list
      · intro room list rest
        exact reads.readItems_succ room rest list
      · intro room snapshot rest
        exact reads.readFrom_succ room rest snapshot

section Order

end Order

section Bounds

def Fields.Within (room : Nat) (fields : Fields) : Prop :=
  depthAll (fields.forward.getD []) ≤ room ∧ depthAll (fields.backward.getD []) ≤ room

/-- With this much fuel, nothing is read that is nested deeper than there is room. -/
structure Bounded (fuel : Nat) : Prop where
  fields {room : Nat} {fields : Fields} {text rest : List Char} {snapshot : Snapshot} (within : fields.Within room)
    (read : readFields fuel room fields text = some (snapshot, rest)) : snapshot.depth ≤ room + 1
  tuple {room : Nat} {text rest : List Char} {snapshot : Snapshot}
    (read : readTuple fuel room text = some (snapshot, rest)) : snapshot.depth ≤ room + 1
  list {room : Nat} {text rest : List Char} {list : List Snapshot}
    (read : readList fuel room text = some (list, rest)) : depthAll list ≤ room
  items {room : Nat} {text rest : List Char} {list : List Snapshot}
    (read : readItems fuel room text = some (list, rest)) : depthAll list ≤ room + 1
  snapshot {room : Nat} {text rest : List Char} {snapshot : Snapshot}
    (read : readFrom fuel room text = some (snapshot, rest)) : snapshot.depth ≤ room

theorem Fields.Within.finish {room : Nat} {fields : Fields} {snapshot : Snapshot} (within : fields.Within room)
    (finished : fields.finish = some snapshot) : snapshot.depth ≤ room + 1 := by
  obtain ⟨value, materialized, forward, backward⟩ := fields
  cases value with
  | none => cases finished
  | some value =>
      cases materialized with
      | none => cases finished
      | some materialized =>
          cases finished
          exact Nat.succ_le_succ (Nat.max_le.mpr within)

variable {fuel room : Nat} (bounded : Bounded fuel) {text rest : List Char} {snapshot : Snapshot}

include bounded

theorem Bounded.readField {fields reached : Fields} {key : List Char} (within : fields.Within room)
    (read : readField fuel room fields key text = some (reached, rest)) : reached.Within room := by
  unfold Snapshot.readField at read
  split_ifs at read
  all_goals
    obtain ⟨found, ran, same⟩ := Option.map_eq_some_iff.mp read
    cases same
  · exact within
  · exact within
  · exact ⟨bounded.list ran, within.2⟩
  · exact ⟨within.1, bounded.list ran⟩
  · exact within

theorem Bounded.readFields_succ {fields : Fields} (within : fields.Within room)
    (read : readFields (fuel + 1) room fields text = some (snapshot, rest)) : snapshot.depth ≤ room + 1 := by
  rw [Snapshot.readFields_succ] at read
  obtain ⟨⟨key, value⟩, _, read⟩ := Option.bind_eq_some_iff.mp read
  obtain ⟨⟨reached, after⟩, ran, read⟩ := Option.bind_eq_some_iff.mp read
  have still := bounded.readField within ran
  unfold readOn at read
  split at read
  · exact bounded.fields still read
  · obtain ⟨finished, ran, same⟩ := Option.bind_eq_some_iff.mp read
    cases same
    exact still.finish ran
  · cases read

theorem Bounded.readTuple_succ (read : readTuple (fuel + 1) room text = some (snapshot, rest)) :
    snapshot.depth ≤ room + 1 := by
  rw [readTuple] at read
  obtain ⟨⟨value, after⟩, _, read⟩ := Option.bind_eq_some_iff.mp read
  dsimp only at read
  split at read
  · obtain ⟨⟨materialized, after⟩, _, read⟩ := Option.bind_eq_some_iff.mp read
    dsimp only at read
    split at read
    · cases read
      exact Nat.le_add_left 1 room
    · obtain ⟨⟨forward, after⟩, ahead, read⟩ := Option.bind_eq_some_iff.mp read
      dsimp only at read
      split at read
      · cases read
        exact Nat.succ_le_succ (Nat.max_le.mpr ⟨bounded.list ahead, Nat.zero_le _⟩)
      · obtain ⟨⟨backward, after⟩, behind, read⟩ := Option.bind_eq_some_iff.mp read
        dsimp only at read
        split at read
        · cases read
          exact Nat.succ_le_succ (Nat.max_le.mpr ⟨bounded.list ahead, bounded.list behind⟩)
        · cases read
      · cases read
    · cases read
  · cases read

theorem Bounded.readList_succ {list : List Snapshot}
    (read : readList (fuel + 1) room text = some (list, rest)) : depthAll list ≤ room := by
  cases room with
  | zero => simp [readList] at read
  | succ room =>
      rw [readList] at read
      split at read
      · split at read
        · cases read
          exact Nat.zero_le _
        · exact bounded.items read
      · cases read

theorem Bounded.readItems_succ {list : List Snapshot}
    (read : readItems (fuel + 1) room text = some (list, rest)) : depthAll list ≤ room + 1 := by
  rw [readItems] at read
  obtain ⟨⟨first, after⟩, ran, read⟩ := Option.bind_eq_some_iff.mp read
  have shallow := Nat.succ_le_succ (bounded.snapshot ran)
  dsimp only at read
  split at read
  · obtain ⟨⟨more, after⟩, further, read⟩ := Option.bind_eq_some_iff.mp read
    cases read
    exact Nat.max_le.mpr ⟨shallow, bounded.items further⟩
  · cases read
    exact Nat.max_le.mpr ⟨shallow, Nat.zero_le _⟩
  · cases read

theorem Bounded.readFrom_succ (read : readFrom (fuel + 1) room text = some (snapshot, rest)) :
    snapshot.depth ≤ room := by
  cases room with
  | zero => simp [readFrom] at read
  | succ room =>
      rw [readFrom] at read
      split at read
      · split at read
        · cases read
        · exact bounded.fields ⟨Nat.zero_le _, Nat.zero_le _⟩ read
      · exact bounded.tuple read
      · cases read

end Bounds

/-- The reader never goes deeper than it may, whatever the text. -/
theorem bounded (fuel : Nat) : Bounded fuel := by
  induction fuel with
  | zero =>
      exact ⟨fun _ read => by simp [readFields] at read, fun read => by simp [readTuple] at read,
        fun read => by simp [readList] at read, fun read => by simp [readItems] at read,
        fun read => by simp [readFrom] at read⟩
  | succ fuel bounded =>
      exact ⟨bounded.readFields_succ, bounded.readTuple_succ, bounded.readList_succ, bounded.readItems_succ,
        bounded.readFrom_succ⟩

end Snapshot

end RingTape
