import RingTape.Proofs.Layout

/-!
How bytes can be written in a quoted literal. A byte of ASCII may stand for itself, a character beyond ASCII stands for
the bytes of its UTF-8 form, and an escape stands for one byte by its name or its number. The scanner finds the end of
the literal by characters, and the decoder reads it by bytes; both take every unit as a whole, whatever stands beside
it.
-/

namespace RingTape

set_option autoImplicit false

/-- A hexadecimal digit, in either case. -/
structure HexDigit where
  value : Fin 16
  capital : Bool
deriving DecidableEq, Repr

def HexDigit.char (digit : HexDigit) : Char :=
  (if digit.capital then "0123456789ABCDEF" else "0123456789abcdef").toList.getD digit.value '0'

/-- The characters that stand for a byte after a backslash. -/
def namedEscapes : List (Char × UInt8) :=
  [('\\', 0x5C), ('\'', 0x27), ('"', 0x22), (';', 0x3B), ('?', 0x3F), (' ', 0x20), ('s', 0x20), ('0', 0x00),
    ('a', 0x07), ('b', 0x08), ('e', 0x1B), ('f', 0x0C), ('n', 0x0A), ('\n', 0x0A), ('r', 0x0D), ('t', 0x09),
    ('v', 0x0B)]

/-- One unit of a literal in the given quotes. -/
inductive Spelling (quote : Quote) where
  | plain (char : Char) (ascii : char.toNat < 0x80) (unescaped : char ≠ '\\') (inside : char ≠ quote.char)
  | wide (char : Char) (beyond : 0x80 ≤ char.toNat)
  | named (letter : Char) (byte : UInt8) (known : (letter, byte) ∈ namedEscapes)
  | hex (high low : HexDigit)

namespace Spelling

variable {quote : Quote}

/-- The unit as it is written. -/
def chars : Spelling quote → List Char
  | .plain char _ _ _ => [char]
  | .wide char _ => [char]
  | .named letter _ _ => ['\\', letter]
  | .hex high low => ['\\', 'x', high.char, low.char]

/-- The bytes that the unit stands for. -/
def bytes : Spelling quote → List UInt8
  | .plain char _ _ _ => [UInt8.ofNat char.toNat]
  | .wide char _ => String.utf8EncodeChar char
  | .named _ byte _ => [byte]
  | .hex high low => [UInt8.ofNat (16 * high.value + low.value)]

def text (units : List (Spelling quote)) : String :=
  String.ofList (units.flatMap chars)

/-- The text in its quotes. -/
def literal (units : List (Spelling quote)) : String :=
  String.ofList (quote.char :: (units.flatMap chars ++ [quote.char]))

def content (units : List (Spelling quote)) : List UInt8 :=
  units.flatMap bytes

end Spelling

theorem utf8EncodeChar_of_lt {char : Char} (ascii : char.toNat < 0x80) :
    String.utf8EncodeChar char = [UInt8.ofNat char.toNat] := by
  have single : char.val.toNat ≤ 127 := Nat.le_of_lt_succ ascii
  rw [String.utf8EncodeChar, if_pos single]
  rfl

/-- No byte of a character beyond ASCII is one of ASCII. -/
theorem le_of_mem_utf8EncodeChar {char : Char} (beyond : 0x80 ≤ char.toNat) {byte : UInt8}
    (among : byte ∈ String.utf8EncodeChar char) : 0x80 ≤ byte.toNat := by
  have high (part offset : Nat) (small : part < 0x100 - offset) (set : 0x80 ≤ offset) :
      0x80 ≤ (UInt8.ofNat (part + offset)).toNat := by
    rw [UInt8.toNat_ofNat_of_lt' (by rw [UInt8.size]; omega)]
    omega
  have several : ¬ char.val.toNat ≤ 127 := Nat.not_le_of_lt beyond
  revert byte
  fun_cases String.utf8EncodeChar char with
  | case1 => exact absurd (by assumption) several
  | case2 code _ =>
      simp only [List.forall_mem_cons]
      exact ⟨high _ 192 (by omega) (by omega), high _ 128 (by omega) (by omega), by simp⟩
  | case3 code _ _ =>
      simp only [List.forall_mem_cons]
      exact ⟨high _ 224 (by omega) (by omega), high _ 128 (by omega) (by omega), high _ 128 (by omega) (by omega),
        by simp⟩
  | case4 code _ _ =>
      simp only [List.forall_mem_cons]
      exact ⟨high _ 240 (by omega) (by omega), high _ 128 (by omega) (by omega), high _ 128 (by omega) (by omega),
        high _ 128 (by omega) (by omega), by simp⟩

theorem HexDigit.toNat_char_lt (digit : HexDigit) : digit.char.toNat < 0x80 := by
  have all : ∀ (value : Fin 16) (capital : Bool), (HexDigit.mk value capital).char.toNat < 0x80 := by decide
  exact all digit.value digit.capital

theorem HexDigit.char_ne (digit : HexDigit) (quote : Quote) : digit.char ≠ '\\' ∧ digit.char ≠ quote.char := by
  have all : ∀ (value : Fin 16) (capital : Bool),
      (HexDigit.mk value capital).char ≠ '\\' ∧ (HexDigit.mk value capital).char ≠ '\'' ∧
        (HexDigit.mk value capital).char ≠ '"' := by decide
  obtain ⟨notEscape, notSingle, notDouble⟩ := all digit.value digit.capital
  cases quote with
  | single => exact ⟨notEscape, notSingle⟩
  | double => exact ⟨notEscape, notDouble⟩

theorem HexDigit.toNat_char (digit : HexDigit) :
    digit.char.toNat = if digit.value.val < 10 then 0x30 + digit.value.val
      else (if digit.capital then 0x41 else 0x61) + (digit.value.val - 10) := by
  have all : ∀ (value : Fin 16) (capital : Bool), (HexDigit.mk value capital).char.toNat =
      if value.val < 10 then 0x30 + value.val else (if capital then 0x41 else 0x61) + (value.val - 10) := by decide
  exact all digit.value digit.capital

theorem HexDigit.digit?_char (digit : HexDigit) {radix : Nat} (small : digit.value.val < radix) :
    Text.digit? radix digit.char = some digit.value.val := by
  have all : ∀ (value : Fin 16) (capital : Bool),
      Text.digit? 16 (HexDigit.mk value capital).char = some value.val := by decide
  have found := all digit.value digit.capital
  rw [Text.digit?, Option.filter_eq_some_iff] at found ⊢
  exact ⟨found.1, decide_eq_true small⟩

/-- Every character that counts as a digit is one of these. -/
theorem exists_hexDigit {radix value : Nat} {char : Char} (found : Text.digit? radix char = some value) :
    value < radix ∧ ∃ digit : HexDigit, digit.char = char ∧ digit.value.val = value := by
  have letter (capital : Bool) (first : Nat) (base : first = if capital then 0x41 else 0x61)
      (least : first ≤ char.toNat) (most : char.toNat ≤ first + 5) :
      ∃ digit : HexDigit, digit.char = char ∧ digit.value.val = char.toNat - first + 10 := by
    refine ⟨⟨⟨char.toNat - first + 10, by omega⟩, capital⟩, Char.toNat_inj.mp ?_, rfl⟩
    rw [HexDigit.toNat_char, if_neg (show ¬ char.toNat - first + 10 < 10 by omega), ← base]
    dsimp only
    omega
  rw [Text.digit?, Option.filter_eq_some_iff] at found
  obtain ⟨found, small⟩ := found
  refine ⟨of_decide_eq_true small, ?_⟩
  split_ifs at found with decimal lower upper
  · have least : 0x30 ≤ char.toNat := UInt32.le_iff_toNat_le.mp decimal.1
    have most : char.toNat ≤ 0x39 := UInt32.le_iff_toNat_le.mp decimal.2
    cases found
    refine ⟨⟨⟨char.toNat - 0x30, by omega⟩, false⟩, Char.toNat_inj.mp ?_, rfl⟩
    rw [HexDigit.toNat_char, if_pos (show char.toNat - 0x30 < 10 by omega)]
    exact Nat.add_sub_cancel' least
  · cases found
    exact letter false 0x61 rfl (UInt32.le_iff_toNat_le.mp lower.1) (UInt32.le_iff_toNat_le.mp lower.2)
  · cases found
    exact letter true 0x41 rfl (UInt32.le_iff_toNat_le.mp upper.1) (UInt32.le_iff_toNat_le.mp upper.2)

namespace Literal

theorem hexDigit?_char (digit : HexDigit) :
    hexDigit? (UInt8.ofNat digit.char.toNat) = some (UInt8.ofNat digit.value) := by
  have all : ∀ (value : Fin 16) (capital : Bool),
      hexDigit? (UInt8.ofNat (HexDigit.mk value capital).char.toNat) = some (UInt8.ofNat value) := by decide
  exact all digit.value digit.capital

/-- The table of escapes is the one that is written. -/
theorem namedEscape?_of_mem {letter : Char} {byte : UInt8} (known : (letter, byte) ∈ namedEscapes) :
    letter.toNat < 0x80 ∧ UInt8.ofNat letter.toNat ≠ hexMark ∧
      namedEscape? (UInt8.ofNat letter.toNat) = some byte := by
  have all : ∀ pair ∈ namedEscapes, pair.1.toNat < 0x80 ∧ UInt8.ofNat pair.1.toNat ≠ hexMark ∧
      namedEscape? (UInt8.ofNat pair.1.toNat) = some pair.2 := by decide
  exact all _ known

/-- Bytes that begin no escape stand for themselves. -/
theorem decodeBytes_plain (bytes rest : List UInt8) (plain : ∀ byte ∈ bytes, byte ≠ backslash) :
    decodeBytes (bytes ++ rest) = (decodeBytes rest).map (bytes ++ ·) := by
  induction bytes with
  | nil => exact (congrFun Except.map_id (decodeBytes rest)).symm
  | cons byte more induction =>
      obtain ⟨here, later⟩ := List.forall_mem_cons.mp plain
      rw [List.cons_append, decodeBytes.eq_def]
      simp only [if_pos here, induction later]
      cases decodeBytes rest <;> rfl

theorem decodeBytes_named {letter byte : UInt8} (rest : List UInt8) (notHex : letter ≠ hexMark)
    (known : namedEscape? letter = some byte) :
    decodeBytes (backslash :: letter :: rest) = (decodeBytes rest).map (byte :: ·) := by
  rw [decodeBytes.eq_def]
  simp only [ne_eq, not_true_eq_false, if_false, if_neg notHex, known]

theorem decodeBytes_hex {high low upper lower : UInt8} (rest : List UInt8) (first : hexDigit? high = some upper)
    (second : hexDigit? low = some lower) :
    decodeBytes (backslash :: hexMark :: high :: low :: rest) =
      (decodeBytes rest).map ((upper * 16 + lower) :: ·) := by
  rw [decodeBytes.eq_def]
  simp only [ne_eq, not_true_eq_false, if_false, if_true, first, second]

/-- Two digits stand for the byte of that number. -/
theorem decodeBytes_digits (high low : HexDigit) (rest : List UInt8) :
    decodeBytes (backslash :: hexMark :: UInt8.ofNat high.char.toNat :: UInt8.ofNat low.char.toNat :: rest) =
      (decodeBytes rest).map ([UInt8.ofNat (16 * high.value + low.value)] ++ ·) := by
  have number : UInt8.ofNat (16 * high.value + low.value) = UInt8.ofNat high.value * 16 + UInt8.ofNat low.value := by
    rw [Nat.mul_comm, UInt8.ofNat_add, UInt8.ofNat_mul]
    rfl
  rw [number]
  exact decodeBytes_hex rest (hexDigit?_char high) (hexDigit?_char low)

/-- A unit is decoded as a whole, whatever follows. -/
theorem decodeBytes_unit {quote : Quote} (unit : Spelling quote) (rest : List UInt8) :
    decodeBytes (Text.Utf8.encode unit.chars ++ rest) = (decodeBytes rest).map (unit.bytes ++ ·) := by
  have escaped : String.utf8EncodeChar '\\' = [backslash] := by decide
  simp only [Text.Utf8.encode]
  cases unit with
  | plain char ascii unescaped inside =>
      have other : UInt8.ofNat char.toNat ≠ backslash := by
        intro same
        have code := congrArg UInt8.toNat same
        rw [UInt8.toNat_ofNat_of_lt' (by rw [UInt8.size]; omega)] at code
        exact unescaped (Char.toNat_inj.mp code)
      simp only [Spelling.chars, List.flatMap_singleton, utf8EncodeChar_of_lt ascii]
      exact decodeBytes_plain _ rest (by simpa using other)
  | wide char beyond =>
      simp only [Spelling.chars, List.flatMap_singleton]
      refine decodeBytes_plain _ rest ?_
      rintro byte among rfl
      exact absurd (le_of_mem_utf8EncodeChar beyond among) (by decide)
  | named letter byte known =>
      obtain ⟨ascii, notHex, found⟩ := namedEscape?_of_mem known
      simp only [Spelling.chars, List.flatMap_cons, List.flatMap_nil, escaped, utf8EncodeChar_of_lt ascii]
      exact decodeBytes_named rest notHex found
  | hex high low =>
      have marked : String.utf8EncodeChar 'x' = [hexMark] := by decide
      simp only [Spelling.chars, Spelling.bytes, List.flatMap_cons, List.flatMap_nil, escaped, marked,
        utf8EncodeChar_of_lt (HexDigit.toNat_char_lt _)]
      exact decodeBytes_digits high low rest

/-- Literals are decoded unit by unit. -/
theorem escapes_text {quote : Quote} (units : List (Spelling quote)) :
    escapes (Spelling.text units) = .ok (Spelling.content units) := by
  rw [escapes, Spelling.text, String.toList_ofList]
  induction units with
  | nil => rfl
  | cons unit rest induction =>
      have split : Text.Utf8.encode ((unit :: rest).flatMap Spelling.chars) =
          Text.Utf8.encode unit.chars ++ Text.Utf8.encode (rest.flatMap Spelling.chars) := by
        simp only [Text.Utf8.encode, List.flatMap_cons, List.flatMap_append]
      rw [split, decodeBytes_unit, induction]
      rfl

end Literal

namespace Spelling

open Scanner

section Scanning

variable {quote : Quote}

/-- A literal is still open after a unit, and no character is waiting for its escape. -/
theorem opens_unit (unit : Spelling quote) {reversed : List Char} (opens : quote.Opens reversed false) :
    quote.Opens (unit.chars.reverse ++ reversed) false := by
  have goesOn {char : Char} {before : List Char} (opens : quote.Opens before false) (unescaped : char ≠ '\\')
      (inside : char ≠ quote.char) : quote.Opens (char :: before) false :=
    opens_cons opens fun _ _ _ => by simp [feed, inside, unescaped]
  have escaped {char : Char} (opens : quote.Opens reversed false) : quote.Opens (char :: '\\' :: reversed) false := by
    have begun : quote.Opens ('\\' :: reversed) true :=
      opens_cons opens fun _ _ _ => by cases quote <;> simp [feed, Quote.char]
    exact opens_cons begun fun _ _ _ => by simp [feed]
  cases unit with
  | plain char ascii unescaped inside => exact goesOn opens unescaped inside
  | wide char beyond =>
      refine goesOn opens ?_ ?_
      · rintro rfl
        exact absurd beyond (by decide)
      · rintro rfl
        cases quote <;> exact absurd beyond (by decide)
  | named letter byte known => exact escaped opens
  | hex high low =>
      exact goesOn (goesOn (escaped opens) (high.char_ne quote).1 (high.char_ne quote).2) (low.char_ne quote).1
        (low.char_ne quote).2

theorem opens_units (units : List (Spelling quote)) {reversed : List Char} (opens : quote.Opens reversed false) :
    quote.Opens ((units.flatMap chars).reverse ++ reversed) false := by
  induction units generalizing reversed with
  | nil => exact opens
  | cons unit rest induction =>
      rw [List.flatMap_cons, List.reverse_append, List.append_assoc]
      exact induction (opens_unit unit opens)

/-- The literal is read as one token that is closed, with the text as it was written. -/
theorem rereads_literal (units : List (Spelling quote)) : Rereads (quote.token (units.flatMap chars) true) := by
  have opens := opens_units units (opens_nil quote)
  rw [List.append_nil] at opens
  have rereads := rereads_closed opens
  rw [List.reverse_reverse] at rereads
  exact rereads

theorem toList_literal (units : List (Spelling quote)) :
    (literal units).toList = (quote.token (units.flatMap chars) true).text.toList := by
  rw [literal, String.toList_ofList, Token.text_token, if_pos rfl]

theorem scan_literal (units : List (Spelling quote)) :
    TokenList.scan (literal units) =
      ⟨[⟨quote.token (units.flatMap chars) true, Location.start⟩], Location.after (literal units).toList⟩ := by
  have covers := covers_initial.foldl (literal units).toList
  have found := (rereads_literal units Location.start #[]).1
  rw [← toList_literal] at found
  rw [TokenList.scan, TokenList.mk.injEq]
  exact ⟨found, covers.here⟩

end Scanning

/-- String literals with `&` between them. -/
def joined (pieces : List (List (Spelling .double))) : String :=
  " & ".intercalate (pieces.map literal)

/-- The program that puts a string under the head and then leaves the tree. -/
def assignment (pieces : List (List (Spelling .double))) : String :=
  "\x7b . " ++ joined pieces ++ " ^ \x7d"

theorem scans_literal (units : List (Spelling .double)) :
    Scans ((literal units).toList ++ [' ']) fun tokens => ∃ place, tokens = [⟨.string (text units) true, place⟩] := by
  intro here before
  obtain ⟨there, taken⟩ := (rereads_literal units here before).2 rfl
  rw [← toList_literal] at taken
  refine ⟨there, #[⟨.string (text units) true, here⟩], ?_, here, rfl⟩
  rw [List.foldl_append, List.foldl_cons, List.foldl_nil, taken]
  rfl

theorem scans_spaced {char : Char} {token : Token} (found : Token.ofChar? char = some token) :
    Scans [char, ' '] fun tokens => ∃ place, tokens = [⟨token, place⟩] := by
  have single : Scans [char] fun tokens => ∃ place, tokens = [⟨token, place⟩] :=
    scans_char found fun place => ⟨place, rfl⟩
  refine single.append scans_blank ?_
  rintro _ _ ⟨place, rfl⟩ rfl
  exact ⟨place, rfl⟩

/-- Joined literals are the strings of the grammar, with the bytes of all of them. -/
theorem scans_joined (first : List (Spelling .double)) (others : List (List (Spelling .double))) :
    Scans ((joined (first :: others)).toList ++ [' ']) fun tokens =>
      Grammar.Strings tokens ((first :: others).flatMap content) := by
  rw [joined, String.toList_intercalate, List.map_map]
  induction others generalizing first with
  | nil =>
      intro here before
      obtain ⟨there, located, taken, place, same⟩ := scans_literal first here before
      refine ⟨there, located, by simpa [List.intercalate] using taken, ?_⟩
      rw [same, List.flatMap_singleton]
      exact .last place (Literal.escapes_text first)
  | cons second rest induction =>
      have further : Scans (['&', ' '] ++ (List.intercalate " & ".toList
          ((second :: rest).map (String.toList ∘ literal)) ++ [' '])) fun tokens => ∃ joint others,
            tokens = ⟨.concat, joint⟩ :: others ∧ Grammar.Strings others ((second :: rest).flatMap content) := by
        refine (scans_spaced rfl).append (induction second) ?_
        rintro _ others ⟨joint, rfl⟩ written
        exact ⟨joint, others, rfl, written⟩
      have split : List.intercalate " & ".toList ((first :: second :: rest).map (String.toList ∘ literal)) ++ [' '] =
          ((literal first).toList ++ [' ']) ++ (['&', ' '] ++
            (List.intercalate " & ".toList ((second :: rest).map (String.toList ∘ literal)) ++ [' '])) := by
        rw [List.map_cons, List.map_cons, List.intercalate_cons_cons]
        simp
      rw [split]
      refine (scans_literal first).append further ?_
      rintro _ _ ⟨place, rfl⟩ ⟨joint, others, rfl, written⟩
      exact .more place joint (Literal.escapes_text first) written

/-- The tokens of the program, with those of the joined literals in their place. -/
theorem scans_assignment (first : List (Spelling .double)) (others : List (List (Spelling .double))) :
    Scans (assignment (first :: others)).toList fun tokens => ∃ opened dot taken up closed,
      tokens = ⟨.openBlock, opened⟩ :: ⟨.dot, dot⟩ :: (taken ++ [⟨.keyword "^", up⟩, ⟨.closeBlock, closed⟩]) ∧
        Grammar.Strings taken ((first :: others).flatMap content) := by
  have ending : Scans ("^".toList ++ [' ', '\x7d']) fun tokens => ∃ up closed,
      tokens = [⟨.keyword "^", up⟩, ⟨.closeBlock, closed⟩] := by
    obtain ⟨filled, plain, word⟩ := Keyword.of_isWord
      (List.all_eq_true.mp Keyword.all_isWord "^" (List.contains_iff_mem.mp rfl))
    have brace : Scans ['\x7d'] fun tokens => ∃ closed, tokens = [⟨.closeBlock, closed⟩] :=
      scans_char rfl fun closed => ⟨closed, rfl⟩
    have closing : Scans ([' '] ++ ['\x7d']) fun tokens => ∃ closed, tokens = [⟨.closeBlock, closed⟩] := by
      refine scans_blank.append brace ?_
      rintro _ _ rfl found
      exact found
    refine scans_word filled plain rfl closing ?_
    rintro up _ ⟨closed, rfl⟩
    exact ⟨up, closed, by rw [word]⟩
  have opening : Scans (['\x7b', ' '] ++ ['.', ' ']) fun tokens => ∃ opened dot,
      tokens = [⟨.openBlock, opened⟩, ⟨.dot, dot⟩] := by
    refine (scans_spaced rfl).append (scans_spaced rfl) ?_
    rintro _ _ ⟨opened, rfl⟩ ⟨dot, rfl⟩
    exact ⟨opened, dot, rfl⟩
  have split : (assignment (first :: others)).toList = (['\x7b', ' '] ++ ['.', ' ']) ++
      (((joined (first :: others)).toList ++ [' ']) ++ ("^".toList ++ [' ', '\x7d'])) := by
    simp [assignment]
  have filled : Scans (((joined (first :: others)).toList ++ [' ']) ++ ("^".toList ++ [' ', '\x7d'])) fun tokens =>
      ∃ taken up closed, tokens = taken ++ [⟨.keyword "^", up⟩, ⟨.closeBlock, closed⟩] ∧
        Grammar.Strings taken ((first :: others).flatMap content) := by
    refine (scans_joined first others).append ending ?_
    rintro taken _ written ⟨up, closed, rfl⟩
    exact ⟨taken, up, closed, rfl, written⟩
  rw [split]
  refine opening.append filled ?_
  rintro _ _ ⟨opened, dot, rfl⟩ ⟨taken, up, closed, rfl, written⟩
  exact ⟨opened, dot, taken, up, closed, rfl, written⟩

end Spelling

namespace Reading

/-- A dot and strings after it fill the cell under the head, however long the strings are. -/
theorem instruction_strings (finish dot : Location) {taken rest : List (Located Token)} {bytes : List UInt8}
    (written : Grammar.Strings taken bytes) (stops : Stops rest) :
    instruction finish ⟨.dot, dot⟩ (taken ++ rest) =
      ⟨some ⟨.setMemory (CellTree.ofBytes bytes), .always, dot⟩, rest, []⟩ := by
  have apart (token : Located Token) (next : token ∈ rest.head?) : token.value ≠ .concat := by
    intro same
    have stopping := stops token next
    rw [same] at stopping
    cases stopping
  have own := strings_append finish written apart
  obtain ⟨raw, location, more, rfl⟩ := exists_cons_of_strings written
  have filled : memory finish ⟨.string raw true, location⟩ (more ++ rest) =
      ⟨some (CellTree.ofBytes bytes), rest, []⟩ := by
    simp only [memory]
    rw [← List.cons_append, own]
    rfl
  have assigned : instruction finish ⟨.dot, dot⟩ (⟨.string raw true, location⟩ :: more ++ rest) =
      gated dot ((memory finish ⟨.string raw true, location⟩ (more ++ rest)).map Op.setMemory) := rfl
  rw [assigned, filled]
  exact gated_append dot .absent stops

/-- A block that fills the cell under the head with strings and moves up. -/
theorem block_strings (finish opened dot up closed : Location) {taken : List (Located Token)} {bytes : List UInt8}
    (written : Grammar.Strings taken bytes) :
    block finish opened (⟨.dot, dot⟩ :: (taken ++ [⟨.keyword "^", up⟩, ⟨.closeBlock, closed⟩])) =
      ⟨some ⟨.always, .instruction ⟨.setMemory (CellTree.ofBytes bytes), .always, dot⟩,
        [.instruction ⟨.move .up, .always, up⟩], opened⟩, [], []⟩ := by
  have stops : Stops [⟨.keyword "^", up⟩, ⟨.closeBlock, closed⟩] := by
    rintro _ ⟨rfl⟩
    rfl
  have first := instruction_strings finish dot written stops
  have size : (⟨.dot, dot⟩ :: (taken ++ [⟨.keyword "^", up⟩, ⟨.closeBlock, closed⟩]) : List (Located Token)).length =
      taken.length + 3 := by simp
  simp only [block, gate, size, members, first]
  rfl

end Reading

namespace Spelling

/-- The program that assigns joined literals is read as one assignment of the bytes of all of them. -/
theorem read_assignment (first : List (Spelling .double)) (others : List (List (Spelling .double))) :
    ∃ opened dot up, Draft.read (assignment (first :: others)) = .ok
      ⟨⟨.always, .instruction ⟨.setMemory (CellTree.ofBytes ((first :: others).flatMap content)), .always, dot⟩,
        [.instruction ⟨.move .up, .always, up⟩], opened⟩, none, none, none⟩ := by
  obtain ⟨finish, located, scanned, opened, dot, taken, up, closed, tokens, written⟩ :=
    scans_assignment first others Location.start #[]
  have found : (TokenList.scan (assignment (first :: others))).tokens = located.toList := by
    rw [TokenList.scan, Scanner.initial, scanned]
    simp [Scanner.finish]
  have block :=
    Reading.block_strings (TokenList.scan (assignment (first :: others))).finish opened dot up closed written
  refine ⟨opened, dot, up, Draft.read_eq_ok.mpr ⟨{ hasBlock := true, root := some _ }, ?_, rfl, rfl, rfl, rfl, rfl⟩⟩
  rw [found, tokens, List.length_cons, Outline.readAll]
  simp only [Outline.readPart, block]
  rfl

theorem content_flatten (pieces : List (List (Spelling .double))) :
    content pieces.flatten = pieces.flatMap content := by
  rw [content, List.flatMap_def, List.map_flatten, List.flatten_flatten, List.map_map]
  rfl

/-- A byte can be written by its number. -/
def ofByte (quote : Quote) (byte : UInt8) : Spelling quote :=
  .hex ⟨⟨byte.toNat / 16, by have := byte.toNat_lt; omega⟩, false⟩ ⟨⟨byte.toNat % 16, by omega⟩, false⟩

theorem content_ofByte (quote : Quote) (bytes : List UInt8) : content (bytes.map (ofByte quote)) = bytes := by
  induction bytes with
  | nil => rfl
  | cons byte rest induction =>
      have same : UInt8.ofNat (16 * (byte.toNat / 16) + byte.toNat % 16) = byte := by
        rw [Nat.div_add_mod, UInt8.ofNat_toNat]
      rw [content, List.map_cons, List.flatMap_cons, ofByte, Spelling.bytes, same]
      exact congrArg (byte :: ·) induction

/--
Bytes survive being written in a literal and read again, in whichever units they are written. The text is decoded to
the bytes; the text in double quotes is one closed token that holds it unchanged; strings joined by `&` and assigned to
a cell stand for the ring of all their bytes; and a text in single quotes that stands for one byte is that number.
-/
theorem bytes_survive_writing :
    (∀ (quote : Quote) (bytes : List UInt8), ∃ units : List (Spelling quote), content units = bytes) ∧
      (∀ (quote : Quote) (units : List (Spelling quote)), Literal.escapes (text units) = .ok (content units)) ∧
      (∀ units : List (Spelling .double), TokenList.scan (literal units) =
        ⟨[⟨.string (text units) true, Location.start⟩], Location.after (literal units).toList⟩) ∧
      (∀ (first : List (Spelling .double)) (others : List (List (Spelling .double))), ∃ tree opened dot up,
        Draft.read (assignment (first :: others)) = .ok
          ⟨⟨.always, .instruction ⟨.setMemory tree, .always, dot⟩, [.instruction ⟨.move .up, .always, up⟩], opened⟩,
            none, none, none⟩ ∧
        tree.snapshot = Snapshot.ringOf ((content (first :: others).flatten).map Num.ofByte)) ∧
      ∀ (units : List (Spelling .single)) (byte : UInt8), content units = [byte] →
        TokenList.scan (literal units) =
          ⟨[⟨.numeral (.char (text units) true), Location.start⟩], Location.after (literal units).toList⟩ ∧
        Literal.char (text units) = .ok (Num.ofByte byte) := by
  refine ⟨fun quote bytes => ⟨bytes.map (ofByte quote), content_ofByte quote bytes⟩, fun _ => Literal.escapes_text,
    scan_literal, ?_, ?_⟩
  · intro first others
    obtain ⟨opened, dot, up, read⟩ := read_assignment first others
    refine ⟨_, opened, dot, up, read, ?_⟩
    rw [CellTree.snapshot_ofBytes, content_flatten]
  · intro units byte single
    refine ⟨scan_literal units, ?_⟩
    rw [Literal.char, Literal.escapes_text, single]

/-- A quote that is escaped right before the closing one. -/
def sampleFirst : List (Spelling .double) :=
  [.plain 'a' (by decide) (by decide) (by decide), .named '"' 0x22 (by decide)]

/-- A character of two bytes, and an escape with digits of both cases. -/
def sampleSecond : List (Spelling .double) :=
  [.wide 'é' (by decide), .hex ⟨10, true⟩ ⟨11, false⟩]

theorem bytes_survive_writing_sample :
    assignment [sampleFirst, sampleSecond] = "\x7b . \"a\\\"\" & \"é\\xAb\" ^ \x7d" ∧
      (∃ tree opened dot up, Draft.read "\x7b . \"a\\\"\" & \"é\\xAb\" ^ \x7d" = .ok
          ⟨⟨.always, .instruction ⟨.setMemory tree, .always, dot⟩, [.instruction ⟨.move .up, .always, up⟩], opened⟩,
            none, none, none⟩ ∧
        tree.snapshot = Snapshot.ringOf [0x61, 0x22, 0xC3, 0xA9, 0xAB]) ∧
      content ([.hex ⟨5, false⟩ ⟨12, true⟩] : List (Spelling .single)) = [0x5C] ∧
        Literal.char "\\x5C" = .ok 0x5C := by
  obtain ⟨_, _, _, assigned, spelled⟩ := bytes_survive_writing
  have written : assignment [sampleFirst, sampleSecond] = "\x7b . \"a\\\"\" & \"é\\xAb\" ^ \x7d" := by decide +kernel
  have read := assigned sampleFirst [sampleSecond]
  rw [written] at read
  exact ⟨written, read, rfl, (spelled [.hex ⟨5, false⟩ ⟨12, true⟩] 0x5C rfl).2⟩

end Spelling

end RingTape
