import RingTape.Proofs.Spelling

/-!
Bodies of quoted literals as sequences of units. A unit is a byte that stands for itself or an escape of two or four
bytes; a body is decoded unit by unit from the left, so that a part that can be decoded has no influence on what comes
after it, and the first place where no unit begins decides on the error. The scanner groups the same body by characters.
Both agree on whether a backslash waits for what it escapes, so the body of a literal that is closed never ends in one.
-/

namespace RingTape

set_option autoImplicit false

/-- One unit of a body, as bytes. -/
inductive EscapeUnit where
  | plain (byte : UInt8) (unescaped : byte ≠ 0x5C)
  | named (letter : Char) (byte : UInt8) (known : (letter, byte) ∈ namedEscapes)
  | hex (high low : HexDigit)

namespace EscapeUnit

/-- The unit as it is written. -/
def bytes : EscapeUnit → List UInt8
  | .plain byte _ => [byte]
  | .named letter _ _ => [0x5C, UInt8.ofNat letter.toNat]
  | .hex high low => [0x5C, 0x78, UInt8.ofNat high.char.toNat, UInt8.ofNat low.char.toNat]

/-- The byte that the unit stands for. -/
def value : EscapeUnit → UInt8
  | .plain byte _ => byte
  | .named _ byte _ => byte
  | .hex high low => UInt8.ofNat (16 * high.value + low.value)

end EscapeUnit

/-- A place where no unit begins, and the error that tells what stands there. -/
inductive Flaw : List UInt8 → LiteralError → Prop where
  | cut : Flaw [0x5C] (.invalidEscape "\\")
  | unknown {letter : UInt8} {rest : List UInt8} (notHex : letter ≠ 0x78)
      (noName : ∀ pair ∈ namedEscapes, letter ≠ UInt8.ofNat pair.1.toNat) :
      Flaw (0x5C :: letter :: rest) (.invalidEscape ("\\" ++ Literal.shown [letter]))
  | hex {rest : List UInt8}
      (noDigits : ∀ high low : HexDigit,
        ¬ [UInt8.ofNat high.char.toNat, UInt8.ofNat low.char.toNat] <+: rest) :
      Flaw (0x5C :: 0x78 :: rest) (.invalidHexEscape ("\\x" ++ Literal.shown (rest.take 2)))

namespace Literal

theorem toNat_ofNat_byte (byte : UInt8) : (Char.ofNat byte.toNat).toNat = byte.toNat := by
  have small := byte.toNat_lt
  have valid : byte.toNat.isValidChar := .inl (by omega)
  rw [Char.toNat_ofNat, if_pos valid]

/-- A byte with a name in the table is one of the letters that are written. -/
theorem mem_of_namedEscape? {letter byte : UInt8} (found : namedEscape? letter = some byte) :
    (Char.ofNat letter.toNat, byte) ∈ namedEscapes := by
  unfold namedEscape? at found
  split at found <;> simp_all [namedEscapes]

theorem ofNat_toNat_ofNat (byte : UInt8) : UInt8.ofNat (Char.ofNat byte.toNat).toNat = byte := by
  rw [toNat_ofNat_byte, UInt8.ofNat_toNat]

/-- A byte that counts as a hexadecimal digit is one of those that are written. -/
theorem exists_of_hexDigit? {byte value : UInt8} (found : hexDigit? byte = some value) :
    ∃ digit : HexDigit, UInt8.ofNat digit.char.toNat = byte ∧ value = UInt8.ofNat digit.value := by
  obtain ⟨number, read, same⟩ := Option.map_eq_some_iff.mp found
  obtain ⟨_, digit, char, number'⟩ := exists_hexDigit read
  exact ⟨digit, by rw [char, ofNat_toNat_ofNat], by rw [number', same]⟩

/-- A unit is decoded as a whole, whatever follows. -/
theorem decodeBytes_bytes_append (unit : EscapeUnit) (rest : List UInt8) :
    decodeBytes (unit.bytes ++ rest) = (decodeBytes rest).map (unit.value :: ·) := by
  cases unit with
  | plain byte unescaped => exact decodeBytes_plain [byte] rest (List.forall_mem_singleton.mpr unescaped)
  | named letter byte known =>
      obtain ⟨_, notHex, found⟩ := namedEscape?_of_mem known
      exact decodeBytes_named rest notHex found
  | hex high low => exact decodeBytes_digits high low rest

theorem decodeBytes_units_append (units : List EscapeUnit) (rest : List UInt8) :
    decodeBytes (units.flatMap EscapeUnit.bytes ++ rest) =
      (decodeBytes rest).map (units.map EscapeUnit.value ++ ·) := by
  induction units with
  | nil => exact (congrFun Except.map_id (decodeBytes rest)).symm
  | cons unit others induction =>
      rw [List.flatMap_cons, List.append_assoc, decodeBytes_bytes_append, induction]
      cases decodeBytes rest <;> rfl

/-- Nothing is decoded where no unit begins. -/
theorem decodeBytes_of_flaw {rest : List UInt8} {error : LiteralError} (flaw : Flaw rest error) :
    decodeBytes rest = .error error := by
  cases flaw with
  | cut => rfl
  | @unknown letter rest notHex noName =>
      have none : namedEscape? letter = none := by
        cases found : namedEscape? letter with
        | none => rfl
        | some byte => exact absurd (ofNat_toNat_ofNat letter).symm (noName _ (mem_of_namedEscape? found))
      rw [decodeBytes.eq_def]
      simp only [backslash, ne_eq, not_true_eq_false, if_false, hexMark, if_neg notHex, none]
  | @hex rest noDigits =>
      rw [decodeBytes.eq_def]
      simp only [backslash, ne_eq, not_true_eq_false, if_false, hexMark, if_true]
      cases rest with
      | nil => rfl
      | cons high tail =>
          cases tail with
          | nil => rfl
          | cons low tail =>
              cases upper : hexDigit? high with
              | none => simp only [upper]; rfl
              | some first =>
                  cases lower : hexDigit? low with
                  | none => simp only [upper, lower]; rfl
                  | some second =>
                      obtain ⟨one, sameOne, _⟩ := exists_of_hexDigit? upper
                      obtain ⟨two, sameTwo, _⟩ := exists_of_hexDigit? lower
                      exact absurd ⟨tail, by rw [sameOne, sameTwo]; rfl⟩ (noDigits one two)

/-- The bytes begin with units, and behind them is the end or a place where no unit begins. -/
def InUnits (bytes : List UInt8) : Prop :=
  ∃ (units : List EscapeUnit) (rest : List UInt8),
    bytes = units.flatMap EscapeUnit.bytes ++ rest ∧ (rest = [] ∨ ∃ error, Flaw rest error)

theorem InUnits.cons (unit : EscapeUnit) {bytes : List UInt8} (split : InUnits bytes) :
    InUnits (unit.bytes ++ bytes) := by
  obtain ⟨units, rest, whole, ends⟩ := split
  exact ⟨unit :: units, rest, by rw [whole, List.flatMap_cons, List.append_assoc], ends⟩

theorem inUnits_of_flaw {bytes : List UInt8} {error : LiteralError} (flaw : Flaw bytes error) : InUnits bytes :=
  ⟨[], bytes, rfl, .inr ⟨error, flaw⟩⟩

/-- Every body is read in units from the left as far as there are any. -/
theorem inUnits (bytes : List UInt8) : InUnits bytes := by
  fun_induction decodeBytes bytes with
  | case1 => exact ⟨[], [], rfl, .inl rfl⟩
  | case2 byte rest plain induction => exact induction.cons (.plain byte plain)
  | case3 mark escape =>
      cases not_not.mp escape
      exact inUnits_of_flaw .cut
  | case4 mark escape high low rest upper lower second first induction =>
      cases not_not.mp escape
      obtain ⟨one, sameOne, _⟩ := exists_of_hexDigit? first
      obtain ⟨two, sameTwo, _⟩ := exists_of_hexDigit? second
      have split := induction.cons (.hex one two)
      rw [EscapeUnit.bytes, sameOne, sameTwo] at split
      exact split
  | case5 mark escape high low rest noPair =>
      cases not_not.mp escape
      refine inUnits_of_flaw (.hex fun one two leads => ?_)
      obtain ⟨tail, same⟩ := leads
      cases same
      exact noPair _ _ (hexDigit?_char one) (hexDigit?_char two)
  | case6 mark escape short noPair =>
      cases not_not.mp escape
      refine inUnits_of_flaw (.hex fun one two leads => ?_)
      obtain ⟨tail, same⟩ := leads
      exact noPair _ _ tail same.symm
  | case7 mark escape letter rest notHex decoded found induction =>
      cases not_not.mp escape
      have split := induction.cons (.named _ decoded (mem_of_namedEscape? found))
      rw [EscapeUnit.bytes, ofNat_toNat_ofNat] at split
      exact split
  | case8 mark escape letter rest notHex none =>
      cases not_not.mp escape
      refine inUnits_of_flaw (.unknown notHex ?_)
      intro pair known same
      have found := (namedEscape?_of_mem known).2.2
      rw [← same, none] at found
      cases found

/-- A body that is decoded consists of units, and stands for their bytes. -/
theorem decodeBytes_eq_ok_iff (bytes decoded : List UInt8) :
    decodeBytes bytes = .ok decoded ↔
      ∃ units : List EscapeUnit, bytes = units.flatMap EscapeUnit.bytes ∧ decoded = units.map EscapeUnit.value := by
  constructor
  · intro read
    obtain ⟨units, rest, rfl, ends⟩ := inUnits bytes
    rw [decodeBytes_units_append] at read
    rcases ends with rfl | ⟨error, flaw⟩
    · cases read
      exact ⟨units, List.append_nil _, List.append_nil _⟩
    · rw [decodeBytes_of_flaw flaw] at read
      cases read
  · intro written
    obtain ⟨units, rfl, rfl⟩ := written
    have read := decodeBytes_units_append units []
    rw [List.append_nil] at read
    exact read.trans (congrArg Except.ok (List.append_nil _))

/-- A body that is refused has a place where no unit begins, and the first such place is what the error tells. -/
theorem decodeBytes_eq_error_iff (bytes : List UInt8) (error : LiteralError) :
    decodeBytes bytes = .error error ↔
      ∃ (units : List EscapeUnit) (rest : List UInt8),
        bytes = units.flatMap EscapeUnit.bytes ++ rest ∧ Flaw rest error := by
  constructor
  · intro refused
    obtain ⟨units, rest, rfl, ends⟩ := inUnits bytes
    refine ⟨units, rest, rfl, ?_⟩
    rw [decodeBytes_units_append] at refused
    rcases ends with rfl | ⟨other, flaw⟩
    · cases refused
    · rw [decodeBytes_of_flaw flaw] at refused
      cases refused
      exact flaw
  · intro stopped
    obtain ⟨units, rest, rfl, flaw⟩ := stopped
    rw [decodeBytes_units_append, decodeBytes_of_flaw flaw]
    rfl

/-- What is decoded has no influence on what follows. -/
theorem escapes_append {first : String} {bytes : List UInt8} (read : escapes first = .ok bytes) (second : String) :
    escapes (first ++ second) = (escapes second).map (bytes ++ ·) := by
  obtain ⟨units, written, rfl⟩ := (decodeBytes_eq_ok_iff _ _).mp read
  have split : Text.Utf8.encode (first ++ second).toList =
      Text.Utf8.encode first.toList ++ Text.Utf8.encode second.toList := by
    rw [String.toList_append, Text.Utf8.encode, List.flatMap_append]
    rfl
  rw [escapes, split, written]
  exact decodeBytes_units_append units _

end Literal

section Waiting

variable {α : Type} [DecidableEq α]

/-- A mark escapes what comes next, unless it is escaped itself. -/
def waitStep (mark : α) (waiting : Bool) (item : α) : Bool :=
  !waiting && decide (item = mark)

/-- Whether a mark at the end still waits for what it escapes. -/
def waits (mark : α) (items : List α) : Bool :=
  items.foldl (waitStep mark) false

theorem foldl_waitStep_of_ne {mark : α} {items : List α} (filled : items ≠ []) (other : ∀ item ∈ items, item ≠ mark)
    (waiting : Bool) : items.foldl (waitStep mark) waiting = false := by
  induction items generalizing waiting with
  | nil => exact absurd rfl filled
  | cons item rest induction =>
      have here : waitStep mark waiting item = false := by simp [waitStep, other item List.mem_cons_self]
      rw [List.foldl_cons, here]
      cases rest with
      | nil => rfl
      | cons next others =>
          exact induction (List.cons_ne_nil _ _) (fun item among => other item (List.mem_cons_of_mem _ among)) false

end Waiting

/-- The bytes of a character wait just if the character does. -/
theorem foldl_utf8EncodeChar (char : Char) (waiting : Bool) :
    (String.utf8EncodeChar char).foldl (waitStep 0x5C) waiting = waitStep '\\' waiting char := by
  by_cases ascii : char.toNat < 0x80
  · have same : UInt8.ofNat char.toNat = 0x5C ↔ char = '\\' := by
      rw [← UInt8.toNat_inj, UInt8.toNat_ofNat_of_lt' (by rw [UInt8.size]; omega), ← Char.toNat_inj]
      rfl
    rw [utf8EncodeChar_of_lt ascii]
    simp only [List.foldl_cons, List.foldl_nil, waitStep, same]
  · have beyond : 0x80 ≤ char.toNat := Nat.le_of_not_lt ascii
    have filled : String.utf8EncodeChar char ≠ [] := by
      intro none
      have size := String.length_utf8EncodeChar char
      rw [none, List.length_nil] at size
      exact absurd size.symm (Nat.ne_of_gt (Char.utf8Size_pos char))
    have other : char ≠ '\\' := by
      intro same
      rw [same] at beyond
      exact absurd beyond (by decide)
    rw [foldl_waitStep_of_ne filled]
    · simp [waitStep, other]
    · intro byte among same
      have high := le_of_mem_utf8EncodeChar beyond among
      rw [same] at high
      exact absurd high (by decide)

theorem waits_encode (text : List Char) : waits 0x5C (Text.Utf8.encode text) = waits '\\' text := by
  have same (waiting : Bool) : (Text.Utf8.encode text).foldl (waitStep 0x5C) waiting =
      text.foldl (waitStep '\\') waiting := by
    induction text generalizing waiting with
    | nil => rfl
    | cons char rest induction =>
        rw [Text.Utf8.encode, List.flatMap_cons, List.foldl_append, foldl_utf8EncodeChar, List.foldl_cons]
        exact induction _
  exact same false

/-- Nothing waits behind a unit. -/
theorem waits_units (units : List EscapeUnit) : waits 0x5C (units.flatMap EscapeUnit.bytes) = false := by
  have unit (unit : EscapeUnit) : unit.bytes.foldl (waitStep 0x5C) false = false := by
    cases unit with
    | plain byte unescaped => simp [EscapeUnit.bytes, waitStep, unescaped]
    | named letter byte known => simp [EscapeUnit.bytes, waitStep]
    | hex high low =>
        have digit (digit : HexDigit) : UInt8.ofNat digit.char.toNat ≠ 0x5C := by
          have all : ∀ (value : Fin 16) (capital : Bool),
              UInt8.ofNat (HexDigit.mk value capital).char.toNat ≠ 0x5C := by decide
          exact all digit.value digit.capital
        simp [EscapeUnit.bytes, waitStep, digit]
  induction units with
  | nil => rfl
  | cons first rest induction =>
      rw [waits, List.flatMap_cons, List.foldl_append, unit]
      exact induction

/-- The body of a quoted literal that is closed. -/
def Token.body? : Token → Option String
  | .string raw true => some raw
  | .numeral (.char raw true) => some raw
  | _ => none

namespace Scanner

theorem body?_ofWord (word : List Char) : (Token.ofWord word).body? = none := by
  unfold Token.ofWord
  split
  · rfl
  · rfl
  · rfl
  · rfl
  · split_ifs <;> rfl
  · rfl

theorem body?_ofChar? {char : Char} {token : Token} (found : Token.ofChar? char = some token) :
    token.body? = none := by
  unfold Token.ofChar? at found
  split at found <;> cases found <;> rfl

theorem body?_token (quote : Quote) (raw : List Char) (closed : Bool) :
    (quote.token raw closed).body? = if closed then some (String.ofList raw) else none := by
  cases quote <;> cases closed <;> rfl

/-- Nothing waits at the end of the bodies of these tokens. -/
def Complete (tokens : List (Located Token)) : Prop :=
  ∀ located ∈ tokens, ∀ raw, located.value.body? = some raw → waits '\\' raw.toList = false

theorem Complete.push {tokens : Array (Located Token)} (complete : Complete tokens.toList) {token : Token}
    (start : Location) (body : ∀ raw, token.body? = some raw → waits '\\' raw.toList = false) :
    Complete (tokens.push ⟨token, start⟩).toList := by
  intro located among
  rw [Array.toList_push, List.mem_append, List.mem_singleton] at among
  rcases among with old | new
  · exact complete located old
  · rw [new]
    exact body

/-- The scanner knows whether a character is escaped. -/
structure Aligned (scanner : Scanner) : Prop where
  complete : Complete scanner.tokens.toList
  waiting : ∀ quote reversed escaped start, scanner.mode = .quoted quote reversed escaped start →
    escaped = waits '\\' reversed.reverse

theorem aligned_begin {tokens : Array (Located Token)} (complete : Complete tokens.toList) (here : Location)
    (char : Char) : (begin tokens here char).Aligned := by
  unfold begin enter
  cases found : Token.ofChar? char with
  | some token =>
      refine ⟨complete.push here fun raw body => ?_, fun _ _ _ _ mode => by cases mode⟩
      rw [body?_ofChar? found] at body
      cases body
  | none =>
      cases Quote.ofChar? char with
      | some quote =>
          refine ⟨complete, fun _ _ _ _ mode => ?_⟩
          cases mode
          rfl
      | none =>
          dsimp only
          split_ifs
          all_goals exact ⟨complete, fun _ _ _ _ mode => by cases mode⟩

theorem aligned_feed {scanner : Scanner} (aligned : scanner.Aligned) (char : Char) :
    (scanner.feed char).Aligned := by
  unfold feed
  cases mode : scanner.mode with
  | gap => exact aligned_begin aligned.complete scanner.here char
  | comment =>
      dsimp only
      split_ifs
      all_goals exact ⟨aligned.complete, fun _ _ _ _ mode => by cases mode⟩
  | word reversed start =>
      dsimp only
      split_ifs
      · refine aligned_begin (aligned.complete.push start fun raw body => ?_) scanner.here char
        rw [body?_ofWord] at body
        cases body
      · exact ⟨aligned.complete, fun _ _ _ _ mode => by cases mode⟩
  | quoted quote reversed escaped start =>
      have waiting := aligned.waiting quote reversed escaped start mode
      have next : waits '\\' (char :: reversed).reverse = waitStep '\\' escaped char := by
        rw [waits, List.reverse_cons, List.foldl_append, waiting]
        rfl
      dsimp only
      split_ifs with isEscaped closes
      · refine ⟨aligned.complete, fun _ _ _ _ mode => ?_⟩
        cases mode
        rw [next, isEscaped]
        rfl
      · refine ⟨aligned.complete.push start fun raw body => ?_, fun _ _ _ _ mode => by cases mode⟩
        rw [body?_token, if_pos rfl] at body
        cases body
        rw [String.toList_ofList, ← waiting, Bool.eq_false_iff.mpr isEscaped]
      · refine ⟨aligned.complete, fun _ _ _ _ mode => ?_⟩
        cases mode
        rw [next, Bool.eq_false_iff.mpr isEscaped]
        rfl

theorem aligned_foldl (text : List Char) {scanner : Scanner} (aligned : scanner.Aligned) :
    (text.foldl feed scanner).Aligned := by
  induction text generalizing scanner with
  | nil => exact aligned
  | cons char rest induction => exact induction (aligned_feed aligned char)

/-- Where a literal is closed, nothing waits any more. -/
theorem complete_scan (source : String) : Complete (TokenList.scan source).tokens := by
  have initial : Scanner.initial.Aligned := by
    refine ⟨fun located among => ?_, fun _ _ _ _ mode => by cases mode⟩
    cases among
  have aligned := aligned_foldl source.toList initial
  intro located among raw body
  rw [TokenList.scan, finish, List.mem_append] at among
  rcases among with found | last
  · exact aligned.complete located found raw body
  · cases mode : (source.toList.foldl feed Scanner.initial).mode with
    | gap =>
        rw [mode] at last
        cases last
    | comment =>
        rw [mode] at last
        cases last
    | word reversed start =>
        rw [mode, List.mem_singleton] at last
        rw [last, body?_ofWord] at body
        cases body
    | quoted quote reversed escaped start =>
        rw [mode, List.mem_singleton] at last
        rw [last, body?_token] at body
        cases body

end Scanner

namespace Literal

/-- A byte is always shown, if only by a replacement. -/
theorem shown_ne_empty (byte : UInt8) : shown [byte] ≠ "" := by
  intro same
  have none : Text.Utf8.decodeFrom Option.none [byte] = [] := by
    have chars := congrArg String.toList same
    rw [shown, String.toList_ofList] at chars
    exact chars
  rw [Text.Utf8.decodeFrom] at none
  cases first : Text.Utf8.lead byte with
  | whole char =>
      rw [first] at none
      cases none
  | start pending =>
      rw [first] at none
      cases none
  | invalid =>
      rw [first] at none
      cases none

/-- The error that names nothing but a backslash tells of one at the end. -/
theorem eq_cut_of_flaw {rest : List UInt8} (flaw : Flaw rest (.invalidEscape "\\")) : rest = [0x5C] := by
  generalize named : LiteralError.invalidEscape "\\" = error at flaw
  cases flaw with
  | cut => rfl
  | @unknown letter rest notHex noName =>
      have empty : shown [letter] = "" := by
        have chars := congrArg String.toList (LiteralError.invalidEscape.inj named)
        rw [String.toList_append] at chars
        have none := List.append_cancel_left
          (show "\\".toList ++ [] = "\\".toList ++ (shown [letter]).toList from chars)
        exact String.toList_injective none.symm
      exact absurd empty (shown_ne_empty letter)
  | hex noDigits => cases named

/-- Bodies at whose end nothing waits do not end in a backslash of their own. -/
theorem no_cut_of_waits {raw : String} (complete : waits '\\' raw.toList = false) (units : List EscapeUnit) :
    Text.Utf8.encode raw.toList ≠ units.flatMap EscapeUnit.bytes ++ [0x5C] := by
  intro same
  have waiting : waits 0x5C (units.flatMap EscapeUnit.bytes ++ [0x5C]) = true := by
    have before := waits_units units
    rw [waits] at before ⊢
    rw [List.foldl_append, before]
    rfl
  rw [← same, waits_encode, complete] at waiting
  cases waiting

/--
Bodies of literals are decoded in units. A body that is decoded can be followed by any other, which is then decoded or
refused as if it stood alone. A body is decoded just if it consists of units, and is otherwise refused for the first
place where no unit begins. In a literal that the scanner found closed, this is never a backslash at the end.
-/
theorem escapes_are_read_in_units :
    (∀ (first second : String) (bytes : List UInt8), escapes first = .ok bytes →
      escapes (first ++ second) = (escapes second).map (bytes ++ ·)) ∧
    (∀ (text : String) (decoded : List UInt8), escapes text = .ok decoded ↔
      ∃ units : List EscapeUnit, Text.Utf8.encode text.toList = units.flatMap EscapeUnit.bytes ∧
        decoded = units.map EscapeUnit.value) ∧
    (∀ (text : String) (error : LiteralError), escapes text = .error error ↔
      ∃ (units : List EscapeUnit) (rest : List UInt8),
        Text.Utf8.encode text.toList = units.flatMap EscapeUnit.bytes ++ rest ∧ Flaw rest error) ∧
    ∀ (source raw : String), ∀ located ∈ (TokenList.scan source).tokens,
      located.value = .string raw true ∨ located.value = .numeral (.char raw true) →
        escapes raw ≠ .error (.invalidEscape "\\") ∧
          ∀ units : List EscapeUnit, Text.Utf8.encode raw.toList ≠ units.flatMap EscapeUnit.bytes ++ [0x5C] := by
  refine ⟨fun _ second _ read => escapes_append read second, fun _ _ => decodeBytes_eq_ok_iff _ _,
    fun _ _ => decodeBytes_eq_error_iff _ _, ?_⟩
  intro source raw located among quoted
  have body : located.value.body? = some raw := by
    rcases quoted with same | same
    · rw [same]
      rfl
    · rw [same]
      rfl
  have whole := no_cut_of_waits (Scanner.complete_scan source located among raw body)
  refine ⟨?_, whole⟩
  intro refused
  obtain ⟨units, rest, written, flaw⟩ := (decodeBytes_eq_error_iff _ _).mp refused
  rw [eq_cut_of_flaw flaw] at written
  exact whole units written

/-- Escapes of both lengths before an unknown one, and a literal that ends in an escaped backslash. -/
theorem escapes_are_read_in_units_sample :
    (escapes "\\xe9\\\\" = .ok [0xE9, 0x5C] ∧
        escapes ("\\xe9\\\\" ++ "\\é") = .error (.invalidEscape "\\\uFFFD")) ∧
      (⟨.string "é\\\\" true, ⟨1, 1⟩⟩ : Located Token) ∈ (TokenList.scan "\"é\\\\\";").tokens ∧
        escapes "é\\\\" ≠ .error (.invalidEscape "\\") := by
  obtain ⟨appended, _, _, closed⟩ := escapes_are_read_in_units
  have read : escapes "\\xe9\\\\" = .ok [0xE9, 0x5C] := by decide +kernel
  have refused : escapes "\\é" = .error (.invalidEscape "\\\uFFFD") := by decide +kernel
  have among : (⟨.string "é\\\\" true, ⟨1, 1⟩⟩ : Located Token) ∈ (TokenList.scan "\"é\\\\\";").tokens := by
    decide +kernel
  have whole := appended _ "\\é" _ read
  rw [refused] at whole
  exact ⟨⟨read, whole⟩, among, (closed _ _ _ among (.inl rfl)).1⟩

end Literal

end RingTape
