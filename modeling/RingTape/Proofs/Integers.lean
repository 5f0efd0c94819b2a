import RingTape.Proofs.Constants
import RingTape.Proofs.Spelling

/-!
Integer literals. A literal is digits, or a zero and a small letter for the radix before digits of that radix; the
digits may be of either case and begin with zeros. Exactly these texts are accepted, if the number that the digits
denote is not too large for a register, and the number is what is read. So no number of a program is negative, and a
number that is written in decimal is read back.
-/

namespace RingTape

set_option autoImplicit false

/-- The letters that mark a radix. -/
def radixMarks : List (Char × Nat) :=
  [('b', 2), ('o', 8), ('d', 10), ('x', 16)]

/-- The text consists of at least one digit of the radix, and the digits denote the number. -/
def WrittenIn (radix : Nat) (text : List Char) (number : Nat) : Prop :=
  ∃ digits : List HexDigit, digits ≠ [] ∧ (∀ digit ∈ digits, digit.value.val < radix) ∧
    text = digits.map HexDigit.char ∧ number = Nat.ofDigits radix (digits.reverse.map fun digit => digit.value.val)

/-- The texts of integer literals, with the number that each of them stands for. -/
inductive IntegerLiteral : List Char → Nat → Prop where
  | decimal {text : List Char} {number : Nat} (digits : WrittenIn 10 text number) : IntegerLiteral text number
  | marked {mark : Char} {radix number : Nat} {text : List Char} (known : (mark, radix) ∈ radixMarks)
      (digits : WrittenIn radix text number) : IntegerLiteral ('0' :: mark :: text) number

section Digits

variable {radix : Nat}

theorem valueOf_chars {digits : List HexDigit} (small : ∀ digit ∈ digits, digit.value.val < radix) :
    Text.valueOf radix (digits.map HexDigit.char) =
      Nat.ofDigits radix (digits.reverse.map fun digit => digit.value.val) := by
  have same (value : Nat) : (digits.map HexDigit.char).foldl
      (fun value char => value * radix + (Text.digit? radix char).getD 0) value =
        digits.foldl (fun value digit => digit.value.val + radix * value) value := by
    induction digits generalizing value with
    | nil => rfl
    | cons digit rest induction =>
        have here := digit.digit?_char (small digit List.mem_cons_self)
        rw [List.map_cons, List.foldl_cons, List.foldl_cons, here, Option.getD_some, Nat.mul_comm, Nat.add_comm]
        exact induction (fun other among => small other (List.mem_cons_of_mem _ among)) _
  rw [Nat.ofDigits_eq_foldr, List.foldr_map, List.foldr_reverse]
  exact same 0

theorem exists_digits {text : List Char} (all : ∀ char ∈ text, Text.isDigit radix char = true) :
    ∃ digits : List HexDigit, text = digits.map HexDigit.char ∧ ∀ digit ∈ digits, digit.value.val < radix := by
  induction text with
  | nil => exact ⟨[], rfl, by simp⟩
  | cons char rest induction =>
      obtain ⟨digits, others, small⟩ := induction fun other among => all other (List.mem_cons_of_mem _ among)
      obtain ⟨value, found⟩ := Option.isSome_iff_exists.mp (all char List.mem_cons_self)
      obtain ⟨less, digit, same, number⟩ := exists_hexDigit found
      refine ⟨digit :: digits, ?_, List.forall_mem_cons.mpr ⟨number ▸ less, small⟩⟩
      rw [List.map_cons, same, ← others]

/-- The digits of a radix are recognised one by one, and the number is added up from the first to the last. -/
theorem writtenIn_iff (text : List Char) (number : Nat) :
    WrittenIn radix text number ↔
      text ≠ [] ∧ (∀ char ∈ text, Text.isDigit radix char = true) ∧ Text.valueOf radix text = number := by
  constructor
  · intro written
    obtain ⟨digits, filled, small, rfl, rfl⟩ := written
    refine ⟨by simpa using filled, ?_, valueOf_chars small⟩
    intro char among
    obtain ⟨digit, inside, rfl⟩ := List.mem_map.mp among
    rw [Text.isDigit, digit.digit?_char (small digit inside), Option.isSome_some]
  · intro written
    obtain ⟨digits, rfl, small⟩ := exists_digits written.2.1
    exact ⟨digits, by simpa using written.1, small, rfl, by rw [← written.2.2, valueOf_chars small]⟩

end Digits

section Marks

theorem isDigit_mark {mark : Char} {radix : Nat} (known : (mark, radix) ∈ radixMarks) :
    Text.isDigit 10 mark = false := by
  have all : ∀ pair ∈ radixMarks, Text.isDigit 10 pair.1 = false := by decide
  exact all _ known

theorem radixOf_marked {mark : Char} {radix : Nat} (known : (mark, radix) ∈ radixMarks) {text : List Char}
    (filled : text ≠ []) : Literal.radixOf ('0' :: mark :: text) = (radix, text) := by
  cases text with
  | nil => exact absurd rfl filled
  | cons digit digits =>
      simp only [radixMarks, List.mem_cons, Prod.mk.injEq, List.not_mem_nil, or_false] at known
      rcases known with ⟨rfl, rfl⟩ | ⟨rfl, rfl⟩ | ⟨rfl, rfl⟩ | ⟨rfl, rfl⟩ <;> rfl

/-- A text that does not begin with a mark, or has nothing behind it, is taken as it is. -/
theorem radixOf_cases (text : List Char) :
    (∃ mark radix digits, (mark, radix) ∈ radixMarks ∧ digits ≠ [] ∧ text = '0' :: mark :: digits) ∨
      Literal.radixOf text = (10, text) := by
  unfold Literal.radixOf
  split
  · exact .inl ⟨'b', 2, _, by decide, by simp, rfl⟩
  · exact .inl ⟨'o', 8, _, by decide, by simp, rfl⟩
  · exact .inl ⟨'d', 10, _, by decide, by simp, rfl⟩
  · exact .inl ⟨'x', 16, _, by decide, by simp, rfl⟩
  · exact .inr rfl

theorem WrittenIn.ne_nil {radix number : Nat} {text : List Char} (written : WrittenIn radix text number) : text ≠ [] :=
  ((writtenIn_iff text number).mp written).1

/-- The radix is found before the digits are looked at, and no other reading of the text would do. -/
theorem integerLiteral_iff (text : List Char) (number : Nat) :
    IntegerLiteral text number ↔ WrittenIn (Literal.radixOf text).1 (Literal.radixOf text).2 number := by
  constructor
  · intro literal
    cases literal with
    | decimal digits =>
        rcases radixOf_cases text with ⟨mark, radix, rest, known, _, rfl⟩ | plain
        · have digit := ((writtenIn_iff _ number).mp digits).2.1 mark (by simp)
          rw [isDigit_mark known] at digit
          cases digit
        · rw [plain]
          exact digits
    | marked known digits =>
        rw [radixOf_marked known digits.ne_nil]
        exact digits
  · intro digits
    rcases radixOf_cases text with ⟨mark, radix, rest, known, filled, rfl⟩ | plain
    · rw [radixOf_marked known filled] at digits
      exact .marked known digits
    · rw [plain] at digits
      exact .decimal digits

end Marks

namespace Literal

theorem number_unique {text : List Char} {number other : Nat} (literal : IntegerLiteral text number)
    (literal' : IntegerLiteral text other) : number = other := by
  rw [integerLiteral_iff, writtenIn_iff] at literal literal'
  rw [← literal.2.2, literal'.2.2]

/-- A literal whose number fits is read as this number, and any other text is refused. -/
theorem integer_cases (text : String) :
    (∃ number : Nat, IntegerLiteral text.toList number ∧ (number : Int) ≤ Num.greatest ∧
        ∃ value : Num, integer text = .ok value ∧ value.toInt = number) ∨
      (∀ number : Nat, IntegerLiteral text.toList number → Num.greatest < number) ∧
        integer text = .error (.invalidInteger text) := by
  have literal (number : Nat) := integerLiteral_iff text.toList number
  simp only [writtenIn_iff] at literal
  unfold integer
  generalize radixOf text.toList = form at literal ⊢
  by_cases digits : form.2 ≠ [] ∧ ∀ char ∈ form.2, Text.isDigit form.1 char = true
  · have accepted : (!form.2.isEmpty && form.2.all (Text.isDigit form.1)) = true := by simpa using digits
    by_cases fits : (Text.valueOf form.1 form.2 : Int) ≤ Num.greatest
    · have within : Num.least ≤ (Text.valueOf form.1 form.2 : Int) :=
        Int.le_trans (by decide) (Int.natCast_nonneg _)
      have found : Num.ofInt? (Text.valueOf form.1 form.2) = some (Int64.ofInt (Text.valueOf form.1 form.2)) :=
        if_pos ⟨within, fits⟩
      refine .inl ⟨_, (literal _).mpr ⟨digits.1, digits.2, rfl⟩, fits, _, ?_, Num.toInt_of_ofInt? found⟩
      simp only [accepted, if_true, found]
    · have none : Num.ofInt? (Text.valueOf form.1 form.2) = none := if_neg fun within => fits within.2
      refine .inr ⟨?_, ?_⟩
      · intro number written
        rw [← ((literal number).mp written).2.2]
        exact Int.not_le.mp fits
      · simp only [accepted, if_true, none]
  · have refused : (!form.2.isEmpty && form.2.all (Text.isDigit form.1)) = false := by
      rw [← Bool.not_eq_true]
      simpa using digits
    refine .inr ⟨?_, ?_⟩
    · intro number written
      have spelled := (literal number).mp written
      exact absurd ⟨spelled.1, spelled.2.1⟩ digits
    · simp only [refused, Bool.false_eq_true, if_false]

theorem integer_eq_ok_iff (text : String) (value : Num) :
    integer text = .ok value ↔
      ∃ number : Nat, IntegerLiteral text.toList number ∧ (number : Int) ≤ Num.greatest ∧ value.toInt = number := by
  rcases integer_cases text with ⟨number, literal, fits, found, read, exact⟩ | ⟨large, refused⟩
  · constructor
    · intro same
      cases read.symm.trans same
      exact ⟨number, literal, fits, exact⟩
    · intro written
      obtain ⟨other, literal', _, exact'⟩ := written
      have same : found = value := by
        rw [← Int64.toInt_inj, exact, exact', number_unique literal literal']
      rw [read, same]
  · constructor
    · intro accepted
      cases refused.symm.trans accepted
    · intro written
      obtain ⟨number, literal, fits, _⟩ := written
      exact absurd fits (Int.not_le.mpr (large number literal))

/-- A number that is not negative is read from its decimal text. -/
theorem integer_text {value : Num} (natural : 0 ≤ value.toInt) : integer value.text = .ok value := by
  obtain ⟨number, text, fits⟩ := text_of_natural natural
  rw [text]
  exact integer_decimalDigits fits

/--
Integer literals are accepted exactly if they are written as such and their number fits, and are read as this number;
any other text is refused as it stands. Hence no number of a program that was read is negative, and a decimal text is
read back.
-/
theorem integers_are_what_is_written :
    (∀ (text : String) (value : Num), integer text = .ok value ↔
      ∃ number : Nat, IntegerLiteral text.toList number ∧ (number : Int) ≤ Num.greatest ∧ value.toInt = number) ∧
    (∀ text : String, (¬ ∃ number : Nat, IntegerLiteral text.toList number ∧ (number : Int) ≤ Num.greatest) →
      integer text = .error (.invalidInteger text)) ∧
    (∀ (source : String) (draft : Draft), source.utf8ByteSize < 2 ^ 63 → Draft.read source = .ok draft →
      draft.Natural) ∧
    ∀ value : Num, 0 ≤ value.toInt → integer value.text = .ok value := by
  refine ⟨integer_eq_ok_iff, ?_, ?_, ?_⟩
  · intro text unwritten
    rcases integer_cases text with ⟨number, literal, fits, _⟩ | ⟨_, refused⟩
    · exact absurd ⟨number, literal, fits⟩ unwritten
    · exact refused
  · intro source draft short read
    exact Draft.natural_of_read short read
  · intro value natural
    exact integer_text natural

/-- The first number that is too large, digits of both cases, a program with numbers of all kinds, and the greatest. -/
theorem integers_are_what_is_written_sample :
    ((¬ ∃ number : Nat, IntegerLiteral "0x8000000000000000".toList number ∧ (number : Int) ≤ Num.greatest) ∧
        integer "0x8000000000000000" = .error (.invalidInteger "0x8000000000000000")) ∧
      (IntegerLiteral "0x0fF".toList 255 ∧ integer "0x0fF" = .ok 255) ∧
      (Draft.sampleText.utf8ByteSize < 2 ^ 63 ∧ Draft.read Draft.sampleText = .ok Draft.sampleDraft ∧
        Draft.sampleDraft.Natural) ∧
      0 ≤ Int64.maxValue.toInt ∧ integer (Num.text Int64.maxValue) = .ok Int64.maxValue := by
  obtain ⟨accepted, refused, natural, back⟩ := integers_are_what_is_written
  have large : ¬ ∃ number : Nat, IntegerLiteral "0x8000000000000000".toList number ∧ (number : Int) ≤ Num.greatest := by
    intro written
    obtain ⟨number, literal, fits⟩ := written
    have value := ((writtenIn_iff _ number).mp ((integerLiteral_iff _ number).mp literal)).2.2
    rw [← value] at fits
    exact absurd fits (by decide +kernel)
  have mixed : IntegerLiteral "0x0fF".toList 255 :=
    .marked (show ('x', 16) ∈ radixMarks by decide)
      ⟨[⟨0, false⟩, ⟨15, false⟩, ⟨15, true⟩], by decide, by decide, by decide, by decide⟩
  have short : Draft.sampleText.utf8ByteSize < 2 ^ 63 := by decide +kernel
  have read : Draft.read Draft.sampleText = .ok Draft.sampleDraft := by cbv
  exact ⟨⟨large, refused _ large⟩, ⟨mixed, (accepted _ _).mpr ⟨255, mixed, by decide, rfl⟩⟩,
    ⟨short, read, natural _ _ short read⟩, by decide, back _ (by decide)⟩

end Literal

end RingTape
