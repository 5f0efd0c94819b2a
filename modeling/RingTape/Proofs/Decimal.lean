import Mathlib
import RingTape.Text.Digit

/-!
Decimal digits. The digits written of a natural number spell it, and begin with a zero only when that is all
there is; the text of a register value is the digits of its size, after a minus sign when it is negative.
-/

namespace RingTape

set_option autoImplicit false

/-- There are ten digits. -/
theorem exists_digit {char : Char} (digit : char.isDigit = true) : ∃ value < 10, char = Char.ofNat (48 + value) := by
  simp only [Char.isDigit, Bool.and_eq_true, decide_eq_true_eq] at digit
  have lower : 48 ≤ char.toNat := UInt32.le_iff_toNat_le.mp digit.1
  have upper : char.toNat ≤ 57 := UInt32.le_iff_toNat_le.mp digit.2
  exact ⟨char.toNat - 48, by omega, by rw [Nat.add_sub_cancel' lower, Char.ofNat_toNat]⟩

theorem digit?_of_isDigit {char : Char} (digit : char.isDigit = true) :
    Text.digit? 10 char = some (char.toNat - '0'.toNat) := by
  obtain ⟨value, small, rfl⟩ := exists_digit digit
  interval_cases value <;> cbv

theorem valueOf_eq {digits : List Char} (decimal : ∀ char ∈ digits, char.isDigit = true) :
    Text.valueOf 10 digits = Nat.ofDigitChars 10 digits 0 := by
  have same (value : Nat) : digits.foldl (fun value char => value * 10 + (Text.digit? 10 char).getD 0) value =
      Nat.ofDigitChars 10 digits value := by
    induction digits generalizing value with
    | nil => rfl
    | cons char rest induction =>
        rw [List.foldl_cons, induction fun other among => decimal other (List.mem_cons_of_mem _ among),
          Nat.ofDigitChars_cons, digit?_of_isDigit (decimal char List.mem_cons_self), Option.getD_some, Nat.mul_comm]
  exact same 0

theorem isDigit_of_mem_decimalDigits {number : Nat} :
    ∀ char ∈ decimalDigits number, char.isDigit = true :=
  fun _ among => Nat.isDigit_of_mem_toDigits (by decide) (by decide) among

theorem decimalDigits_ne_nil (number : Nat) : decimalDigits number ≠ [] :=
  Nat.toDigits_ne_nil

theorem isDigit_ten_of_mem_decimalDigits {number : Nat} :
    ∀ char ∈ decimalDigits number, Text.isDigit 10 char = true := by
  intro char among
  rw [Text.isDigit, digit?_of_isDigit (isDigit_of_mem_decimalDigits char among), Option.isSome_some]

theorem valueOf_decimalDigits (number : Nat) : Text.valueOf 10 (decimalDigits number) = number := by
  rw [valueOf_eq isDigit_of_mem_decimalDigits]
  exact Nat.ofDigitChars_toDigits (by decide) (by decide)

theorem head_decimalDigits {number : Nat} (positive : number ≠ 0) : (decimalDigits number).head? ≠ some '0' := by
  induction number using Nat.strongRecOn with
  | ind number induction =>
      rw [decimalDigits]
      by_cases small : number < 10
      · rw [Nat.toDigits_of_lt_base small]
        interval_cases number
        · exact absurd rfl positive
        all_goals decide
      · have less : number / 10 < number := Nat.div_lt_self (by omega) (by decide)
        have further := induction (number / 10) less (by omega)
        rw [Nat.toDigits_of_base_le (by decide) (by omega), List.head?_append_of_ne_nil _ Nat.toDigits_ne_nil]
        exact further

theorem Num.toInt_of_ofInt? {exact : Int} {value : Num} (fits : ofInt? exact = some value) : value.toInt = exact := by
  unfold ofInt? least greatest at fits
  split at fits
  · cases fits
    exact Int64.toInt_ofInt_of_le (by omega) (by omega)
  · cases fits

/-- A number that is not negative is written in digits, and its value is that of the digits. -/
theorem text_of_natural {value : Num} (natural : 0 ≤ value.toInt) :
    ∃ number : Nat, value.text = String.ofList (decimalDigits number) ∧ Num.ofInt? number = some value := by
  obtain ⟨number, same⟩ := Int.eq_ofNat_of_zero_le natural
  have bounded : Num.least ≤ value.toInt ∧ value.toInt ≤ Num.greatest :=
    ⟨Int64.le_toInt value, Int64.toInt_le value⟩
  rw [same] at bounded
  refine ⟨number, ?_, ?_⟩
  · rw [Num.text, same]
    rfl
  · rw [Num.ofInt?, if_pos bounded, ← same, Int64.ofInt_toInt]

/-- A negative number is written as a minus sign and the digits of its size, which is not zero. -/
theorem text_of_negative {value : Num} (negative : value.toInt < 0) :
    ∃ number : Nat, number ≠ 0 ∧ value.text = String.ofList ('-' :: decimalDigits number) ∧
      Num.ofInt? (-number) = some value := by
  obtain ⟨number, same⟩ := Int.eq_negSucc_of_lt_zero negative
  have bounded : Num.least ≤ value.toInt ∧ value.toInt ≤ Num.greatest :=
    ⟨Int64.le_toInt value, Int64.toInt_le value⟩
  have size : -((number + 1 : Nat) : Int) = value.toInt := same.symm
  refine ⟨number + 1, Nat.succ_ne_zero number, ?_, ?_⟩
  · rw [Num.text, same]
    rfl
  · rw [size, Num.ofInt?, if_pos bounded, Int64.ofInt_toInt]

end RingTape
