import Mathlib.Data.Int.ModEq
import RingTape.Proofs.BelowTop

/-!
What the accumulator holds after each of the arithmetic operations. Sums and products are kept modulo `2 ^ 64`.
A difference is exact or refused. A quotient and a remainder are those of division toward zero, and exact but
for the one quotient that is too large by one.
-/

namespace RingTape

set_option autoImplicit false

namespace Arithmetic

/-- Division toward zero: what is left over is smaller than the divisor, and 0 or of the sign of the dividend. -/
structure Divides (dividend divisor quotient remainder : Int) : Prop where
  exact : dividend = quotient * divisor + remainder
  smaller : |remainder| < |divisor|
  sign : remainder = 0 ∨ remainder.sign = dividend.sign

theorem divides_tdiv_tmod (dividend : Int) {divisor : Int} (nonzero : divisor ≠ 0) :
    Divides dividend divisor (dividend.tdiv divisor) (dividend.tmod divisor) where
  exact := by
    rw [Int.mul_comm, Int.mul_tdiv_add_tmod]
  smaller := by
    have bounded : dividend.natAbs % divisor.natAbs < divisor.natAbs :=
      Nat.mod_lt _ (Int.natAbs_pos.mpr nonzero)
    rw [← Int.natAbs_tmod] at bounded
    rw [Int.abs_eq_natAbs, Int.abs_eq_natAbs]
    exact Int.ofNat_lt.mpr bounded
  sign := by
    by_cases even : divisor ∣ dividend
    · exact .inl (Int.tmod_eq_zero_of_dvd even)
    · exact .inr (by rw [Int.sign_tmod, if_neg even])

/-- The quotient of two numbers is a number again, unless the least one is divided by -1. -/
theorem toInt_quotient {dividend divisor : Num} (ordinary : ¬ (dividend = Int64.minValue ∧ divisor = -1)) :
    (dividend / divisor).toInt = dividend.toInt.tdiv divisor.toInt := by
  by_cases least : dividend = Int64.minValue
  · exact Int64.toInt_div_of_ne_right dividend divisor fun negative => ordinary ⟨least, negative⟩
  · exact Int64.toInt_div_of_ne_left dividend divisor least

/-- What is kept of an integer agrees with it modulo `2 ^ 64`. -/
theorem bmod_modEq (exact : Int) : exact.bmod (2 ^ 64) ≡ exact [ZMOD 2 ^ 64] := by
  rw [Int.ModEq]
  exact Int.bmod_emod

/-- What each operation makes of two numbers. -/
structure Lawful (accumulator operand : Num) : Prop where
  sum : ∃ value, add.apply accumulator operand = .ok value ∧
    value.toInt ≡ accumulator.toInt + operand.toInt [ZMOD 2 ^ 64]
  product : ∃ value, multiply.apply accumulator operand = .ok value ∧
    value.toInt ≡ accumulator.toInt * operand.toInt [ZMOD 2 ^ 64]
  /-- A difference from 0 to the greatest number is exact, and any other is refused. -/
  difference : 0 ≤ accumulator.toInt - operand.toInt ∧ accumulator.toInt - operand.toInt ≤ Num.greatest →
    ∃ value, subtract.apply accumulator operand = .ok value ∧ value.toInt = accumulator.toInt - operand.toInt
  refusal : ¬ (0 ≤ accumulator.toInt - operand.toInt ∧ accumulator.toInt - operand.toInt ≤ Num.greatest) →
    subtract.apply accumulator operand = .error (.negativeDifference accumulator operand)
  byZero : operand = 0 → divide.apply accumulator operand = .error (.divisionByZero accumulator) ∧
    remainder.apply accumulator operand = .error (.remainderByZero accumulator)
  division : operand ≠ 0 → ¬ (accumulator = Int64.minValue ∧ operand = -1) →
    ∃ whole left, divide.apply accumulator operand = .ok whole ∧ remainder.apply accumulator operand = .ok left ∧
      Divides accumulator.toInt operand.toInt whole.toInt left.toInt
  /-- The one quotient that is too large for a number. -/
  overflow : accumulator = Int64.minValue ∧ operand = -1 →
    divide.apply accumulator operand = .ok Int64.minValue ∧ remainder.apply accumulator operand = .ok 0
  /-- The operations with the operand on the left, and their refusals. -/
  exchanged : subtractFrom.apply accumulator operand = subtract.apply operand accumulator ∧
    divideFrom.apply accumulator operand = divide.apply operand accumulator ∧
    remainderFrom.apply accumulator operand = remainder.apply operand accumulator

theorem results_are_exact_or_wrapped (accumulator operand : Num) : Lawful accumulator operand where
  sum := by
    refine ⟨accumulator + operand, rfl, ?_⟩
    rw [Int64.toInt_add]
    exact bmod_modEq _
  product := by
    refine ⟨accumulator * operand, rfl, ?_⟩
    rw [Int64.toInt_mul]
    exact bmod_modEq _
  difference := by
    intro inside
    refine ⟨Int64.ofInt (accumulator.toInt - operand.toInt), ?_, ?_⟩
    · rw [apply, difference_eq, if_pos inside]
    · unfold Num.greatest at inside
      exact Int64.toInt_ofInt_of_le (by omega) (by omega)
  refusal := by
    intro outside
    rw [apply, difference_eq, if_neg outside]
  byZero := by
    intro zero
    exact ⟨quotient_eq_error_iff.mpr ⟨zero, rfl⟩, modulus_eq_error_iff.mpr ⟨zero, rfl⟩⟩
  division := by
    intro nonzero ordinary
    refine ⟨accumulator / operand, accumulator % operand, ?_, ?_, ?_⟩
    · rw [apply, quotient, if_neg nonzero]
    · rw [apply, modulus, if_neg nonzero]
    · rw [toInt_quotient ordinary, Int64.toInt_mod]
      apply divides_tdiv_tmod
      intro zero
      exact nonzero (Int64.toInt_inj.mp zero)
  overflow := by
    rintro ⟨rfl, rfl⟩
    exact ⟨rfl, rfl⟩
  exchanged := ⟨rfl, rfl, rfl⟩

/-- The corner values, where the operations differ most. -/
example : subtract.apply Int64.maxValue (-1) = .error (.negativeDifference Int64.maxValue (-1)) ∧
    divideFrom.apply (-2) 7 = .ok (-3) ∧ remainderFrom.apply (-2) 7 = .ok 1 ∧
    remainder.apply (-7) 2 = .ok (-1) := by
  decide

end Arithmetic

end RingTape
