import CompactingHeap.Proofs.LoadFactor
import Mathlib.Algebra.Order.Field.Basic
import Mathlib.Data.Nat.Cast.Order.Field
import Mathlib.Tactic.Linarith
import Mathlib.Tactic.NormNum
import Mathlib.Tactic.Positivity

/-!
# The high-water mark

Whether much of the slab bytes is in use is decided in 64-bit arithmetic, which rounds both the
bytes in use and the mark that they are compared with.  Rounding moves a number by less than a
small part of it, and the default fraction, rounded to the 32-bit format, lies below 0.7 by more
than that.  So the bytes in use exceed the mark as soon as they are 0.7 of the slab bytes.
-/

namespace CompactingHeap

namespace Binary

/-! ## Numbers that are rounded -/

/-- Rounding a quotient moves it by one at most. -/
theorem nearestEven_near (numerator : Nat) {denominator : Nat} (positive : 0 < denominator) :
    |(nearestEven numerator denominator : ℚ) - numerator / denominator| ≤ 1 := by
  have low : numerator / denominator ≤ nearestEven numerator denominator := by
    unfold nearestEven
    dsimp only
    split_ifs <;> omega
  have high : nearestEven numerator denominator ≤ numerator / denominator + 1 := by
    unfold nearestEven
    dsimp only
    split_ifs <;> omega
  have floor : ((numerator / denominator : Nat) : ℚ) ≤ numerator / denominator := Nat.cast_div_le
  have ceiling : (numerator : ℚ) / denominator < (numerator / denominator : Nat) + 1 := by
    rw [div_lt_iff₀ (by exact_mod_cast positive)]
    exact_mod_cast Nat.lt_mul_of_div_lt (Nat.lt_succ_self _) positive
  have lowest : ((numerator / denominator : Nat) : ℚ) ≤ nearestEven numerator denominator := by
    exact_mod_cast low
  have highest : (nearestEven numerator denominator : ℚ) ≤ (numerator / denominator : Nat) + 1 := by
    exact_mod_cast high
  rw [abs_le]
  constructor <;> linarith

/-- Scaling a quotient divides it by a power of two. -/
theorem scaleDown_value (numerator : Nat) {denominator : Nat} (positive : 0 < denominator)
    (exponent : Int) :
    0 < (scaleDown numerator denominator exponent).2 ∧
      ((scaleDown numerator denominator exponent).1 : ℚ) /
        (scaleDown numerator denominator exponent).2 * 2 ^ exponent = numerator / denominator := by
  have nonzero : (denominator : ℚ) ≠ 0 := by exact_mod_cast positive.ne'
  unfold scaleDown
  split
  · next above =>
    have power : (2 : ℚ) ^ exponent = 2 ^ exponent.toNat := by
      rw [← zpow_natCast, Int.toNat_of_nonneg above]
    refine ⟨Nat.mul_pos positive (Nat.two_pow_pos _), ?_⟩
    push_cast
    rw [power]
    field_simp
  · next below =>
    have power : (2 : ℚ) ^ exponent * 2 ^ (-exponent).toNat = 1 := by
      rw [← zpow_natCast, Int.toNat_of_nonneg (by omega), ← zpow_add₀ two_ne_zero,
        add_neg_cancel, zpow_zero]
    refine ⟨positive, ?_⟩
    push_cast
    rw [div_mul_eq_mul_div, mul_assoc, mul_comm ((2 : ℚ) ^ (-exponent).toNat), power, mul_one]

/-- The exponent at which a quotient would be rounded if the format had no least one, or one
less. -/
def Format.guess (format : Format) (numerator denominator : Nat) : Int :=
  (numerator.log2 : Int) - denominator.log2 - format.precision

variable {format : Format} {numerator denominator : Nat}

theorem Format.exponentOf_bounds
    (low : format.minExponent ≤ format.guess numerator denominator) :
    format.guess numerator denominator ≤ format.exponentOf numerator denominator ∧
      format.exponentOf numerator denominator ≤ format.guess numerator denominator + 1 := by
  unfold Format.guess at low ⊢
  unfold Format.exponentOf
  dsimp only
  split_ifs <;> omega

/-- A quotient is larger than the power of two that the guess leaves. -/
theorem Format.two_pow_guess_lt (positive : 0 < numerator) (nonzero : 0 < denominator) :
    (2 : ℚ) ^ (format.guess numerator denominator + format.precision - 1) <
      numerator / denominator := by
  have low : (2 : ℚ) ^ numerator.log2 ≤ numerator := by
    exact_mod_cast Nat.log2_self_le positive.ne'
  have high : (denominator : ℚ) < 2 ^ (denominator.log2 + 1) := by
    exact_mod_cast Nat.lt_log2_self
  have power : (2 : ℚ) ^ (format.guess numerator denominator + format.precision - 1) *
      2 ^ (denominator.log2 + 1) = 2 ^ numerator.log2 := by
    rw [← zpow_natCast, ← zpow_natCast, ← zpow_add₀ two_ne_zero]
    congr 1
    unfold Format.guess
    push_cast
    ring
  rw [lt_div_iff₀ (by exact_mod_cast nonzero)]
  calc (2 : ℚ) ^ (format.guess numerator denominator + format.precision - 1) * denominator
      < 2 ^ (format.guess numerator denominator + format.precision - 1) *
          2 ^ (denominator.log2 + 1) := mul_lt_mul_of_pos_left high (by positivity)
    _ = 2 ^ numerator.log2 := power
    _ ≤ numerator := low

/-- Rounding moves a quotient of ordinary size by a small part of it. -/
theorem Format.round_near (positive : 0 < numerator) (nonzero : 0 < denominator)
    (low : format.minExponent ≤ format.guess numerator denominator)
    (high : format.guess numerator denominator + 2 ≤ format.maxExponent)
    (precise : 0 < format.precision) :
    ∃ significand exponent,
      format.round false numerator denominator = .finite false significand exponent ∧
        format.guess numerator denominator ≤ exponent ∧
        exponent ≤ format.guess numerator denominator + 2 ∧
        |(significand : ℚ) * 2 ^ exponent - numerator / denominator| ≤
          numerator / denominator * 2 ^ (2 - (format.precision : Int)) := by
  obtain ⟨least, greatest⟩ := format.exponentOf_bounds low
  have large := format.two_pow_guess_lt positive nonzero
  unfold Format.round
  rw [if_neg positive.ne']
  dsimp only
  generalize format.exponentOf numerator denominator = exponent at least greatest ⊢
  obtain ⟨scale, value⟩ := scaleDown_value numerator nonzero exponent
  generalize scaleDown numerator denominator exponent = scaled at scale value ⊢
  have near := nearestEven_near scaled.1 scale
  generalize nearestEven scaled.1 scaled.2 = significand at near ⊢
  have unit : (2 : ℚ) ^ exponent ≤
      numerator / denominator * 2 ^ (2 - (format.precision : Int)) := by
    calc (2 : ℚ) ^ exponent
        ≤ 2 ^ (format.guess numerator denominator + 1) :=
          zpow_le_zpow_right₀ one_le_two greatest
      _ = 2 ^ (format.guess numerator denominator + format.precision - 1) *
            2 ^ (2 - (format.precision : Int)) := by
          rw [← zpow_add₀ two_ne_zero]
          congr 1
          ring
      _ ≤ numerator / denominator * 2 ^ (2 - (format.precision : Int)) :=
          mul_le_mul_of_nonneg_right large.le (by positivity)
  have close : |(significand : ℚ) * 2 ^ exponent - numerator / denominator| ≤
      numerator / denominator * 2 ^ (2 - (format.precision : Int)) := by
    rw [← value, ← sub_mul, abs_mul, abs_of_pos (by positivity : (0 : ℚ) < 2 ^ exponent), value]
    calc |(significand : ℚ) - scaled.1 / scaled.2| * 2 ^ exponent
        ≤ 1 * 2 ^ exponent := mul_le_mul_of_nonneg_right near (by positivity)
      _ ≤ numerator / denominator * 2 ^ (2 - (format.precision : Int)) := by rwa [one_mul]
  by_cases carried : significand = 2 ^ format.precision
  · rw [if_pos carried, if_pos carried, if_neg (by omega)]
    refine ⟨_, _, rfl, by omega, by omega, ?_⟩
    have same : ((2 ^ (format.precision - 1) : Nat) : ℚ) * 2 ^ (exponent + 1) =
        significand * 2 ^ exponent := by
      rw [carried, zpow_add₀ two_ne_zero, ← Nat.sub_add_cancel precise]
      push_cast
      ring
    rw [same]
    exact close
  · rw [if_neg carried, if_neg carried, if_neg (by omega)]
    exact ⟨_, _, rfl, by omega, by omega, close⟩

/-- Rounding a number of ordinary size moves it by a small part of it. -/
theorem Format.roundScaled_near {significand : Nat} {exponent : Int} (positive : 0 < significand)
    (low : format.minExponent ≤ significand.log2 + exponent - format.precision)
    (high : significand.log2 + exponent - format.precision + 2 ≤ format.maxExponent)
    (precise : 0 < format.precision) :
    ∃ rounded power, format.roundScaled false significand exponent = .finite false rounded power ∧
      |(rounded : ℚ) * 2 ^ power - significand * 2 ^ exponent| ≤
        significand * 2 ^ exponent * 2 ^ (2 - (format.precision : Int)) := by
  unfold Format.roundScaled
  split
  · next above =>
    have guess : format.guess (significand * 2 ^ exponent.toNat) 1 =
        significand.log2 + exponent - format.precision := by
      rw [Format.guess, log2_mul_two_pow positive, show Nat.log2 1 = 0 from rfl]
      omega
    have value : ((significand * 2 ^ exponent.toNat : Nat) : ℚ) / (1 : Nat) =
        significand * 2 ^ exponent := by
      conv_rhs => rw [← Int.toNat_of_nonneg above, zpow_natCast]
      simp
    rw [← guess] at low high
    obtain ⟨rounded, power, rounds, _, _, near⟩ := format.round_near
      (Nat.mul_pos positive (Nat.two_pow_pos _)) Nat.one_pos low high precise
    rw [value] at near
    exact ⟨rounded, power, rounds, near⟩
  · next below =>
    have guess : format.guess significand (2 ^ (-exponent).toNat) =
        significand.log2 + exponent - format.precision := by
      rw [Format.guess, Nat.log2_two_pow]
      omega
    have value : (significand : ℚ) / (2 ^ (-exponent).toNat : Nat) =
        significand * 2 ^ exponent := by
      have power : (2 : ℚ) ^ (-exponent).toNat = (2 ^ exponent)⁻¹ := by
        rw [← zpow_natCast, Int.toNat_of_nonneg (by omega), zpow_neg]
      push_cast
      rw [power, div_inv_eq_mul]
    rw [← guess] at low high
    obtain ⟨rounded, power, rounds, _, _, near⟩ :=
      format.round_near positive (Nat.two_pow_pos _) low high precise
    rw [value] at near
    exact ⟨rounded, power, rounds, near⟩

/-- A word, rounded to the 64-bit format. -/
theorem double_ofNat_near {number : Nat} (positive : 0 < number) (word : number < wordLimit) :
    ∃ significand exponent, Format.double.ofNat number = .finite false significand exponent ∧
      0 < significand ∧ significand.log2 < 128 ∧ -53 ≤ exponent ∧ exponent ≤ 12 ∧
        |(significand : ℚ) * 2 ^ exponent - number| ≤ number / 2 ^ 51 := by
  have bits : number.log2 < 64 := (Nat.log2_lt positive.ne').mpr word
  have guess : Format.double.guess number 1 = number.log2 - 53 := by
    change (number.log2 : Int) - (0 : Nat) - (53 : Nat) = _
    omega
  have low : Format.double.minExponent ≤ Format.double.guess number 1 := by
    change -1074 ≤ _
    omega
  have high : Format.double.guess number 1 + 2 ≤ Format.double.maxExponent := by
    change _ ≤ 971
    omega
  obtain ⟨significand, exponent, rounds, least, greatest, near⟩ :=
    Format.double.round_near positive Nat.one_pos low high (by decide)
  rw [guess] at least greatest
  have small : (number : ℚ) / (1 : Nat) * 2 ^ (2 - (Format.double.precision : Int)) =
      number / 2 ^ 51 := by
    rw [Nat.cast_one, div_one, div_eq_mul_inv, Format.double]
    norm_num
  rw [small, Nat.cast_one, div_one] at near
  have least' : (1 : ℚ) ≤ number := by exact_mod_cast positive
  have most : (number : ℚ) < 2 ^ 64 := by exact_mod_cast word
  obtain ⟨below, above⟩ := abs_le.mp near
  refine ⟨significand, exponent, rounds, ?_, ?_, by omega, by omega, near⟩
  · apply Nat.pos_of_ne_zero
    rintro rfl
    rw [Nat.cast_zero, zero_mul] at below
    linarith
  · have power : (2 : ℚ) ^ (-53 : Int) ≤ 2 ^ exponent := zpow_le_zpow_right₀ one_le_two (by omega)
    have product : (significand : ℚ) * 2 ^ (-53 : Int) ≤ significand * 2 ^ exponent :=
      mul_le_mul_of_nonneg_left power (Nat.cast_nonneg _)
    have small : (significand : ℚ) < 2 ^ 128 := by
      norm_num at product
      linarith
    rw [Nat.log2_lt (by rintro rfl; rw [Nat.cast_zero, zero_mul] at below; linarith)]
    exact_mod_cast small

/-- The product of two numbers that are not negative, rounded to the 64-bit format. -/
theorem double_mul_near {first second : Nat} {firstExponent secondExponent : Int}
    (positive : 0 < first * second)
    (low : -1021 ≤ (first * second).log2 + (firstExponent + secondExponent))
    (high : (first * second).log2 + (firstExponent + secondExponent) ≤ 1022) :
    ∃ rounded power, Format.double.mul (.finite false first firstExponent)
        (.finite false second secondExponent) = .finite false rounded power ∧
      (rounded : ℚ) * 2 ^ power ≤
        first * 2 ^ firstExponent * (second * 2 ^ secondExponent) * (1 + 1 / 2 ^ 51) := by
  have lowest : Format.double.minExponent ≤ (first * second).log2 +
      (firstExponent + secondExponent) - Format.double.precision := by
    change -1074 ≤ _ - ((53 : Nat) : Int)
    omega
  have highest : (first * second).log2 + (firstExponent + secondExponent) -
      Format.double.precision + 2 ≤ Format.double.maxExponent := by
    change _ - ((53 : Nat) : Int) + 2 ≤ 971
    omega
  obtain ⟨rounded, power, rounds, near⟩ :=
    Format.double.roundScaled_near positive lowest highest (by decide)
  refine ⟨rounded, power, rounds, ?_⟩
  have value : ((first * second : Nat) : ℚ) * 2 ^ (firstExponent + secondExponent) =
      first * 2 ^ firstExponent * (second * 2 ^ secondExponent) := by
    rw [zpow_add₀ two_ne_zero]
    push_cast
    ring
  have small : (2 : ℚ) ^ (2 - (Format.double.precision : Int)) = 1 / 2 ^ 51 := by
    change (2 : ℚ) ^ (2 - ((53 : Nat) : Int)) = _
    norm_num
  rw [value, small] at near
  have above := (abs_le.mp near).2
  linarith

end Binary

namespace Config

open Binary

/-- The fraction of the slab bytes above which a heap collects unless it is told otherwise, in the
64-bit format. -/
theorem highWater_default :
    Format.double.convert ({} : Config).highWater = .finite false (11744051 * 2 ^ 29) (-53) := by
  decide +kernel

/-- As soon as 0.7 of the slab bytes are in use, they exceed the default mark. -/
theorem aboveHighWater_of_le {config : Config}
    (standard : config.highWater = ({} : Config).highWater) {used total : Nat}
    (positive : 0 < total) (usedWord : used < wordLimit) (totalWord : total < wordLimit)
    (much : 7 * total ≤ 10 * used) :
    config.aboveHighWater used total = true := by
  have usedPositive : 0 < used := by omega
  obtain ⟨digits, power, totalRounds, significant, bits, _, _, totalNear⟩ :=
    double_ofNat_near positive totalWord
  obtain ⟨usedDigits, usedPower, usedRounds, _, _, _, _, usedNear⟩ :=
    double_ofNat_near usedPositive usedWord
  have product : 0 < 11744051 * 2 ^ 29 * digits := by omega
  have productBits : (11744051 * 2 ^ 29 * digits).log2 < 181 := by
    rw [Nat.log2_lt product.ne']
    have bound := (Nat.log2_lt significant.ne').mp bits
    omega
  have low : -1021 ≤ (11744051 * 2 ^ 29 * digits).log2 + (-53 + power) := by omega
  have high : (11744051 * 2 ^ 29 * digits).log2 + (-53 + power) ≤ 1022 := by omega
  obtain ⟨markDigits, markPower, markRounds, markBelow⟩ := double_mul_near product low high
  unfold aboveHighWater
  dsimp only
  rw [standard, highWater_default, totalRounds, usedRounds, markRounds, lt_finite_iff, toRat_finite,
    toRat_finite]
  have most : (7 : ℚ) * total ≤ 10 * used := by exact_mod_cast much
  have some : (0 : ℚ) < total := by exact_mod_cast positive
  have totalAbove := (abs_le.mp totalNear).2
  have usedBelow := (abs_le.mp usedNear).1
  norm_num at markBelow totalAbove usedBelow
  linarith

end Config

end CompactingHeap
