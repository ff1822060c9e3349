import CompactingHeap.Config
import Mathlib.Algebra.Order.Field.Basic
import Mathlib.Algebra.Order.Field.Power
import Mathlib.Data.Rat.Cast.Order
import Mathlib.Tactic.FieldSimp
import Mathlib.Tactic.Ring

/-!
# The load factor

Whether a table grows is decided in 32-bit arithmetic, which rounds the number of entries and its
bound.  A power of two is not rounded, and its product with a number of the format is not either
unless it leaves the range of the format.  So a table whose last vacant bucket is about to be
filled always grows, for every load factor below one.
-/

namespace CompactingHeap

namespace Binary

/-! ## Values -/

/-- The value of a finite number. -/
def toRat : Binary → ℚ
  | .finite negative significand exponent => signed negative significand * 2 ^ exponent
  | _ => 0

theorem toRat_finite (significand : Nat) (exponent : Int) :
    (finite false significand exponent).toRat = significand * 2 ^ exponent := by
  simp [toRat, signed]

/-- Finite numbers are compared by their values. -/
theorem lt_finite_iff {first second : Bool} {firstSignificand secondSignificand : Nat}
    {firstExponent secondExponent : Int} :
    lt (.finite first firstSignificand firstExponent)
        (.finite second secondSignificand secondExponent) = true ↔
      toRat (.finite first firstSignificand firstExponent) <
        toRat (.finite second secondSignificand secondExponent) := by
  simp only [lt, toRat, decide_eq_true_eq]
  generalize lower : min firstExponent secondExponent = exponent
  have scaled (number : Int) (high : Int) (above : exponent ≤ high) :
      (number : ℚ) * 2 ^ high =
        ((number * 2 ^ (high - exponent).toNat : Int) : ℚ) * 2 ^ exponent := by
    have split : high = (high - exponent).toNat + exponent := by omega
    push_cast
    rw [mul_assoc, ← zpow_natCast, ← zpow_add₀ (by norm_num), ← split]
  rw [scaled _ _ (by omega), scaled _ secondExponent (by omega),
    mul_lt_mul_iff_left₀ (by positivity), Int.cast_lt]

/-! ## Numbers that are not rounded -/

/-- The number is one of the format. -/
def Format.Admits (format : Format) : Binary → Prop
  | .finite _ significand exponent =>
      significand < 2 ^ format.precision ∧ format.minExponent ≤ exponent ∧
        exponent ≤ format.maxExponent
  | _ => True

instance (format : Format) (number : Binary) : Decidable (format.Admits number) := by
  cases number <;> unfold Format.Admits <;> infer_instance

theorem nearestEven_mul {quotient denominator : Nat} (positive : 0 < denominator) :
    nearestEven (quotient * denominator) denominator = quotient := by
  unfold nearestEven
  rw [Nat.mul_mod_left, Nat.mul_div_cancel _ positive]
  simp [positive]

theorem log2_mul_two_pow {number : Nat} (positive : 0 < number) (power : Nat) :
    (number * 2 ^ power).log2 = number.log2 + power := by
  have low := Nat.log2_self_le positive.ne'
  have high := Nat.lt_log2_self (n := number)
  apply (Nat.log2_eq_iff (Nat.mul_pos positive (Nat.two_pow_pos power)).ne').mpr
  constructor
  · rw [Nat.pow_add]
    exact Nat.mul_le_mul_right _ low
  · rw [Nat.add_right_comm, Nat.pow_add]
    exact Nat.mul_lt_mul_of_pos_right high (Nat.two_pow_pos power)

section

variable (format : Format) {significand up down : Nat}

/-- The significand of a number of the format, scaled to an exponent that is not above its own, is a
natural number. -/
theorem scaleDown_eq {exponent : Int} {drop : Nat}
    (same : (up : Int) - down = exponent + drop) :
    ∃ denominator, 0 < denominator ∧
      scaleDown (significand * 2 ^ up) (2 ^ down) exponent =
        (significand * 2 ^ drop * denominator, denominator) := by
  unfold scaleDown
  by_cases above : 0 ≤ exponent
  · refine ⟨2 ^ down * 2 ^ exponent.toNat, by simp, ?_⟩
    have powers : up = drop + (down + exponent.toNat) := by omega
    rw [if_pos above, powers, Nat.pow_add, Nat.pow_add, Nat.mul_assoc]
  · refine ⟨2 ^ down, Nat.two_pow_pos down, ?_⟩
    have powers : up + (-exponent).toNat = drop + down := by omega
    rw [if_neg above, Nat.mul_assoc, ← Nat.pow_add, powers, Nat.pow_add, Nat.mul_assoc]

/-- The exponent of a number of the format is not above its own, and leaves room for its
significand. -/
theorem Format.exponentOf_eq (positive : 0 < significand)
    (small : significand < 2 ^ format.precision) (low : format.minExponent ≤ (up : Int) - down) :
    ∃ drop : Nat, format.exponentOf (significand * 2 ^ up) (2 ^ down) = up - down - drop ∧
      significand * 2 ^ drop < 2 ^ format.precision := by
  have bits : significand.log2 < format.precision := (Nat.log2_lt positive.ne').mpr small
  have below := Nat.lt_log2_self (n := significand)
  have above := Nat.log2_self_le positive.ne'
  -- at the guessed exponent the significand is too large by one bit
  obtain ⟨denominator, nonzero, scaled⟩ := scaleDown_eq
    (show (up : Int) - down =
      (significand.log2 + up : Int) - down - format.precision +
        (format.precision - significand.log2 : Nat) by omega)
  have enough : 2 ^ format.precision ≤ significand * 2 ^ (format.precision - significand.log2) := by
    calc 2 ^ format.precision
        = 2 ^ significand.log2 * 2 ^ (format.precision - significand.log2) := by
          rw [← Nat.pow_add]
          congr 1
          omega
      _ ≤ significand * 2 ^ (format.precision - significand.log2) := Nat.mul_le_mul_right _ above
  have guess : format.exponentOf (significand * 2 ^ up) (2 ^ down) =
      max format.minExponent
        ((significand.log2 + up : Int) - down - format.precision + 1) := by
    unfold Format.exponentOf
    rw [log2_mul_two_pow positive, Nat.log2_two_pow]
    push_cast
    rw [scaled, if_neg]
    rw [Nat.not_lt, Nat.mul_comm denominator]
    exact Nat.mul_le_mul_right _ enough
  obtain ⟨drop, same⟩ : ∃ drop : Nat, max format.minExponent
      ((significand.log2 + up : Int) - down - format.precision + 1) = up - down - drop :=
    ⟨((up : Int) - down - max format.minExponent
      ((significand.log2 + up : Int) - down - format.precision + 1)).toNat, by omega⟩
  refine ⟨drop, guess.trans same, ?_⟩
  calc significand * 2 ^ drop
      < 2 ^ (significand.log2 + 1) * 2 ^ drop :=
        Nat.mul_lt_mul_of_pos_right below (Nat.two_pow_pos drop)
    _ = 2 ^ (significand.log2 + 1 + drop) := (Nat.pow_add ..).symm
    _ ≤ 2 ^ format.precision := Nat.pow_le_pow_right (by decide) (by omega)

/-- A number of the format is not rounded. -/
theorem Format.round_eq (positive : 0 < significand)
    (small : significand < 2 ^ format.precision) (low : format.minExponent ≤ (up : Int) - down)
    (high : (up : Int) - down ≤ format.maxExponent) :
    ∃ drop : Nat, format.round false (significand * 2 ^ up) (2 ^ down) =
      .finite false (significand * 2 ^ drop) (up - down - drop) := by
  obtain ⟨drop, least, room⟩ := format.exponentOf_eq positive small low
  obtain ⟨denominator, nonzero, scaled⟩ :=
    scaleDown_eq (show (up : Int) - down = (up - down - drop) + drop by omega)
  refine ⟨drop, ?_⟩
  unfold Format.round
  rw [if_neg (Nat.mul_pos positive (Nat.two_pow_pos up)).ne', least]
  dsimp only
  rw [scaled]
  dsimp only
  rw [nearestEven_mul nonzero, if_neg room.ne, if_neg room.ne, if_neg (by omega)]

theorem Format.roundScaled_eq {exponent : Int} (positive : 0 < significand)
    (small : significand < 2 ^ format.precision) (low : format.minExponent ≤ up + exponent)
    (high : up + exponent ≤ format.maxExponent) :
    ∃ drop : Nat, format.roundScaled false (significand * 2 ^ up) exponent =
      .finite false (significand * 2 ^ drop) (up + exponent - drop) := by
  unfold Format.roundScaled
  by_cases above : 0 ≤ exponent
  · have lowest : format.minExponent ≤ ((up + exponent.toNat : Nat) : Int) - (0 : Nat) := by omega
    obtain ⟨drop, exact⟩ := format.round_eq positive small lowest (by omega)
    refine ⟨drop, ?_⟩
    rw [if_pos above, Nat.mul_assoc, ← Nat.pow_add, ← Nat.pow_zero 2, exact]
    congr 1
    omega
  · have lowest : format.minExponent ≤ (up : Int) - ((-exponent).toNat : Nat) := by omega
    obtain ⟨drop, exact⟩ := format.round_eq positive small lowest (by omega)
    refine ⟨drop, ?_⟩
    rw [if_neg above, exact]
    congr 1
    omega

end

/-- The value of a number does not depend on where its significand ends. -/
theorem toRat_shift (significand drop : Nat) (exponent : Int) :
    (finite false (significand * 2 ^ drop) (exponent - drop)).toRat =
      significand * 2 ^ exponent := by
  rw [toRat_finite]
  push_cast
  rw [mul_assoc, ← zpow_natCast, ← zpow_add₀ (by norm_num), add_sub_cancel]

end Binary

namespace Config

open Binary

/-- The load factor lies between zero and one. -/
theorem tableLoadFactor_of_flaw {config : Config} (valid : config.flaw? = none) :
    (Format.single.ofNat 0).lt config.tableLoadFactor = true ∧
      config.tableLoadFactor.lt (Format.single.ofNat 1) = true := by
  unfold flaw? at valid
  dsimp only at valid
  split_ifs at valid with _ _ _ _ factor
  simpa using factor

/-- A load factor is a fraction. -/
theorem exists_tableLoadFactor {config : Config} (valid : config.flaw? = none) :
    ∃ significand exponent, config.tableLoadFactor = .finite false significand exponent ∧
      0 < significand ∧ exponent < 0 ∧ (significand : ℚ) * 2 ^ exponent < 1 := by
  obtain ⟨positive, below⟩ := tableLoadFactor_of_flaw valid
  have zero : Format.single.ofNat 0 = .finite false 0 (-149) := rfl
  have one : Format.single.ofNat 1 = .finite false (1 * 2 ^ 23) (0 - (23 : Nat)) := by
    decide +kernel
  rw [zero] at positive
  rw [one] at below
  cases factor : config.tableLoadFactor with
  | nan =>
      rw [factor] at below
      cases below
  | infinite negative =>
      rw [factor] at positive below
      cases negative <;> simp [lt] at positive below
  | finite negative significand exponent =>
      rw [factor, lt_finite_iff] at positive below
      rw [toRat_finite] at positive
      cases negative with
      | true =>
          have sign : toRat (.finite true significand exponent) ≤ 0 := by
            simp [toRat, signed, mul_nonneg, zpow_nonneg]
          exact absurd positive (by simpa using sign)
      | false =>
          rw [toRat_shift, toRat_finite] at below
          rw [toRat_finite] at positive
          have nonzero : 0 < significand := by
            apply Nat.pos_of_ne_zero
            rintro rfl
            simp at positive
          have least : (1 : ℚ) ≤ significand := by exact_mod_cast nonzero
          have power : (2 : ℚ) ^ exponent < 2 ^ (0 : Int) := by
            calc (2 : ℚ) ^ exponent ≤ significand * 2 ^ exponent :=
                  le_mul_of_one_le_left (by positivity) least
              _ < 2 ^ (0 : Int) := by simpa using below
          refine ⟨significand, exponent, rfl, nonzero, ?_, by simpa using below⟩
          exact (zpow_lt_zpow_iff_right₀ (by norm_num)).mp power

/-- A load factor below one lets no table take as many entries as it has buckets. -/
theorem overloaded_full {config : Config} (valid : config.flaw? = none)
    (admits : Format.single.Admits config.tableLoadFactor) {power : Nat} (small : power ≤ 104) :
    config.overloaded (2 ^ power) (2 ^ power) = true := by
  obtain ⟨significand, exponent, factor, nonzero, negative, below⟩ := exists_tableLoadFactor valid
  rw [factor] at admits
  obtain ⟨few, low, _⟩ := admits
  have high : (power : Int) ≤ Format.single.maxExponent := by
    change (power : Int) ≤ 104
    exact_mod_cast small
  have lowest : Format.single.minExponent ≤ (power : Int) - (0 : Nat) :=
    Int.le_trans (by decide) (Int.natCast_nonneg power)
  obtain ⟨drop, capacity⟩ :=
    Format.single.round_eq Nat.one_pos (by decide) lowest (by simpa using high)
  have lowestToo : Format.single.minExponent ≤
      (drop : Int) + ((power : Int) - (0 : Nat) - drop + exponent) := by
    omega
  obtain ⟨dropToo, product⟩ := Format.single.roundScaled_eq nonzero few lowestToo (by omega)
  have count : Format.single.ofNat (2 ^ power) =
      .finite false (1 * 2 ^ drop) ((power : Int) - (0 : Nat) - drop) := by
    rwa [Nat.one_mul] at capacity
  rw [Nat.mul_comm, ← Nat.one_mul (2 ^ drop)] at product
  unfold overloaded
  dsimp only
  rw [factor, count]
  unfold Format.mul
  change lt (Format.single.roundScaled false (1 * 2 ^ drop * significand) _) _ = true
  rw [product, lt_finite_iff, toRat_shift, toRat_shift]
  have powers : (drop : Int) + ((power : Int) - (0 : Nat) - drop + exponent) =
      exponent + (power - (0 : Nat)) := by
    omega
  rw [powers, zpow_add₀ (by norm_num), ← mul_assoc]
  exact mul_lt_mul_of_pos_right (by simpa using below) (by positivity)

end Config

end CompactingHeap
