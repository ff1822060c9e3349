import CompactingHeap.Word

/-!
# Binary floating-point numbers

A number is a sign and a natural significand times a power of two, or infinite, or not a number.  A
format bounds the significand and the exponent; every operation takes the exact result, a quotient
of natural numbers, and rounds it once to the nearest number of the format, ties going to the even
significand.
-/

namespace CompactingHeap

/-- A floating-point number whose finite values are `±significand * 2 ^ exponent`. -/
inductive Binary where
  | nan
  | infinite (negative : Bool)
  | finite (negative : Bool) (significand : Nat) (exponent : Int)
deriving DecidableEq, Repr

namespace Binary

/-- The significands below `2 ^ precision`, with exponents between the two bounds. -/
structure Format where
  precision : Nat
  minExponent : Int
  maxExponent : Int
deriving DecidableEq, Repr

/-- The 32-bit format. -/
def Format.single : Format := ⟨24, -149, 104⟩

/-- The 64-bit format. -/
def Format.double : Format := ⟨53, -1074, 971⟩

/-- The natural number nearest to `numerator / denominator`; a half goes to the even neighbour. -/
def nearestEven (numerator denominator : Nat) : Nat :=
  let quotient := numerator / denominator
  let remainder := numerator % denominator
  if 2 * remainder < denominator then quotient
  else if denominator < 2 * remainder then quotient + 1
  else if quotient % 2 = 0 then quotient
  else quotient + 1

/-- The quotient `numerator / denominator` divided by `2 ^ exponent`, again as a quotient. -/
def scaleDown (numerator denominator : Nat) (exponent : Int) : Nat × Nat :=
  if 0 ≤ exponent then (numerator, denominator * 2 ^ exponent.toNat)
  else (numerator * 2 ^ (-exponent).toNat, denominator)

/-- The exponent at which `numerator / denominator` has a significand of full precision, or the
least exponent of the format when that is larger. -/
def Format.exponentOf (format : Format) (numerator denominator : Nat) : Int :=
  let guess : Int := (numerator.log2 : Int) - denominator.log2 - format.precision
  let scaled := scaleDown numerator denominator guess
  max format.minExponent
    (if scaled.1 < scaled.2 * 2 ^ format.precision then guess else guess + 1)

/-- The number of the format nearest to `±numerator / denominator`, ties going to the even
significand; past the largest number of the format the result is infinite. -/
def Format.round (format : Format) (negative : Bool) (numerator denominator : Nat) : Binary :=
  if numerator = 0 then .finite negative 0 format.minExponent
  else
    let exponent := format.exponentOf numerator denominator
    let scaled := scaleDown numerator denominator exponent
    let significand := nearestEven scaled.1 scaled.2
    let carried := significand = 2 ^ format.precision
    let exponent := if carried then exponent + 1 else exponent
    let significand := if carried then 2 ^ (format.precision - 1) else significand
    if format.maxExponent < exponent then .infinite negative
    else .finite negative significand exponent

/-- The number of the format nearest to `±significand * 2 ^ exponent`. -/
def Format.roundScaled (format : Format) (negative : Bool) (significand : Nat) (exponent : Int) :
    Binary :=
  if 0 ≤ exponent then format.round negative (significand * 2 ^ exponent.toNat) 1
  else format.round negative significand (2 ^ (-exponent).toNat)

/-- The number of the format nearest to a natural number. -/
def Format.ofNat (format : Format) (n : Nat) : Binary :=
  format.round false n 1

/-- The number of the format nearest to the decimal `±digits * 10 ^ exponent`. -/
def Format.ofDecimal (format : Format) (negative : Bool) (digits : Nat) (exponent : Int) : Binary :=
  if 0 ≤ exponent then format.round negative (digits * 10 ^ exponent.toNat) 1
  else format.round negative digits (10 ^ (-exponent).toNat)

/-- The number of the format nearest to a number of another format. -/
def Format.convert (format : Format) : Binary → Binary
  | .finite negative significand exponent => format.roundScaled negative significand exponent
  | other => other

/-- The product, rounded once.  Zero times an infinite number is not a number. -/
def Format.mul (format : Format) : Binary → Binary → Binary
  | .nan, _ => .nan
  | _, .nan => .nan
  | .infinite first, .infinite second => .infinite (first != second)
  | .infinite first, .finite second significand _ =>
      if significand = 0 then .nan else .infinite (first != second)
  | .finite first significand _, .infinite second =>
      if significand = 0 then .nan else .infinite (first != second)
  | .finite first firstSignificand firstExponent, .finite second secondSignificand secondExponent =>
      format.roundScaled (first != second) (firstSignificand * secondSignificand)
        (firstExponent + secondExponent)

/-- A significand with its sign. -/
def signed (negative : Bool) (significand : Nat) : Int :=
  if negative then -(significand : Int) else significand

/-- Is the first number smaller?  Nothing is smaller or larger than what is not a number, and the
two zeros are equal. -/
def lt : Binary → Binary → Bool
  | .nan, _ => false
  | _, .nan => false
  | .infinite first, .infinite second => first && !second
  | .infinite first, .finite .. => first
  | .finite .., .infinite second => !second
  | .finite first firstSignificand firstExponent, .finite second secondSignificand secondExponent =>
      let exponent := min firstExponent secondExponent
      decide (signed first firstSignificand * 2 ^ (firstExponent - exponent).toNat <
        signed second secondSignificand * 2 ^ (secondExponent - exponent).toNat)

/-- Is the first number smaller or equal? -/
def le (first second : Binary) : Bool :=
  first != .nan && second != .nan && !second.lt first

/-- The integral part clamped to the words from zero to `bound`; what is not a number gives zero. -/
def clampedFloor (bound : Nat) : Binary → Nat
  | .nan => 0
  | .infinite negative => if negative then 0 else bound
  | .finite negative significand exponent =>
      if negative then 0
      else if 0 ≤ exponent then min bound (significand * 2 ^ exponent.toNat)
      else min bound (significand / 2 ^ (-exponent).toNat)

end Binary

end CompactingHeap
