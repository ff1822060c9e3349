import CompactingHeap.Binary.Format

/-!
# The shortest decimal text of a binary number

A finite number is written with the fewest decimal digits that still round to it; of two such
decimals of the same length the nearer one is written, and of two equally near the larger.  The
digits are always written positionally, without an exponent and without a fraction of zeros.
-/

namespace CompactingHeap.Binary

/-- An interval of reals around a number, measured in units of `numerator / denominator`, together
with the number itself.  The ends belong to the interval when `closed` holds. -/
structure Neighbourhood where
  numerator : Nat
  denominator : Nat
  low : Nat
  value : Nat
  high : Nat
  closed : Bool

/-- The reals that round to `significand * 2 ^ exponent`.  Below a power of two the neighbours are
twice as close, and the ends round to an even significand. -/
def Format.neighbourhood (format : Format) (significand : Nat) (exponent : Int) : Neighbourhood :=
  let unit := exponent - 2
  let isLeast := significand = 2 ^ (format.precision - 1) ∧ format.minExponent < exponent
  { numerator := if 0 ≤ unit then 2 ^ unit.toNat else 1
    denominator := if 0 ≤ unit then 1 else 2 ^ (-unit).toNat
    low := 4 * significand - (if isLeast then 1 else 2)
    value := 4 * significand
    high := 4 * significand + 2
    closed := significand % 2 = 0 }

/-- Does `digits * 10 ^ place` lie in the neighbourhood? -/
def Neighbourhood.admits (around : Neighbourhood) (digits : Nat) (place : Int) : Bool :=
  let decimal := digits * 10 ^ place.toNat * around.denominator
  let scale := around.numerator * 10 ^ (-place).toNat
  if around.closed then around.low * scale ≤ decimal && decimal ≤ around.high * scale
  else around.low * scale < decimal && decimal < around.high * scale

/-- The largest `n` such that `10 ^ n` is at most `numerator / denominator`, looked for downwards
from `start`. -/
def decimalPlace (numerator denominator : Nat) (start : Int) : Nat → Int
  | 0 => start
  | steps + 1 =>
      if denominator * 10 ^ start.toNat ≤ numerator * 10 ^ (-start).toNat then start
      else decimalPlace numerator denominator (start - 1) steps

/-- Try the grids of decimals from the coarsest on, and take from the first one that has a member in
the neighbourhood the member nearest to the number. -/
def Neighbourhood.digitsFrom (around : Neighbourhood) (place : Int) : Nat → Nat × Int
  | 0 => (0, place)
  | tries + 1 =>
      let scaled := around.value * around.numerator * 10 ^ (-place).toNat
      let scale := around.denominator * 10 ^ place.toNat
      let below := scaled / scale
      let lower := around.admits below place
      let upper := around.admits (below + 1) place
      let nearerAbove := scale ≤ 2 * (scaled % scale)
      if lower && !(upper && nearerAbove) then (below, place)
      else if upper then (below + 1, place)
      else around.digitsFrom (place - 1) tries

/-- The shortest digits of a positive number, and the power of ten of the last of them.  The first
grid is one place above the leading digit, where the next power of ten may already be near
enough. -/
def Format.shortestDigits (format : Format) (significand : Nat) (exponent : Int) : Nat × Int :=
  let around := format.neighbourhood significand exponent
  let start : Int := (significand.log2 : Int) + exponent
  let highest := if 0 ≤ start then start + 1 else 0
  let place := decimalPlace (around.value * around.numerator) around.denominator highest
    (start.natAbs + 2)
  around.digitsFrom (place + 1) (format.precision + 3)

/-- Write `digits * 10 ^ place` positionally. -/
def positional (digits : Nat) (place : Int) : String :=
  let written := Nat.repr digits
  if 0 ≤ place then written ++ String.ofList (List.replicate place.toNat '0')
  else
    let fraction := (-place).toNat
    let padded := List.replicate (fraction + 1 - written.length) '0' ++ written.toList
    let whole := padded.take (padded.length - fraction)
    String.ofList whole ++ "." ++ String.ofList (padded.drop (padded.length - fraction))

/-- The text of a number of the format. -/
def Format.text (format : Format) : Binary → String
  | .nan => "NaN"
  | .infinite negative => if negative then "-inf" else "inf"
  | .finite negative significand exponent =>
      let sign := if negative then "-" else ""
      if significand = 0 then sign ++ "0"
      else
        let digits := format.shortestDigits significand exponent
        sign ++ positional digits.1 digits.2

end CompactingHeap.Binary
