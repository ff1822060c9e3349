/-!
# Machine words

Sizes, offsets and counts are natural numbers below the bound of a 64-bit machine word.  This module
holds the constants of the word, and the operations whose result at the edge of a word can be
observed: sums and products that are refused or clamped there, and rounding up to an alignment.
-/

namespace CompactingHeap

-- Powers of natural numbers are those of the core library in every module, whatever it imports.
attribute [instance(20000)] instPowNat
attribute [default_instance 20000] instPowNat

/-- Bytes in a machine word, in a reference slot and in a length word. -/
def wordBytes : Nat := 8

/-- One past the largest machine word. -/
def wordLimit : Nat := 2 ^ 64

/-- The largest machine word. -/
def maxWord : Nat := wordLimit - 1

/-- Bytes in a page, the unit in which memory is mapped. -/
def pageBytes : Nat := 4096

/-- The sum, unless it exceeds a word. -/
def checkedAdd (a b : Nat) : Option Nat :=
  if a + b < wordLimit then some (a + b) else none

/-- The product, unless it exceeds a word. -/
def checkedMul (a b : Nat) : Option Nat :=
  if a * b < wordLimit then some (a * b) else none

theorem checkedAdd_eq_some_iff {a b sum : Nat} :
    checkedAdd a b = some sum ↔ a + b < wordLimit ∧ sum = a + b := by
  unfold checkedAdd
  split
  · simp_all [eq_comm]
  · simp only [reduceCtorEq, false_iff, not_and]
    omega

theorem checkedAdd_eq_none_iff {a b : Nat} :
    checkedAdd a b = none ↔ wordLimit ≤ a + b := by
  simp [checkedAdd]

theorem checkedMul_eq_some_iff {a b product : Nat} :
    checkedMul a b = some product ↔ a * b < wordLimit ∧ product = a * b := by
  unfold checkedMul
  split
  · simp_all [eq_comm]
  · simp only [reduceCtorEq, false_iff, not_and]
    omega

theorem checkedMul_eq_none_iff {a b : Nat} :
    checkedMul a b = none ↔ wordLimit ≤ a * b := by
  simp [checkedMul]

/-- The sum, or the largest word when the sum exceeds it. -/
def saturatingAdd (a b : Nat) : Nat :=
  min (a + b) maxWord

/-- The product, or the largest word when the product exceeds it. -/
def saturatingMul (a b : Nat) : Nat :=
  min (a * b) maxWord

/-- Clamping does not change which bounds below the largest word a sum exceeds. -/
theorem saturatingAdd_le_iff {a b bound : Nat} (h : bound < maxWord) :
    saturatingAdd a b ≤ bound ↔ a + b ≤ bound := by
  simp only [saturatingAdd]
  omega

/-- Round `n` up to a multiple of `align`, a power of two, by masking the low bits on machine words.
The sum wraps around, so within one alignment of the end of a word the result is zero. -/
def alignUp (n align : Nat) : Nat :=
  let mask := align.toUInt64 - 1
  ((n.toUInt64 + mask) &&& ~~~mask).toNat

theorem toNat_lowMask {k : Nat} (h : k < 64) :
    ((2 ^ k : Nat).toUInt64 - 1).toNat = 2 ^ k - 1 := by
  have powerLt : 2 ^ k < 2 ^ 64 := Nat.pow_lt_pow_right (by decide) h
  have power : ((2 ^ k : Nat).toUInt64).toNat = 2 ^ k := by
    rw [Nat.toUInt64_eq, UInt64.toNat_ofNat', Nat.mod_eq_of_lt powerLt]
  rw [UInt64.toNat_sub_of_le, power]
  · rfl
  · rw [UInt64.le_iff_toNat_le, power]
    exact Nat.two_pow_pos k

/-- Keeping the low `k` bits gives the rest of a division by `2 ^ k`. -/
theorem toNat_and_lowMask (word : UInt64) {k : Nat} (h : k < 64) :
    (word &&& ((2 ^ k : Nat).toUInt64 - 1)).toNat = word.toNat % 2 ^ k := by
  rw [UInt64.toNat_and, toNat_lowMask h, Nat.and_two_pow_sub_one_eq_mod]

/-- Masking off the low `k` bits rounds down to a multiple of `2 ^ k`. -/
theorem toNat_and_not_lowMask (word : UInt64) {k : Nat} (h : k < 64) :
    (word &&& ~~~((2 ^ k : Nat).toUInt64 - 1)).toNat = word.toNat / 2 ^ k * 2 ^ k := by
  have powerLt : 2 ^ k < 2 ^ 64 := Nat.pow_lt_pow_right (by decide) h
  have powerPos : 0 < 2 ^ k := Nat.two_pow_pos k
  have complement : UInt64.size - 1 - (2 ^ k - 1) = 2 ^ 64 - (2 ^ k - 1 + 1) := by
    simp only [UInt64.size]
    omega
  rw [UInt64.toNat_and, UInt64.toNat_not, toNat_lowMask h, complement]
  apply Nat.eq_of_testBit_eq
  intro i
  rw [Nat.testBit_and, Nat.testBit_two_pow_sub_succ (by omega), Nat.testBit_mul_two_pow,
    Nat.testBit_two_pow_sub_one]
  by_cases low : i < k
  · simp [low, Nat.not_le.mpr low]
  · have high : k ≤ i := Nat.le_of_not_lt low
    rw [Nat.testBit_div_two_pow]
    by_cases inside : i < 64
    · simp [low, high, inside]
    · have beyond : word.toNat.testBit i = false :=
        Nat.testBit_lt_two_pow
          (Nat.lt_of_lt_of_le word.toNat_lt (Nat.pow_le_pow_right (by decide) (by omega)))
      simp [low, high, inside, beyond]

/-- Within a word, rounding up gives the least multiple of the alignment that is at least `n`. -/
theorem alignUp_two_pow {n k : Nat} (h : n + 2 ^ k ≤ wordLimit) (hk : k < 64) :
    alignUp n (2 ^ k) = (n + 2 ^ k - 1) / 2 ^ k * 2 ^ k := by
  have powerPos : 0 < 2 ^ k := Nat.two_pow_pos k
  simp only [wordLimit] at h
  have small : n.toUInt64.toNat = n := by
    simp only [Nat.toUInt64_eq, UInt64.toNat_ofNat']
    omega
  have sum : (n.toUInt64 + ((2 ^ k : Nat).toUInt64 - 1)).toNat = n + 2 ^ k - 1 := by
    rw [UInt64.toNat_add, toNat_lowMask hk, small]
    omega
  unfold alignUp
  rw [toNat_and_not_lowMask _ hk, sum]

/-- Is `n` one, two, four, eight and so on? -/
def isPowerOfTwo (n : Nat) : Bool :=
  2 ^ n.log2 == n

theorem isPowerOfTwo_iff {n : Nat} :
    isPowerOfTwo n = true ↔ ∃ k, n = 2 ^ k := by
  simp only [isPowerOfTwo, beq_iff_eq]
  constructor
  · intro h
    exact ⟨n.log2, h.symm⟩
  · rintro ⟨k, rfl⟩
    rw [Nat.log2_two_pow]

/-- The least power of two that is at least `n`. -/
def nextPowerOfTwo (n : Nat) : Nat :=
  if n ≤ 1 then 1 else 2 ^ ((n - 1).log2 + 1)

theorem isPowerOfTwo_nextPowerOfTwo (n : Nat) :
    isPowerOfTwo (nextPowerOfTwo n) = true := by
  unfold nextPowerOfTwo
  split
  · exact isPowerOfTwo_iff.mpr ⟨0, rfl⟩
  · exact isPowerOfTwo_iff.mpr ⟨_, rfl⟩

theorem le_nextPowerOfTwo (n : Nat) : n ≤ nextPowerOfTwo n := by
  unfold nextPowerOfTwo
  split
  · assumption
  · have below := Nat.lt_log2_self (n := n - 1)
    omega

/-- No smaller power of two is large enough. -/
theorem nextPowerOfTwo_le {n k : Nat} (h : n ≤ 2 ^ k) : nextPowerOfTwo n ≤ 2 ^ k := by
  unfold nextPowerOfTwo
  split
  · exact Nat.one_le_two_pow
  · have below : (n - 1).log2 < k := (Nat.log2_lt (by omega)).mpr (by omega)
    exact Nat.pow_le_pow_right (by decide) below

/-- The byte of `word` at `index`, counted from the least significant one. -/
def byteOfWord (word : UInt64) (index : Nat) : UInt8 :=
  (word >>> (8 * index).toUInt64).toUInt8

/-- Replace the byte of `word` at `index`, counted from the least significant one. -/
def setByteOfWord (word : UInt64) (index : Nat) (byte : UInt8) : UInt64 :=
  let shift := (8 * index).toUInt64
  (word &&& ~~~((0xff : UInt64) <<< shift)) ||| (byte.toUInt64 <<< shift)

/-- Read up to eight bytes as one word, the first byte being the least significant. -/
def wordOfBytes : List UInt8 → UInt64
  | [] => 0
  | byte :: rest => byte.toUInt64 ||| (wordOfBytes rest <<< 8)

end CompactingHeap
