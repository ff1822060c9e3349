import CompactingHeap.Class.Accepted
import CompactingHeap.Layout
import Mathlib.Order.Bounds.Basic

/-!
# Sizes and alignments of layouts

The alignment of every layout is a power of two between a word and a page, and its size is a
positive machine word that covers the header and the payload.  Rounding up to such an alignment
inside a slab never wraps around, because a slab ends at a page.
-/

namespace CompactingHeap

/-- The alignment of a class is a power of two up to a page. -/
theorem Descriptor.align_eq_two_pow (descriptor : Descriptor) :
    ∃ k, k ≤ 12 ∧ descriptor.align = 2 ^ k := by
  obtain ⟨byteTail, accepted⟩ := descriptor.accepted
  have bounds : isPowerOfTwo descriptor.align = true ∧ descriptor.align ≤ 2 ^ 12 := by
    unfold Descriptor.check at accepted
    grind [pageBytes]
  rcases isPowerOfTwo_iff.mp bounds.1 with ⟨k, power⟩
  refine ⟨k, ?_, power⟩
  rw [power] at bounds
  exact (Nat.pow_le_pow_iff_right (by decide)).mp bounds.2

/-- What a layout consists of, in terms of the payload bytes that it was made for. -/
theorem Layout.of?_eq_some {descriptor : Descriptor} {extra : Nat} {layout : Layout}
    (laidOut : Layout.of? descriptor extra = some layout) :
    extra < 2 ^ 32 ∧ ∃ content, descriptor.payloadBytes? extra = some content ∧
      layout.align = max descriptor.align wordBytes ∧
      layout.payload = alignUp headerBytes layout.align ∧
      content + layout.payload + (wordBytes - 1) < wordLimit ∧
      layout.size = (content + layout.payload + (wordBytes - 1)) / wordBytes * wordBytes := by
  unfold Layout.of? at laidOut
  dsimp only at laidOut
  split at laidOut
  · contradiction
  · next small =>
    simp only [Option.bind_eq_bind, Option.bind_eq_some_iff, Option.pure_def,
      Option.some.injEq, checkedAdd_eq_some_iff] at laidOut
    rcases laidOut with ⟨content, payloadBytes, total, ⟨_, rfl⟩, padded, ⟨fits, rfl⟩, rfl⟩
    exact ⟨Nat.lt_of_not_le small, content, payloadBytes, rfl, rfl, fits, rfl⟩

/-- Objects are aligned to a power of two between a word and a page. -/
theorem Descriptor.max_align_eq_two_pow (descriptor : Descriptor) :
    ∃ k, 3 ≤ k ∧ k ≤ 12 ∧ max descriptor.align wordBytes = 2 ^ k := by
  obtain ⟨k, bound, power⟩ := descriptor.align_eq_two_pow
  rw [power]
  by_cases small : k ≤ 3
  · refine ⟨3, Nat.le_refl 3, by decide, ?_⟩
    exact Nat.max_eq_right (Nat.pow_le_pow_right (by decide) small)
  · have large : 3 ≤ k := Nat.le_of_not_le small
    refine ⟨k, large, bound, ?_⟩
    exact Nat.max_eq_left (Nat.pow_le_pow_right (n := 2) (by decide) large)

/-- The alignment of a layout is a power of two between a word and a page. -/
theorem Layout.align_eq_two_pow {descriptor : Descriptor} {extra : Nat} {layout : Layout}
    (laidOut : Layout.of? descriptor extra = some layout) :
    ∃ k, 3 ≤ k ∧ k ≤ 12 ∧ layout.align = 2 ^ k := by
  obtain ⟨_, _, _, alignEq, _⟩ := Layout.of?_eq_some laidOut
  rw [alignEq]
  exact descriptor.max_align_eq_two_pow

/-- Within a word, rounding up gives a multiple of the alignment that is at least `n`. -/
theorem le_alignUp_and_dvd {n k : Nat} (fits : n + 2 ^ k ≤ wordLimit) (small : k < 64) :
    n ≤ alignUp n (2 ^ k) ∧ 2 ^ k ∣ alignUp n (2 ^ k) := by
  rw [alignUp_two_pow fits small]
  have positive : 0 < 2 ^ k := Nat.two_pow_pos k
  constructor
  · have below := Nat.lt_div_mul_add positive (a := n + 2 ^ k - 1)
    omega
  · exact Nat.dvd_mul_left _ _

/-- Rounding up gives the least multiple that is large enough. -/
theorem isLeast_alignUp {n k : Nat} (fits : n + 2 ^ k ≤ wordLimit) (small : k < 64) :
    IsLeast {m | 2 ^ k ∣ m ∧ n ≤ m} (alignUp n (2 ^ k)) := by
  obtain ⟨enough, multiple⟩ := le_alignUp_and_dvd fits small
  refine ⟨⟨multiple, enough⟩, ?_⟩
  rintro m ⟨⟨c, rfl⟩, above⟩
  have positive := Nat.two_pow_pos k
  rw [alignUp_two_pow fits small, Nat.mul_comm]
  apply Nat.mul_le_mul_left
  apply Nat.le_of_lt_succ
  apply Nat.div_lt_of_lt_mul
  rw [Nat.mul_succ]
  omega

/-- A power of two up to a page is small enough for the header to be rounded up to it. -/
theorem two_pow_le_page {k : Nat} (bound : k ≤ 12) : 2 ^ k ≤ pageBytes := by
  calc
    2 ^ k ≤ 2 ^ 12 := Nat.pow_le_pow_right (by decide) bound
    _ = pageBytes := rfl

/-- The payload lies behind the header. -/
theorem Layout.header_le_payload {descriptor : Descriptor} {extra : Nat} {layout : Layout}
    (laidOut : Layout.of? descriptor extra = some layout) : headerBytes ≤ layout.payload := by
  obtain ⟨_, _, _, _, payloadEq, _⟩ := Layout.of?_eq_some laidOut
  obtain ⟨k, _, bound, power⟩ := Layout.align_eq_two_pow laidOut
  rw [payloadEq, power]
  have page := two_pow_le_page bound
  have fits : headerBytes + 2 ^ k ≤ wordLimit := by
    simp only [headerBytes, wordLimit, pageBytes] at page ⊢
    omega
  exact (le_alignUp_and_dvd fits (by omega)).1

/-- Every object takes room, and its size is a machine word. -/
theorem Layout.size_bounds {descriptor : Descriptor} {extra : Nat} {layout : Layout}
    (laidOut : Layout.of? descriptor extra = some layout) :
    0 < layout.size ∧ layout.size < wordLimit := by
  obtain ⟨_, content, _, _, _, fits, sizeEq⟩ := Layout.of?_eq_some laidOut
  have header := Layout.header_le_payload laidOut
  simp only [headerBytes, wordBytes] at header fits sizeEq
  omega

/-- Rounding up to the alignment of a layout below the end of a slab neither wraps around nor goes
back, and gives a multiple of the alignment. -/
theorem Layout.alignUp_spec {descriptor : Descriptor} {extra top capacity : Nat} {layout : Layout}
    (laidOut : Layout.of? descriptor extra = some layout) (inside : top ≤ capacity)
    (pages : capacity % pageBytes = 0) (word : capacity < wordLimit) :
    top ≤ alignUp top layout.align ∧ layout.align ∣ alignUp top layout.align := by
  obtain ⟨k, _, bound, power⟩ := Layout.align_eq_two_pow laidOut
  have page := two_pow_le_page bound
  rw [power]
  apply le_alignUp_and_dvd _ (by omega)
  simp only [pageBytes, wordLimit] at *
  omega

/-- The alignment of a layout divides a page, so aligned offsets are aligned in memory. -/
theorem Layout.align_dvd_page {descriptor : Descriptor} {extra : Nat} {layout : Layout}
    (laidOut : Layout.of? descriptor extra = some layout) : layout.align ∣ pageBytes := by
  obtain ⟨k, _, bound, power⟩ := Layout.align_eq_two_pow laidOut
  rw [power]
  exact Nat.pow_dvd_pow 2 bound

/-- The alignment of a layout is a multiple of a word. -/
theorem Layout.word_dvd_align {descriptor : Descriptor} {extra : Nat} {layout : Layout}
    (laidOut : Layout.of? descriptor extra = some layout) : wordBytes ∣ layout.align := by
  obtain ⟨k, bound, _, power⟩ := Layout.align_eq_two_pow laidOut
  rw [power]
  exact Nat.pow_dvd_pow 2 bound

/-- An object consists of whole words. -/
theorem Layout.word_dvd_size {descriptor : Descriptor} {extra : Nat} {layout : Layout}
    (laidOut : Layout.of? descriptor extra = some layout) : wordBytes ∣ layout.size := by
  obtain ⟨_, _, _, _, _, _, size⟩ := Layout.of?_eq_some laidOut
  rw [size]
  exact Nat.dvd_mul_left _ _

/-- An empty slab is aligned to everything. -/
theorem Layout.alignUp_zero {descriptor : Descriptor} {extra : Nat} {layout : Layout}
    (laidOut : Layout.of? descriptor extra = some layout) : alignUp 0 layout.align = 0 := by
  obtain ⟨k, _, bound, power⟩ := Layout.align_eq_two_pow laidOut
  have page := two_pow_le_page bound
  have positive : 0 < 2 ^ k := Nat.two_pow_pos k
  rw [power, alignUp_two_pow _ (by omega)]
  · rw [Nat.div_eq_of_lt (by omega), Nat.zero_mul]
  · simp only [pageBytes, wordLimit] at *
    omega

end CompactingHeap
