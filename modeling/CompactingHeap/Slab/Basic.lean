import CompactingHeap.Error
import CompactingHeap.Region

/-!
# Slabs

A slab is a region handed out front to back: everything below its top is in use.  A reservation is
aligned by offset, which aligns it in memory as well because the region starts at a page.
-/

namespace CompactingHeap

/-- A region with a serial number of its own, and the end of its used part. -/
structure Slab where
  serial : Nat
  region : Region
  top : Nat

namespace Slab

/-- Bytes in the slab. -/
def capacity (slab : Slab) : Nat :=
  slab.region.length

/-- Bytes handed out, padding included. -/
def used (slab : Slab) : Nat :=
  slab.top

/-- Bytes not handed out yet. -/
def remaining (slab : Slab) : Nat :=
  slab.capacity - slab.top

/-- Reserve `size` bytes at the next multiple of `align` and tell their offset, or tell how many
bytes remain if they do not fit. -/
def bump (slab : Slab) (size align : Nat) : Except HeapError (Nat × Slab) :=
  let offset := alignUp slab.top align
  match checkedAdd offset size with
  | some finish =>
      if finish ≤ slab.capacity then .ok (offset, { slab with top := finish })
      else .error (.outOfSlab size slab.remaining)
  | none => .error (.outOfSlab size slab.remaining)

/-- A reservation succeeds exactly if it fits behind the top once that has been rounded up. -/
theorem bump_eq_ok_iff {slab bumped : Slab} {size align offset : Nat} :
    slab.bump size align = .ok (offset, bumped) ↔
      offset = alignUp slab.top align ∧ offset + size < wordLimit ∧
        offset + size ≤ slab.capacity ∧ bumped = { slab with top := offset + size } := by
  unfold bump
  dsimp only
  cases sum : checkedAdd (alignUp slab.top align) size with
  | none =>
      rw [checkedAdd_eq_none_iff] at sum
      grind
  | some finish =>
      rw [checkedAdd_eq_some_iff] at sum
      grind

end Slab

end CompactingHeap
