import CompactingHeap.Heap.Values

/-!
# Growable arrays of references

An array is an object of three words: its length, its capacity, and a reference to the run that
backs it, absent while the capacity is zero.  Growing allocates a run of twice the capacity and
copies the elements over; the outgrown run is left to the next collection.
-/

namespace CompactingHeap

/-- A handle that is known to name an array. -/
structure RefArray where
  handle : Handle
deriving DecidableEq, Repr

namespace RefArray

/-- The offset of the length. -/
def lengthOffset : Nat := 0

/-- The offset of the capacity. -/
def capacityOffset : Nat := wordBytes

/-- The offset of the reference to the backing run. -/
def backingOffset : Nat := 2 * wordBytes

/-- The smallest capacity of an array that has grown. -/
def minCapacity : UInt64 := 4

/-- The array that a handle names. -/
def ofHandle (heap : Heap) (handle : Handle) : Except HeapError RefArray := do
  let _ ← heap.expect handle .array
  return ⟨handle⟩

/-- The number of elements, as a word. -/
def lengthWord (array : RefArray) (heap : Heap) : Except HeapError UInt64 :=
  heap.readWord array.handle lengthOffset

/-- The number of elements. -/
def length (array : RefArray) (heap : Heap) : Except HeapError Nat :=
  (array.lengthWord heap).map UInt64.toNat

/-- Has the array no elements? -/
def isEmpty (array : RefArray) (heap : Heap) : Except HeapError Bool :=
  (array.lengthWord heap).map (· == 0)

/-- The number of elements that the backing run has room for, as a word. -/
def capacityWord (array : RefArray) (heap : Heap) : Except HeapError UInt64 :=
  heap.readWord array.handle capacityOffset

/-- The number of elements that the backing run has room for. -/
def capacity (array : RefArray) (heap : Heap) : Except HeapError Nat :=
  (array.capacityWord heap).map UInt64.toNat

/-- The backing run. -/
def backing (array : RefArray) (heap : Heap) : Except HeapError Handle := do
  match ← heap.readRef array.handle backingOffset with
  | some backing => return backing
  | none => throw (.corrupt (.missingBacking array.handle))

/-- Give an array the backing run of a capacity, and leave the run to the array alone. -/
def adopt (array : RefArray) (backing : Handle) : HeapM Unit := do
  Heap.writeRef array.handle backingOffset (some backing)
  Heap.release backing

/-- Run the second half of a construction; if it fails, the object made by the first half is not
held any longer. -/
def orRelease {α : Type} (handle : Handle) (rest : HeapM α) : HeapM α := do
  match ← HeapM.attempt rest with
  | .ok value => return value
  | .error error =>
      Heap.release handle
      throw error

/-- An empty array with room for `capacity` elements, held once. -/
def withCapacity (capacity : Nat) : HeapM RefArray := do
  let handle ← Heap.allocate .array 0
  if capacity = 0 then return ⟨handle⟩
  else
    let backing ← orRelease handle (Heap.withHeld [handle] (Heap.allocVector capacity))
    Heap.writeWord handle capacityOffset capacity.toUInt64
    adopt ⟨handle⟩ backing
    return ⟨handle⟩

/-- An empty array. -/
def new : HeapM RefArray :=
  withCapacity 0

/-- An array of absent elements. -/
def filled (length : Nat) : HeapM RefArray := do
  let array ← withCapacity length
  Heap.writeWord array.handle lengthOffset length.toUInt64
  return array

/-- The backing run, if the array has an element at an index. -/
def backingAt (array : RefArray) (heap : Heap) (index : Nat) : Except HeapError Handle := do
  let length ← array.length heap
  if index < length then array.backing heap
  else throw (.indexOutOfRange index length)

/-- The element at an index. -/
def get (array : RefArray) (heap : Heap) (index : Nat) : Except HeapError (Option Handle) := do
  let backing ← array.backingAt heap index
  heap.runGet backing index

/-- Replace the element at an index. -/
def set (array : RefArray) (index : Nat) (value : Option Handle) : HeapM Unit := do
  let backing ← HeapM.ask fun heap => array.backingAt heap index
  Heap.runSet backing index value

/-- Move the elements of a full array into a new run of twice the capacity. -/
def grow (array : RefArray) (length : UInt64) : HeapM Unit := do
  let oldCapacity ← HeapM.ask array.capacityWord
  let capacity := max (oldCapacity * 2) minCapacity
  let grown ← Heap.allocVector capacity.toNat
  if 0 < length then
    let old ← HeapM.ask array.backing
    Heap.copyRun old grown length.toNat
  Heap.writeRef array.handle backingOffset (some grown)
  Heap.writeWord array.handle capacityOffset capacity
  Heap.release grown
  modify fun heap => { heap with
    counters := { heap.counters with
      arrayReallocations := heap.counters.arrayReallocations + 1 } }

/-- Append an element, growing a full array first.  The element survives a collection that the
growth sets off. -/
def push (array : RefArray) (value : Option Handle) : HeapM Unit := do
  let length ← HeapM.ask array.lengthWord
  let capacity ← HeapM.ask array.capacityWord
  if length = capacity then
    Heap.withHeld (array.handle :: value.toList) (array.grow length)
  let backing ← HeapM.ask array.backing
  Heap.runSet backing length.toNat value
  Heap.writeWord array.handle lengthOffset (length + 1)

/-- Remove the last element.  Its slot becomes absent, so that the spare room keeps nothing
alive. -/
def pop (array : RefArray) : HeapM (Option Handle) := do
  let length ← HeapM.ask array.lengthWord
  if length = 0 then throw (.indexOutOfRange 0 0)
  else
    let last := length - 1
    let backing ← HeapM.ask array.backing
    let value ← HeapM.ask fun heap => heap.runGet backing last.toNat
    Heap.runSet backing last.toNat none
    Heap.writeWord array.handle lengthOffset last
    return value

/-- Make the elements of a run from `index` on absent, `count` of them. -/
def eraseFrom (backing : Handle) (index : Nat) : Nat → HeapM Unit
  | 0 => return ()
  | count + 1 => do
      Heap.runSet backing index none
      eraseFrom backing (index + 1) count

/-- Remove every element and keep the capacity. -/
def clear (array : RefArray) : HeapM Unit := do
  let length ← HeapM.ask array.length
  if 0 < length then
    let backing ← HeapM.ask array.backing
    eraseFrom backing 0 length
  Heap.writeWord array.handle lengthOffset 0

/-- The elements of a run from `index` on, `count` of them. -/
def elementsFrom (heap : Heap) (backing : Handle) (index : Nat) :
    Nat → Except HeapError (List (Option Handle))
  | 0 => .ok []
  | count + 1 => do
      let element ← heap.runGet backing index
      let rest ← elementsFrom heap backing (index + 1) count
      return element :: rest

/-- The elements in index order. -/
def toList (array : RefArray) (heap : Heap) : Except HeapError (List (Option Handle)) := do
  let length ← array.length heap
  if length = 0 then return []
  else
    let backing ← array.backing heap
    elementsFrom heap backing 0 length

end RefArray

end CompactingHeap
