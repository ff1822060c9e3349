import CompactingHeap.Heap.Collection

/-!
# Allocation

An allocation first tries the current slab.  If the object does not fit, the heap collects when that
pays: when much of the memory in use may be garbage, or when a further slab would leave too little
room to relocate the survivors later.  Then it tries again, and at last acquires a slab.
-/

namespace CompactingHeap

namespace Heap

/-- Would a slab for `size` bytes leave too little room under the limit to relocate the survivors of
the last collection? -/
def nearLimit (heap : Heap) (size : Nat) : Bool :=
  let relocation := heap.allocator.slabSize heap.counters.liveBytes
  match checkedAdd (heap.allocator.slabSize size) relocation with
  | some needed => heap.allocator.available < needed
  | none => true

/-- Should an allocation of `size` bytes that does not fit collect first? -/
def shouldCollect (heap : Heap) (size : Nat) : Bool :=
  let used := heap.usedBytes
  if used = 0 then false
  else
    (heap.threshold ≤ used && heap.config.aboveHighWater used heap.slabBytes) ||
      heap.nearLimit size

/-- Reserve room in the current slab, if it is there. -/
def bump? (layout : Layout) : HeapM (Option Place) := do
  let heap ← get
  match heap.space.bump? layout with
  | some (place, space) =>
      set { heap with space }
      return some place
  | none => return none

/-- Acquire a slab and reserve room in it. -/
def grow (layout : Layout) : HeapM Place := do
  let heap ← get
  match heap.space.extend heap.allocator layout with
  | (.ok (place, space), allocator) =>
      set { heap with space, allocator }
      return place
  | (.error error, allocator) =>
      set { heap with allocator }
      throw error

/-- Collect, and tell whether it makes sense to try the current slab again.  A collection that finds
no room to relocate is no failure here, because a new slab may still fit. -/
def collectForRoom : HeapM Bool := do
  match ← HeapM.attempt collect with
  | .ok () => return true
  | .error (.outOfMemory ..) => return false
  | .error error => throw error

/-- Reserve room for an object, collecting first if that pays. -/
def reserve (layout : Layout) : HeapM Place := do
  match ← bump? layout with
  | some place => return place
  | none =>
      if (← get).shouldCollect layout.size then
        if ← collectForRoom then
          match ← bump? layout with
          | some place => return place
          | none => grow layout
        else grow layout
      else grow layout

/-- Put an object at the place reserved for it, and mint a handle that holds it once. -/
def settle (place : Place) (object : HeapObject) : HeapM Handle := do
  let address := (← get).space.nextAddress
  let handle ← onHandles fun handles => handles.mint address
  modify fun heap => { heap with
    space := heap.space.add place { object with owner := handle.index }
    counters := { heap.counters with
      objectsAllocated := heap.counters.objectsAllocated + 1
      bytesAllocated := heap.counters.bytesAllocated + object.layout.size } }
  return handle

/-- The failure of an object that no memory can hold. -/
def tooLarge (heap : Heap) : HeapError :=
  .outOfMemory maxWord heap.config.maxHeapBytes

/-- Allocate an instance of a class with `extra` tail elements and hold it once.  Its words and
bytes are zero and its references absent. -/
def allocate (id : ClassId) (extra : Nat) : HeapM Handle := do
  let descriptor ← HeapM.ask fun heap => heap.classes.get id
  if 2 ^ 32 ≤ extra then throw (← get).tooLarge
  else
    match laidOut : Layout.of? descriptor extra.toUInt32.toNat with
    | none => throw (← get).tooLarge
    | some layout =>
        let place ← reserve layout
        settle place (Object.fresh descriptor extra.toUInt32 layout laidOut)

/-- Allocate an instance of a class with a byte tail that holds the given bytes. -/
def allocateBytes (id : ClassId) (bytes : Bytes) : HeapM Handle := do
  let descriptor ← HeapM.ask fun heap => heap.classes.get id
  if descriptor.tail = .bytes then
    let handle ← allocate id bytes.length
    modify fun heap => heap.modifyObject handle fun object => object.setTail bytes
    return handle
  else throw (.invalidField id descriptor.size)

/-- Allocate a run of `length` absent references. -/
def allocVector (length : Nat) : HeapM Handle :=
  allocate .vector length

end Heap

end CompactingHeap
