import CompactingHeap.Heap.Fields

/-!
# Verification

A heap checks itself: every handle names an object in the active slabs that names the handle back,
no object carries what a collection leaves behind, and every reference is absent or leads to such
an object.
-/

namespace CompactingHeap

namespace Heap

/-- Does a place lie in an active slab, aligned to a word? -/
def holdsPlace (heap : Heap) (place : Place) : Bool :=
  place.offset % wordBytes = 0 &&
    heap.space.slabs.any fun slab => slab.serial = place.slab && slab.region.contains place.offset

/-- Is there an object at the address, not forwarded, whose owning slot leads back to the
address? -/
def pointsAtObject (heap : Heap) (address : Address) : Bool :=
  match heap.space.resident? address with
  | none => false
  | some ⟨place, object⟩ =>
      heap.holdsPlace place && object.forward.isNone &&
        (match heap.handles.handleAt? object.owner with
         | some handle => (heap.handles.resolve handle).toOption = some address
         | none => false)

/-- The first reference of an object that leads to no live object. -/
def danglingSlot? (heap : Heap) (object : HeapObject) : Option (Nat × Address) :=
  object.slotOffsets.findSome? fun offset =>
    match object.slot offset with
    | some target => if heap.pointsAtObject target then none else some (offset, target)
    | none => none

/-- What is wrong with a live slot, if anything. -/
def damageOf? (heap : Heap) (index : UInt32) (address : Address) : Option Damage :=
  match heap.space.object? address with
  | none => some (.strayHandle index address)
  | some object =>
      if !heap.pointsAtObject address then some (.strayHandle index address)
      else if object.owner ≠ index then some (.wrongOwner address object.owner index)
      else if object.flags ≠ 0 then some (.leftoverFlags address object.flags)
      else
        (heap.danglingSlot? object).map fun (offset, target) =>
          .danglingSlot object.descriptor.name address offset target

/-- Accept the heap, or tell the first damage. -/
def verify (heap : Heap) : Except HeapError Unit :=
  match heap.handles.occupied.findSome? fun (index, address) => heap.damageOf? index address with
  | some damage => .error (.corrupt damage)
  | none => .ok ()

end Heap

end CompactingHeap
