import CompactingHeap.Heap.Basic

/-!
# Fields

Objects are read and written through handles.  A single reference is addressed by its payload
offset, an element of a run by its index, and plain data by the offset of a word.  An access is
checked against the class of the object, so it never meets a slot of another kind.
-/

namespace CompactingHeap

namespace Heap

/-- Does the handle name a live object? -/
def isLive (heap : Heap) (handle : Handle) : Bool :=
  heap.handles.isLive handle

/-- The class of the object that a handle names. -/
def classOf (heap : Heap) (handle : Handle) : Except HeapError ClassId :=
  (heap.objectOf handle).map fun object => object.descriptor.id

/-- The descriptor of the object that a handle names. -/
def descriptorOf (heap : Heap) (handle : Handle) : Except HeapError Descriptor :=
  (heap.objectOf handle).map Object.descriptor

/-- The tail elements that the object was allocated with. -/
def tailLength (heap : Heap) (handle : Handle) : Except HeapError Nat :=
  (heap.objectOf handle).map fun object => object.extra.toNat

/-- The offset of the payload in its slab. -/
def payloadOffset (heap : Heap) (handle : Handle) : Except HeapError Nat :=
  (heap.residentOf handle).map fun found =>
    found.2.place.offset + found.2.object.layout.payload

/-- The object that a handle names, if it is an instance of the given class. -/
def expect (heap : Heap) (handle : Handle) (id : ClassId) : Except HeapError HeapObject := do
  let object ← heap.objectOf handle
  if object.descriptor.id = id then return object
  else
    let expected ← heap.classes.get id
    throw (.wrongType expected.name object.descriptor.name)

/-- The handle that names the object at an address now. -/
def handleOf? (heap : Heap) (address : Address) : Option Handle :=
  (heap.space.object? address).bind fun object => heap.handles.handleAt? object.owner

/-- The address of an optional reference. -/
def addressOf (heap : Heap) : Option Handle → Except HeapError (Option Address)
  | some handle => (heap.handles.resolve handle).map some
  | none => .ok none

/-- The object that a handle names, if it has a single reference at this offset. -/
def withRefField (heap : Heap) (handle : Handle) (offset : Nat) : Except HeapError HeapObject := do
  let object ← heap.objectOf handle
  if object.descriptor.isRefField offset then return object
  else throw (.invalidField object.descriptor.id offset)

/-- The object that a handle names, if it has plain data at this offset. -/
def withDataWord (heap : Heap) (handle : Handle) (offset : Nat) : Except HeapError HeapObject := do
  let object ← heap.objectOf handle
  if object.descriptor.isDataWord offset then return object
  else throw (.invalidField object.descriptor.id offset)

/-- Read the reference at an offset. -/
def readRef (heap : Heap) (handle : Handle) (offset : Nat) : Except HeapError (Option Handle) := do
  let object ← heap.withRefField handle offset
  return (object.slot offset).bind heap.handleOf?

/-- Write the reference at an offset. -/
def writeRef (handle : Handle) (offset : Nat) (value : Option Handle) : HeapM Unit := do
  let _ ← HeapM.ask fun heap => heap.withRefField handle offset
  let target ← HeapM.ask fun heap => heap.addressOf value
  modify fun heap => heap.modifyObject handle fun object => object.setSlot offset target

/-- Read the plain word at an offset. -/
def readWord (heap : Heap) (handle : Handle) (offset : Nat) : Except HeapError UInt64 := do
  let object ← heap.withDataWord handle offset
  return object.word offset

/-- Write the plain word at an offset. -/
def writeWord (handle : Handle) (offset : Nat) (value : UInt64) : HeapM Unit := do
  let _ ← HeapM.ask fun heap => heap.withDataWord handle offset
  modify fun heap => heap.modifyObject handle fun object => object.setWord offset value

/-- The object that a handle names and the offset of the length word of its run. -/
def runOf (heap : Heap) (handle : Handle) : Except HeapError (HeapObject × Nat) := do
  let object ← heap.objectOf handle
  match object.descriptor.runOffset? with
  | some offset => return (object, offset)
  | none => throw (.invalidField object.descriptor.id object.descriptor.size)

/-- The payload offset of an element of a run whose length word is at `offset`. -/
def runSlot (offset index : Nat) : Nat :=
  offset + wordBytes * (index + 1)

/-- The length of the run of an object. -/
def runLength (heap : Heap) (handle : Handle) : Except HeapError Nat :=
  (heap.runOf handle).map fun found => found.1.runLength

/-- The object that a handle names and the payload offset of an element of its run. -/
def runElement (heap : Heap) (handle : Handle) (index : Nat) :
    Except HeapError (HeapObject × Nat) := do
  let (object, offset) ← heap.runOf handle
  if index < object.runLength then return (object, runSlot offset index)
  else throw (.indexOutOfRange index object.runLength)

/-- Read an element of the run of an object. -/
def runGet (heap : Heap) (handle : Handle) (index : Nat) : Except HeapError (Option Handle) := do
  let (object, offset) ← heap.runElement handle index
  return (object.slot offset).bind heap.handleOf?

/-- Write an element of the run of an object. -/
def runSet (handle : Handle) (index : Nat) (value : Option Handle) : HeapM Unit := do
  let (_, offset) ← HeapM.ask fun heap => heap.runElement handle index
  let target ← HeapM.ask fun heap => heap.addressOf value
  modify fun heap => heap.modifyObject handle fun object => object.setSlot offset target

/-- Copy the first `count` elements of one run into another. -/
def copyRun (source target : Handle) (count : Nat) : HeapM Unit := do
  let (sourceObject, sourceOffset) ← HeapM.ask fun heap => heap.runOf source
  let (targetObject, targetOffset) ← HeapM.ask fun heap => heap.runOf target
  let shorter := min sourceObject.runLength targetObject.runLength
  if shorter < count then throw (.indexOutOfRange count shorter)
  else
    modify fun heap => heap.modifyObject target fun object =>
      (List.range count).foldl
        (fun copy index =>
          copy.setSlot (runSlot targetOffset index)
            (sourceObject.slot (runSlot sourceOffset index)))
        object

/-- The byte tail of an object. -/
def bytes (heap : Heap) (handle : Handle) : Except HeapError Bytes := do
  let object ← heap.objectOf handle
  if object.descriptor.tail = .bytes then return object.tail
  else throw (.invalidField object.descriptor.id object.descriptor.size)

/-- The plain payload bytes of an object from an offset on. -/
def peek (heap : Heap) (handle : Handle) (offset length : Nat) : Except HeapError Bytes :=
  (heap.objectOf handle).map fun object => object.peek offset length

/-- Replace plain payload bytes of an object from an offset on. -/
def poke (handle : Handle) (offset : Nat) (values : Bytes) : HeapM Unit := do
  let _ ← HeapM.ask fun heap => heap.objectOf handle
  modify fun heap => heap.modifyObject handle fun object => object.poke offset values

end Heap

end CompactingHeap
