import CompactingHeap.Heap.Allocation
import CompactingHeap.Heap.Holds

/-!
# Built-in values

Integers, floating-point numbers, truth values and characters are objects with one word of data.
Floating-point numbers are kept and compared by their bits.  A pair has two references, and a string
is a byte tail.
-/

namespace CompactingHeap

namespace Heap

/-- Allocate an object with one word of data. -/
def allocScalar (id : ClassId) (word : UInt64) : HeapM Handle := do
  let handle ← allocate id 0
  modify fun heap => heap.modifyObject handle fun object => object.setWord 0 word
  return handle

/-- The word of data of an instance of the given class. -/
def scalar (heap : Heap) (handle : Handle) (id : ClassId) : Except HeapError UInt64 :=
  (heap.expect handle id).map fun object => object.word 0

/-- Allocate an integer. -/
def allocInt (value : Int64) : HeapM Handle :=
  allocScalar .int value.toUInt64

/-- The value of an integer. -/
def int (heap : Heap) (handle : Handle) : Except HeapError Int64 :=
  (heap.scalar handle .int).map UInt64.toInt64

/-- Allocate a floating-point number given by its bits. -/
def allocFloat (bits : UInt64) : HeapM Handle :=
  allocScalar .float bits

/-- The bits of a floating-point number. -/
def float (heap : Heap) (handle : Handle) : Except HeapError UInt64 :=
  heap.scalar handle .float

/-- Allocate a truth value. -/
def allocBool (value : Bool) : HeapM Handle :=
  allocScalar .bool (if value then 1 else 0)

/-- A truth value, which takes one byte; every byte but zero is true. -/
def bool (heap : Heap) (handle : Handle) : Except HeapError Bool :=
  (heap.scalar handle .bool).map fun word => word.toUInt8 != 0

/-- Allocate a character. -/
def allocChar (value : Char) : HeapM Handle :=
  allocScalar .char value.val.toUInt64

/-- A character, kept as a 32-bit code point.  Not every code is one. -/
def char (heap : Heap) (handle : Handle) : Except HeapError Char := do
  let code := (← heap.scalar handle .char).toUInt32
  if valid : code.isValidChar then return ⟨code, valid⟩
  else throw (.corrupt (.invalidChar code handle))

/-- Allocate a string that is not interned. -/
def allocString (bytes : Bytes) : HeapM Handle :=
  allocateBytes .string bytes

/-- Allocate a pair.  Both parts survive a collection that the allocation sets off. -/
def cons (car cdr : Option Handle) : HeapM Handle := do
  let cell ← withHeld (car.toList ++ cdr.toList) (allocate .cons 0)
  writeRef cell 0 car
  writeRef cell wordBytes cdr
  return cell

/-- Check that an object is a pair and read the reference at an offset. -/
def readPair (heap : Heap) (cell : Handle) (offset : Nat) : Except HeapError (Option Handle) := do
  let _ ← heap.expect cell .cons
  heap.readRef cell offset

/-- Check that an object is a pair and write the reference at an offset. -/
def writePair (cell : Handle) (offset : Nat) (value : Option Handle) : HeapM Unit := do
  let _ ← HeapM.ask fun heap => heap.expect cell .cons
  writeRef cell offset value

/-- The first part of a pair. -/
def car (heap : Heap) (cell : Handle) : Except HeapError (Option Handle) :=
  heap.readPair cell 0

/-- The second part of a pair. -/
def cdr (heap : Heap) (cell : Handle) : Except HeapError (Option Handle) :=
  heap.readPair cell wordBytes

/-- Replace the first part of a pair. -/
def setCar (cell : Handle) (value : Option Handle) : HeapM Unit :=
  writePair cell 0 value

/-- Replace the second part of a pair. -/
def setCdr (cell : Handle) (value : Option Handle) : HeapM Unit :=
  writePair cell wordBytes value

end Heap

end CompactingHeap
