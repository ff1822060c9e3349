import CompactingHeap.Interner
import CompactingHeap.Layout

/-!
# Objects

An object is an instance of a class with a number of tail elements.  Its header names the handle
slot that owns it and carries the marks that a collection leaves: flags, and where the object was
copied to.  Its payload is kept by kind: plain words, reference slots, and the byte tail.  Words
and slots are addressed by their byte offset into the payload; a slot never holds plain data and a
word never holds a reference, so the two never meet.

Objects do not look at the addresses in their slots, so they work for any type of them.
-/

namespace CompactingHeap

/-- The flag of an object that the present collection has found reachable. -/
def markedFlag : UInt32 := 1

/-- The flag of a copy whose handle has not been looked at since it was made. -/
def relocatedFlag : UInt32 := 2

/-- Whole and partial words in the fixed part. -/
def Descriptor.wordCount (descriptor : Descriptor) : Nat :=
  (descriptor.size + (wordBytes - 1)) / wordBytes

/-- Word positions that can hold references, in the fixed part and in a run of `extra` slots. -/
def Descriptor.slotCount (descriptor : Descriptor) (extra : Nat) : Nat :=
  descriptor.size / wordBytes + (if descriptor.tail = .references then extra else 0)

/-- Bytes in the tail. -/
def Descriptor.tailBytes (descriptor : Descriptor) (extra : Nat) : Nat :=
  if descriptor.tail = .bytes then extra else 0

/-- An instance of a class.  The last four fields say that it has the layout of its class, and that
its payload has the shape that the class gives it. -/
structure Object (α : Type) where
  descriptor : Descriptor
  extra : UInt32
  layout : Layout
  owner : UInt32
  flags : UInt32
  forward : Option α
  words : Array UInt64
  slots : Array (Option α)
  tail : Bytes
  laidOut : Layout.of? descriptor extra.toNat = some layout
  words_size : words.size = descriptor.wordCount
  slots_size : slots.size = descriptor.slotCount extra.toNat
  tail_length : tail.length = descriptor.tailBytes extra.toNat

namespace Object

variable {α : Type}

/-- A blank instance: all words and bytes are zero and all references are absent. -/
def blank (descriptor : Descriptor) (extra : UInt32) (layout : Layout)
    (laidOut : Layout.of? descriptor extra.toNat = some layout) : Object α :=
  { descriptor, extra, layout, laidOut
    owner := 0
    flags := 0
    forward := none
    words := Array.replicate descriptor.wordCount 0
    slots := Array.replicate (descriptor.slotCount extra.toNat) none
    tail := List.replicate (descriptor.tailBytes extra.toNat) 0
    words_size := Array.size_replicate
    slots_size := Array.size_replicate
    tail_length := List.length_replicate }

/-- Has the present collection found the object reachable? -/
def isMarked (object : Object α) : Bool :=
  object.flags &&& markedFlag != 0

/-- Set the mark. -/
def mark (object : Object α) : Object α :=
  { object with flags := object.flags ||| markedFlag }

/-- Take back what a collection left in the header. -/
def unmark (object : Object α) : Object α :=
  { object with flags := object.flags &&& ~~~markedFlag, forward := none }

/-- A copy with the given flags that has not been forwarded. -/
def copyWith (object : Object α) (flags : UInt32) : Object α :=
  { object with flags := flags, forward := none }

/-- The plain word at a payload offset. -/
def word (object : Object α) (offset : Nat) : UInt64 :=
  object.words.getD (offset / wordBytes) 0

/-- Replace the plain word at a payload offset. -/
def setWord (object : Object α) (offset : Nat) (value : UInt64) : Object α :=
  { object with
    words := object.words.setIfInBounds (offset / wordBytes) value
    words_size := by simp [object.words_size] }

/-- The reference in the slot at a payload offset. -/
def slot (object : Object α) (offset : Nat) : Option α :=
  object.slots.getD (offset / wordBytes) none

/-- Replace the reference in the slot at a payload offset. -/
def setSlot (object : Object α) (offset : Nat) (target : Option α) : Object α :=
  { object with
    slots := object.slots.setIfInBounds (offset / wordBytes) target
    slots_size := by simp [object.slots_size] }

/-- A word that lies in the fixed part reads as it was written. -/
theorem word_setWord_self (object : Object α) {offset : Nat} (value : UInt64)
    (inside : offset / wordBytes < object.descriptor.wordCount) :
    (object.setWord offset value).word offset = value := by
  simp [word, setWord, object.words_size, inside, Array.getD_eq_getD_getElem?]

theorem word_setWord_of_ne (object : Object α) {offset other : Nat} (value : UInt64)
    (apart : offset / wordBytes ≠ other / wordBytes) :
    (object.setWord offset value).word other = object.word other := by
  simp [word, setWord, Array.getD_eq_getD_getElem?, apart]

/-- A slot that the object has reads as it was written. -/
theorem slot_setSlot_self (object : Object α) {offset : Nat} (target : Option α)
    (inside : offset / wordBytes < object.descriptor.slotCount object.extra.toNat) :
    (object.setSlot offset target).slot offset = target := by
  simp [slot, setSlot, object.slots_size, inside, Array.getD_eq_getD_getElem?]

theorem slot_setSlot_of_ne (object : Object α) {offset other : Nat} (target : Option α)
    (apart : offset / wordBytes ≠ other / wordBytes) :
    (object.setSlot offset target).slot other = object.slot other := by
  simp [slot, setSlot, Array.getD_eq_getD_getElem?, apart]

/-- Plain data and references are kept apart. -/
@[simp]
theorem slot_setWord (object : Object α) (offset other : Nat) (value : UInt64) :
    (object.setWord offset value).slot other = object.slot other :=
  rfl

@[simp]
theorem word_setSlot (object : Object α) (offset other : Nat) (target : Option α) :
    (object.setSlot offset target).word other = object.word other :=
  rfl

@[simp]
theorem word_blank (descriptor : Descriptor) (extra : UInt32) (layout : Layout)
    (laidOut : Layout.of? descriptor extra.toNat = some layout) (offset : Nat) :
    (blank descriptor extra layout laidOut : Object α).word offset = 0 := by
  simp only [word, blank, Array.getD_eq_getD_getElem?, Array.getElem?_replicate]
  split <;> rfl

@[simp]
theorem slot_blank (descriptor : Descriptor) (extra : UInt32) (layout : Layout)
    (laidOut : Layout.of? descriptor extra.toNat = some layout) (offset : Nat) :
    (blank descriptor extra layout laidOut : Object α).slot offset = none := by
  simp only [slot, blank, Array.getD_eq_getD_getElem?, Array.getElem?_replicate]
  split <;> rfl

/-- Replace the byte tail by bytes of the same number; other bytes are not accepted. -/
def setTail (object : Object α) (bytes : Bytes) : Object α :=
  if same : bytes.length = object.tail.length then
    { object with tail := bytes, tail_length := same.trans object.tail_length }
  else object

/-- The length of the run as the object itself records it, zero for a class without a run. -/
def runLength (object : Object α) : Nat :=
  match object.descriptor.runOffset? with
  | some offset => (object.word offset).toNat
  | none => 0

@[simp]
theorem runLength_setSlot (object : Object α) (offset : Nat) (target : Option α) :
    (object.setSlot offset target).runLength = object.runLength :=
  rfl

/-- A blank instance whose run, if it has one, records its length. -/
def fresh (descriptor : Descriptor) (extra : UInt32) (layout : Layout)
    (laidOut : Layout.of? descriptor extra.toNat = some layout) : Object α :=
  let object := blank descriptor extra layout laidOut
  match descriptor.runOffset? with
  | some offset => object.setWord offset extra.toUInt64
  | none => object

/-- The offsets of the reference slots, in trace order. -/
def slotOffsets (object : Object α) : List Nat :=
  object.descriptor.slotOffsets object.runLength

@[simp]
theorem slotOffsets_setSlot (object : Object α) (offset : Nat) (target : Option α) :
    (object.setSlot offset target).slotOffsets = object.slotOffsets :=
  rfl

/-- The references that the object holds, in trace order. -/
def targets (object : Object α) : List α :=
  object.slotOffsets.filterMap object.slot

/-- Send every reference that the object holds through a map of addresses. -/
def redirect (object : Object α) (f : α → Option α) : Object α :=
  object.slotOffsets.foldl (fun o offset => o.setSlot offset ((o.slot offset).bind f)) object

/-- The byte at an offset into the fixed part. -/
def fixedByte (object : Object α) (offset : Nat) : UInt8 :=
  byteOfWord (object.word offset) (offset % wordBytes)

/-- Replace bytes of the fixed part from an offset on. -/
def pokeFixed (object : Object α) (offset : Nat) : Bytes → Object α
  | [] => object
  | value :: rest =>
      let word := setByteOfWord (object.word offset) (offset % wordBytes) value
      (object.setWord offset word).pokeFixed (offset + 1) rest

/-- Replace bytes of the byte tail from a position on. -/
def pokeTail (object : Object α) (start : Nat) (values : Bytes) : Object α :=
  { object with
    tail := object.tail.overwrite start values
    tail_length := by simp [object.tail_length] }

/-- The plain bytes from a payload offset on: those of the fixed part, then those of the byte tail.
Behind them the payload reads as zero. -/
def peek (object : Object α) (offset length : Nat) : Bytes :=
  let size := object.descriptor.size
  let fixed := min length (size - offset)
  let tail := (object.tail.drop (offset - size)).take (length - fixed)
  ((List.range fixed).map fun index => object.fixedByte (offset + index)) ++
    tail.rightpad (length - fixed) 0

/-- Replace the plain bytes from a payload offset on, in the fixed part and then in the byte
tail. -/
def poke (object : Object α) (offset : Nat) (values : Bytes) : Object α :=
  let size := object.descriptor.size
  let fixed := size - offset
  (object.pokeFixed offset (values.take fixed)).pokeTail (offset - size) (values.drop fixed)

end Object

end CompactingHeap
