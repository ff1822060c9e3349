import CompactingHeap.Address
import CompactingHeap.Binary.Shortest
import CompactingHeap.Class.Id
import CompactingHeap.Handle.Basic
import CompactingHeap.Word

/-!
# Why an operation fails

Every failure is a cause with the facts that belong to it.  The wording of all causes stands here,
so that no other module writes a message.
-/

namespace CompactingHeap

/-- What is wrong with the description of a class. -/
inductive DescriptorFlaw where
  | nameSegments
  | alignment (align : Nat)
  | entryCount (count : Nat)
  | referenceAlignment
  | unaligned (offset : Nat)
  | outside (offset size : Nat)
  | repeated (offset : Nat)
  | secondTail
  | runNotLast (offset : Nat)
deriving DecidableEq, Repr

/-- What is wrong with the settings of a heap. -/
inductive ConfigFlaw where
  | slabBytes (bytes : Nat)
  | maxHeapBytes (bytes slab : Nat)
  | highWater (value : Binary)
  | growthFactor (value : Binary)
  | tableLoadFactor (value : Binary)
  | tableInitialCapacity (capacity : Nat)
deriving DecidableEq, Repr

/-- What is wrong with the contents of a heap. -/
inductive Damage where
  | invalidChar (code : UInt32) (handle : Handle)
  | missingBacking (array : Handle)
  | missingBuckets (table : Handle)
  | missingValue (table : Handle)
  | repeatedKey (table : Handle)
  | strayHandle (index : UInt32) (address : Address)
  | wrongOwner (address : Address) (owner index : UInt32)
  | leftoverFlags (address : Address) (flags : UInt32)
  | danglingSlot (className : String) (address : Address) (offset : Nat) (target : Address)
deriving DecidableEq, Repr

/-- A broken rule of the heap itself or of its use: an identifier that no registry gave out, or a
state that no sequence of operations should lead to. -/
inductive Fault where
  | unknownClass (id : ClassId)
  | missingObject (address : Address)
  | occupiedFreeSlot (index : UInt32)
  | vacantSlot (index : UInt32)
  | keyAppeared (table : Handle)
  | endlessProbe
deriving DecidableEq, Repr

/-- The ways in which an operation fails. -/
inductive HeapError where
  | staleHandle (handle : Handle)
  | outOfSlab (requested available : Nat)
  | outOfMemory (requested limit : Nat)
  | duplicateType (name : String)
  | notFound (name : String)
  | invalidDescriptor (name : String) (flaw : DescriptorFlaw)
  | indexOutOfRange (index length : Nat)
  | wrongType (expected found : String)
  | notRooted (handle : Handle)
  | invalidField (id : ClassId) (offset : Nat)
  | invalidConfig (flaw : ConfigFlaw)
  | corrupt (damage : Damage)
  | fault (fault : Fault)
deriving DecidableEq, Repr

/-- A natural number in lower-case hexadecimal digits. -/
def hexText (n : Nat) : String :=
  "0x" ++ String.ofList (Nat.toDigits 16 n)

/-- The wording of a flaw in a class description. -/
def DescriptorFlaw.message : DescriptorFlaw → String
  | nameSegments => "name must be dot separated, non-empty segments"
  | alignment align => s!"alignment {align} must be a power of two up to {pageBytes}"
  | entryCount count => s!"{count} trace entries, at most 32 allowed"
  | referenceAlignment => s!"classes with references need alignment of at least {wordBytes}"
  | unaligned offset => s!"offset {offset} is not word aligned"
  | outside offset size => s!"offset {offset} lies outside size {size}"
  | repeated offset => s!"offset {offset} appears twice"
  | secondTail => "only one reference run or byte tail is allowed"
  | runNotLast offset => s!"reference run at {offset} must be the last word"

/-- The wording of a flaw in the settings. -/
def ConfigFlaw.message : ConfigFlaw → String
  | slabBytes bytes => s!"slab_bytes ({bytes}) must be a positive multiple of {pageBytes}"
  | maxHeapBytes bytes slab => s!"max_heap_bytes ({bytes}) is smaller than one slab ({slab})"
  | highWater value =>
      "high_water (" ++ Binary.Format.single.text value ++ ") must be in (0, 1]"
  | growthFactor value =>
      "growth_factor (" ++ Binary.Format.single.text value ++ ") must be at least 1"
  | tableLoadFactor value =>
      "table_load_factor (" ++ Binary.Format.single.text value ++ ") must be in (0, 1)"
  | tableInitialCapacity capacity =>
      s!"table_initial_capacity ({capacity}) must be a power of two"

/-- The wording of damage to the heap. -/
def Damage.message : Damage → String
  | invalidChar code handle => "invalid char " ++ hexText code.toNat ++ s!" in {handle}"
  | missingBacking array => s!"array {array} has slots but no backing"
  | missingBuckets table => s!"table {table} has no buckets"
  | missingValue table => s!"table {table} has a key without a value"
  | repeatedKey table => s!"table {table} holds a key twice"
  | strayHandle index address =>
      s!"handle slot {index} points at {address}, which is not a live object"
  | wrongOwner address owner index => s!"object at {address} belongs to slot {owner}, not {index}"
  | leftoverFlags address flags =>
      s!"object at {address} still has flags " ++ hexText flags.toNat
  | danglingSlot className address offset target =>
      s!"{className} at {address}: slot {offset} dangles to {target}"

/-- The wording of a broken rule. -/
def Fault.message : Fault → String
  | unknownClass id => s!"{id} was never registered"
  | missingObject address => s!"no object at {address}"
  | occupiedFreeSlot index => s!"live slot {index} on the free list"
  | vacantSlot index => s!"slot {index} is vacant"
  | keyAppeared table => s!"a key appeared while table {table} was resized"
  | endlessProbe => "no vacant bucket ends the probe"

/-- The wording of a failure. -/
def HeapError.message : HeapError → String
  | staleHandle handle => s!"stale handle {handle}"
  | outOfSlab requested available =>
      s!"slab exhausted: requested {requested} bytes, {available} available"
  | outOfMemory requested limit =>
      s!"out of memory: requested {requested} bytes with a {limit} byte heap limit"
  | duplicateType name => s!"type {name} is already registered"
  | notFound name => s!"type {name} not found"
  | invalidDescriptor name flaw => s!"invalid descriptor for {name}: " ++ flaw.message
  | indexOutOfRange index length => s!"index {index} out of range for length {length}"
  | wrongType expected found => s!"expected an instance of {expected}, found {found}"
  | notRooted handle => s!"handle {handle} is not rooted"
  | invalidField id offset => s!"offset {offset} is not a valid field of class {id}"
  | invalidConfig flaw => "invalid heap configuration: " ++ flaw.message
  | corrupt damage => "heap corrupted: " ++ damage.message
  | fault broken => "broken rule: " ++ broken.message

end CompactingHeap
