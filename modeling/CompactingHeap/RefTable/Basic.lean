import CompactingHeap.RefArray
import CompactingHeap.RefTable.Key

/-!
# Hash tables

A table is an object of three words: the number of its entries, the number of its buckets, and a
reference to an array that holds the key and the value of every bucket one after the other.  A key
goes into its home bucket or, if that is taken, into the next vacant one, around the end of the
array.  A removal shifts later entries back, so that no vacant bucket ever lies between the home of
a key and the key.  Any hash function of keys will do, as long as a table is always used with the
same one.
-/

namespace CompactingHeap

/-- A handle that is known to name a table. -/
structure RefTable where
  handle : Handle
deriving DecidableEq, Repr

/-- Where a probe ends: at the bucket of an equal key, or at a vacant bucket. -/
inductive Probe where
  | found (index : UInt64)
  | vacant (index : UInt64)
deriving DecidableEq, Repr

namespace RefTable

/-- The offset of the number of entries. -/
def countOffset : Nat := 0

/-- The offset of the number of buckets. -/
def capacityOffset : Nat := wordBytes

/-- The offset of the reference to the bucket array. -/
def bucketsOffset : Nat := 2 * wordBytes

/-- The position of the key of a bucket in the bucket array. -/
def keyIndex (bucket : UInt64) : Nat :=
  (2 * bucket).toNat

/-- The position of the value of a bucket in the bucket array. -/
def valueIndex (bucket : UInt64) : Nat :=
  (2 * bucket + 1).toNat

/-- The table that a handle names. -/
def ofHandle (heap : Heap) (handle : Handle) : Except HeapError RefTable := do
  let _ ← heap.expect handle .hashtable
  return ⟨handle⟩

/-- The number of entries, as a word. -/
def countWord (table : RefTable) (heap : Heap) : Except HeapError UInt64 :=
  heap.readWord table.handle countOffset

/-- The number of entries. -/
def count (table : RefTable) (heap : Heap) : Except HeapError Nat :=
  (table.countWord heap).map UInt64.toNat

/-- Has the table no entries? -/
def isEmpty (table : RefTable) (heap : Heap) : Except HeapError Bool :=
  (table.countWord heap).map (· == 0)

/-- The number of buckets, as a word. -/
def capacityWord (table : RefTable) (heap : Heap) : Except HeapError UInt64 :=
  heap.readWord table.handle capacityOffset

/-- The number of buckets. -/
def capacity (table : RefTable) (heap : Heap) : Except HeapError Nat :=
  (table.capacityWord heap).map UInt64.toNat

/-- An empty table with at least `capacity` buckets, rounded up to a power of two, held once. -/
def withCapacity (capacity : Nat) : HeapM RefTable := do
  let capacity := nextPowerOfTwo capacity
  if wordLimit ≤ 2 * capacity then throw (← get).tooLarge
  else
    let handle ← Heap.allocate .hashtable 0
    let buckets ← RefArray.orRelease handle
      (Heap.withHeld [handle] (RefArray.filled (2 * capacity)))
    Heap.writeWord handle capacityOffset capacity.toUInt64
    Heap.writeRef handle bucketsOffset (some buckets.handle)
    Heap.release buckets.handle
    return ⟨handle⟩

/-- An empty table with the number of buckets that the settings name. -/
def new : HeapM RefTable := do
  withCapacity (← get).config.tableInitialCapacity

/-- The bucket array. -/
def buckets (table : RefTable) (heap : Heap) : Except HeapError RefArray := do
  match ← heap.readRef table.handle bucketsOffset with
  | some handle => RefArray.ofHandle heap handle
  | none => throw (.corrupt (.missingBuckets table.handle))

/-- Go from a bucket to the next ones until one is vacant or holds an equal key, at most as many
steps as the last argument says. -/
def probeFrom (heap : Heap) (buckets : RefArray) (mask : UInt64) (key : Handle)
    (index : UInt64) : Nat → Except HeapError Probe
  | 0 => .error (.fault .endlessProbe)
  | steps + 1 => do
      match ← buckets.get heap (keyIndex index) with
      | none => return .vacant index
      | some existing =>
          if ← Key.same heap existing key then return .found index
          else probeFrom heap buckets mask key ((index + 1) &&& mask) steps

/-- The home bucket of a key. -/
def home (heap : Heap) (mask : UInt64) (key : Handle) (hash : Key → UInt64 := Key.hash) :
    Except HeapError UInt64 := do
  let key ← Key.ofHandle heap key
  return hash key &&& mask

/-- Look for a key from its home bucket on.  No bucket is met twice before all have been met. -/
def probe (heap : Heap) (buckets : RefArray) (capacity : UInt64) (key : Handle)
    (hash : Key → UInt64 := Key.hash) : Except HeapError Probe := do
  let mask := capacity - 1
  let start ← home heap mask key hash
  probeFrom heap buckets mask key start (mask.toNat + 1)

/-- The bucket array and the bucket of a key, if the table has it. -/
def find? (table : RefTable) (heap : Heap) (key : Handle) (hash : Key → UInt64 := Key.hash) :
    Except HeapError (Option (RefArray × UInt64)) := do
  let buckets ← table.buckets heap
  let capacity ← table.capacityWord heap
  match ← probe heap buckets capacity key hash with
  | .found index => return some (buckets, index)
  | .vacant _ => return none

/-- The value of a key. -/
def get? (table : RefTable) (heap : Heap) (key : Handle) (hash : Key → UInt64 := Key.hash) :
    Except HeapError (Option Handle) := do
  match ← table.find? heap key hash with
  | some (buckets, index) => buckets.get heap (valueIndex index)
  | none => return none

/-- Has the table a key? -/
def contains (table : RefTable) (heap : Heap) (key : Handle) (hash : Key → UInt64 := Key.hash) :
    Except HeapError Bool :=
  (table.find? heap key hash).map Option.isSome

/-- Put a key and a value into a bucket. -/
def fillBucket (buckets : RefArray) (index : UInt64) (key value : Option Handle) :
    HeapM Unit := do
  buckets.set (keyIndex index) key
  buckets.set (valueIndex index) value

/-- Enter the entries of the old buckets from `index` on, `count` of them, into new buckets. -/
def reinsertFrom (table : RefTable) (old grown : RefArray) (capacity index : UInt64)
    (count : Nat) (hash : Key → UInt64 := Key.hash) : HeapM Unit :=
  match count with
  | 0 => return ()
  | count + 1 => do
      match ← HeapM.ask fun heap => old.get heap (keyIndex index) with
      | none => reinsertFrom table old grown capacity (index + 1) count hash
      | some key =>
          let value ← HeapM.ask fun heap => old.get heap (valueIndex index)
          match ← HeapM.ask fun heap => probe heap grown capacity key hash with
          | .found _ => throw (.corrupt (.repeatedKey table.handle))
          | .vacant slot =>
              fillBucket grown slot (some key) value
              reinsertFrom table old grown capacity (index + 1) count hash

/-- Move the entries into a bucket array for another number of buckets. -/
def resize (table : RefTable) (capacity : UInt64) (hash : Key → UInt64 := Key.hash) :
    HeapM Unit := do
  let oldCapacity ← HeapM.ask table.capacityWord
  let grown ← RefArray.filled (2 * capacity).toNat
  let old ← HeapM.ask table.buckets
  reinsertFrom table old grown capacity 0 oldCapacity.toNat hash
  Heap.writeRef table.handle bucketsOffset (some grown.handle)
  Heap.writeWord table.handle capacityOffset capacity
  Heap.release grown.handle
  modify fun heap => { heap with
    counters := { heap.counters with tableResizes := heap.counters.tableResizes + 1 } }

/-- Grow a table that one more entry would overload.  The table, the key and the value survive a
collection that the growth sets off. -/
def makeRoom (table : RefTable) (count : UInt64) (key value : Handle)
    (hash : Key → UInt64 := Key.hash) : HeapM Unit := do
  let capacity ← HeapM.ask table.capacityWord
  let heap ← get
  if heap.config.overloaded (count + 1).toNat capacity.toNat then
    if wordLimit ≤ capacity.toNat * 2 then throw heap.tooLarge
    else Heap.withHeld [table.handle, key, value] (table.resize (capacity * 2) hash)

/-- Map a key to a value and tell the value that it replaced.  An equal key that the table has
already is kept. -/
def insert (table : RefTable) (key value : Handle) (hash : Key → UInt64 := Key.hash) :
    HeapM (Option Handle) := do
  let _ ← HeapM.ask fun heap => heap.classOf value
  match ← HeapM.ask fun heap => table.find? heap key hash with
  | some (buckets, index) =>
      let previous ← HeapM.ask fun heap => buckets.get heap (valueIndex index)
      buckets.set (valueIndex index) (some value)
      return previous
  | none =>
      let count ← HeapM.ask table.countWord
      table.makeRoom count key value hash
      let buckets ← HeapM.ask table.buckets
      let capacity ← HeapM.ask table.capacityWord
      match ← HeapM.ask fun heap => probe heap buckets capacity key hash with
      | .found _ => throw (.fault (.keyAppeared table.handle))
      | .vacant index =>
          fillBucket buckets index (some key) (some value)
          Heap.writeWord table.handle countOffset (count + 1)
          return none

/-- Fill a hole: go through the buckets behind it until one is vacant, and pull every entry back
into the hole that does not have its home behind the hole.  Gives the hole that remains. -/
def shiftBack (buckets : RefArray) (mask hole next : UInt64) (steps : Nat)
    (hash : Key → UInt64 := Key.hash) : HeapM UInt64 :=
  match steps with
  | 0 => throw (.fault .endlessProbe)
  | steps + 1 => do
      match ← HeapM.ask fun heap => buckets.get heap (keyIndex next) with
      | none => return hole
      | some moving =>
          let home ← HeapM.ask fun heap => home heap mask moving hash
          if (next - hole) &&& mask ≤ (next - home) &&& mask then
            let value ← HeapM.ask fun heap => buckets.get heap (valueIndex next)
            fillBucket buckets hole (some moving) value
            shiftBack buckets mask next ((next + 1) &&& mask) steps hash
          else shiftBack buckets mask hole ((next + 1) &&& mask) steps hash

/-- Remove a key and tell its value. -/
def remove (table : RefTable) (key : Handle) (hash : Key → UInt64 := Key.hash) :
    HeapM (Option Handle) := do
  match ← HeapM.ask fun heap => table.find? heap key hash with
  | none => return none
  | some (buckets, index) =>
      let value ← HeapM.ask fun heap => buckets.get heap (valueIndex index)
      let capacity ← HeapM.ask table.capacityWord
      let mask := capacity - 1
      let hole ← shiftBack buckets mask index ((index + 1) &&& mask) (mask.toNat + 1) hash
      fillBucket buckets hole none none
      let count ← HeapM.ask table.countWord
      Heap.writeWord table.handle countOffset (count - 1)
      return value

/-- The entries of the buckets from `index` on, `count` of them. -/
def entriesFrom (table : RefTable) (heap : Heap) (buckets : RefArray) (index : UInt64) :
    Nat → Except HeapError (List (Handle × Handle))
  | 0 => .ok []
  | count + 1 => do
      match ← buckets.get heap (keyIndex index) with
      | none => entriesFrom table heap buckets (index + 1) count
      | some key =>
          match ← buckets.get heap (valueIndex index) with
          | none => throw (.corrupt (.missingValue table.handle))
          | some value =>
              let rest ← entriesFrom table heap buckets (index + 1) count
              return (key, value) :: rest

/-- The keys with their values, in bucket order. -/
def entries (table : RefTable) (heap : Heap) : Except HeapError (List (Handle × Handle)) := do
  let buckets ← table.buckets heap
  let _ ← table.countWord heap
  let capacity ← table.capacity heap
  entriesFrom table heap buckets 0 capacity

/-- The keys, in bucket order. -/
def keys (table : RefTable) (heap : Heap) : Except HeapError (List Handle) :=
  (table.entries heap).map fun entries => entries.map Prod.fst

end RefTable

end CompactingHeap
