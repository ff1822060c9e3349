import CompactingHeap.Error

/-!
# Settings of a heap

The settings bound the memory of a heap and say when it collects and when its tables grow.  The
three fractions are 32-bit numbers, and the decisions that depend on them round exactly as that
format and the 64-bit format do.
-/

namespace CompactingHeap

/-- The settings of a heap. -/
structure Config where
  /-- The granularity of slabs, a multiple of the page size. -/
  slabBytes : Nat := 65536
  /-- The bound on mapped bytes, live and pooled together. -/
  maxHeapBytes : Nat := 1073741824
  /-- The fraction of slab bytes in use above which an allocation that does not fit collects. -/
  highWater : Binary := Binary.Format.single.ofDecimal false 7 (-1)
  /-- Used bytes below which the fraction in use does not matter. -/
  minCollectBytes : Nat := 262144
  /-- After a collection the threshold is the surviving bytes times this factor. -/
  growthFactor : Binary := Binary.Format.single.ofNat 2
  /-- Vacated slabs kept mapped for reuse. -/
  slabPool : Nat := 4
  /-- The fraction of buckets in use above which a table grows. -/
  tableLoadFactor : Binary := Binary.Format.single.ofDecimal false 75 (-2)
  /-- The number of buckets of a table made without a capacity, a power of two. -/
  tableInitialCapacity : Nat := 8
deriving Repr

namespace Config

/-- The first flaw of the settings, if they have one. -/
def flaw? (config : Config) : Option ConfigFlaw :=
  let zero := Binary.Format.single.ofNat 0
  let one := Binary.Format.single.ofNat 1
  if config.slabBytes = 0 || config.slabBytes % pageBytes != 0 then
    some (.slabBytes config.slabBytes)
  else if config.maxHeapBytes < config.slabBytes then
    some (.maxHeapBytes config.maxHeapBytes config.slabBytes)
  else if !(zero.lt config.highWater && config.highWater.le one) then
    some (.highWater config.highWater)
  else if !one.le config.growthFactor then
    some (.growthFactor config.growthFactor)
  else if !(zero.lt config.tableLoadFactor && config.tableLoadFactor.lt one) then
    some (.tableLoadFactor config.tableLoadFactor)
  else if !isPowerOfTwo config.tableInitialCapacity then
    some (.tableInitialCapacity config.tableInitialCapacity)
  else none

/-- Accept the settings, or tell their first flaw. -/
def validate (config : Config) : Except HeapError Unit :=
  match config.flaw? with
  | some flaw => .error (.invalidConfig flaw)
  | none => .ok ()

/-- Settings are accepted if they have no flaw. -/
theorem validate_eq_ok_iff {config : Config} : config.validate = .ok () ↔ config.flaw? = none := by
  unfold validate
  cases config.flaw? <;> simp

/-- Do `used` bytes exceed the high-water fraction of `total` slab bytes, in 64-bit arithmetic? -/
def aboveHighWater (config : Config) (used total : Nat) : Bool :=
  let format := Binary.Format.double
  (format.mul (format.convert config.highWater) (format.ofNat total)).lt (format.ofNat used)

/-- The used bytes from which the heap collects again after a collection that `liveBytes` survived,
computed in 32-bit arithmetic and clamped to a word. -/
def thresholdAfter (config : Config) (liveBytes : Nat) : Nat :=
  let format := Binary.Format.single
  max ((format.mul (format.ofNat liveBytes) config.growthFactor).clampedFloor maxWord)
    config.minCollectBytes

/-- Would `count` entries exceed the load factor of `capacity` buckets, in 32-bit arithmetic? -/
def overloaded (config : Config) (count capacity : Nat) : Bool :=
  let format := Binary.Format.single
  (format.mul (format.ofNat capacity) config.tableLoadFactor).lt (format.ofNat count)

end Config

end CompactingHeap
