import CompactingHeap.Slab.Basic

/-!
# The slab allocator

The allocator maps slabs in multiples of a granularity and keeps the mapped bytes under a limit.  A
few released slabs of the smallest size stay mapped in a pool.  Pooled slabs count against the
limit, but they are given up before a request fails, so as far as a caller can see they are free.
-/

namespace CompactingHeap

/-- The system that regions come from with the number of requests made to it, the bounds of an
allocator, the pool with the latest region first, the bytes mapped, pool included, and the numbers
of slabs ever acquired and released. -/
structure SlabAllocator where
  system : MemorySystem
  requests : Nat
  granularity : Nat
  limit : Nat
  poolLimit : Nat
  pool : List Region
  mapped : Nat
  acquired : Nat
  released : Nat

namespace SlabAllocator

/-- An allocator that has mapped nothing. -/
def new (system : MemorySystem) (granularity limit poolLimit : Nat) : SlabAllocator :=
  { system, granularity, limit, poolLimit
    requests := 0
    pool := []
    mapped := 0
    acquired := 0
    released := 0 }

/-- The size of the slab that a request for `minBytes` gets: the least multiple of the granularity
that holds at least one byte and the request, clamped to a word. -/
def slabSize (allocator : SlabAllocator) (minBytes : Nat) : Nat :=
  let slabs := (max minBytes 1 + (allocator.granularity - 1)) / allocator.granularity
  saturatingMul slabs allocator.granularity

/-- Bytes that can still be mapped, counting pooled slabs as free. -/
def available (allocator : SlabAllocator) : Nat :=
  allocator.limit - (allocator.mapped - allocator.pool.length * allocator.granularity)

/-- Unmap pooled regions until `size` more bytes fit under the limit or the pool is empty.  Gives
the bytes that stay mapped, and the regions that stay pooled. -/
def drain (size limit mapped : Nat) : List Region → Nat × List Region
  | [] => (mapped, [])
  | region :: rest =>
      if limit < saturatingAdd mapped size then drain size limit (mapped - region.length) rest
      else (mapped, region :: rest)

/-- The allocator after the pool has made room for `size` more bytes as far as it can. -/
def makeRoom (allocator : SlabAllocator) (size : Nat) : SlabAllocator :=
  let drained := drain size allocator.limit allocator.mapped allocator.pool
  { allocator with mapped := drained.1, pool := drained.2 }

/-- Map a new slab of `size` bytes, giving up pooled slabs where the limit demands it. -/
def mapSlab (allocator : SlabAllocator) (size : Nat) : Except HeapError Slab × SlabAllocator :=
  let roomy := allocator.makeRoom size
  if roomy.limit < saturatingAdd roomy.mapped size then
    (.error (.outOfMemory size roomy.limit), roomy)
  else
    let asked := { roomy with requests := roomy.requests + 1 }
    match Region.map roomy.system roomy.requests size with
    | .error _ => (.error (.outOfMemory size roomy.limit), asked)
    | .ok region =>
        (.ok { serial := roomy.acquired, region, top := 0 },
          { asked with mapped := roomy.mapped + size, acquired := roomy.acquired + 1 })

/-- Acquire a slab for at least `minBytes`, a pooled one if it has the right size.  The allocator
changes even when it fails, because the pool may have been given up. -/
def acquire (allocator : SlabAllocator) (minBytes : Nat) :
    Except HeapError Slab × SlabAllocator :=
  let size := allocator.slabSize minBytes
  match allocator.pool with
  | region :: rest =>
      if size = allocator.granularity then
        (.ok { serial := allocator.acquired, region, top := 0 },
          { allocator with pool := rest, acquired := allocator.acquired + 1 })
      else allocator.mapSlab size
  | [] => allocator.mapSlab size

/-- Take a slab back: into the pool, its contents discarded, if it has the smallest size, the pool
has room and the system discards them, and to the system otherwise. -/
def release (allocator : SlabAllocator) (slab : Slab) : SlabAllocator :=
  let counted := { allocator with released := allocator.released + 1 }
  if slab.capacity = allocator.granularity && allocator.pool.length < allocator.poolLimit &&
      allocator.system.discards allocator.released then
    { counted with pool := slab.region.discard :: allocator.pool }
  else { counted with mapped := allocator.mapped - slab.capacity }

/-- Take slabs back one after the other. -/
def releaseAll (allocator : SlabAllocator) (slabs : List Slab) : SlabAllocator :=
  slabs.foldl release allocator

end SlabAllocator

end CompactingHeap
