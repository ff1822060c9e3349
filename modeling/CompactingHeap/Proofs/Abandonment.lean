import CompactingHeap.Proofs.Operations

/-!
# Failed collections

A collection fails only for lack of memory, and then it has been taken back.  The heap differs from
the one before in the books of the allocator only, and these still tally with the same slabs: every
slab that was acquired on the way has been released once, and as much can be mapped as before.
-/

namespace CompactingHeap

namespace Heap

/-- What a failed collection leaves: the heap as it was, apart from the allocator, in which nothing
shows but the mapped bytes, the pool, and equally many further slabs acquired and released. -/
structure Abandons (start finish : Heap) (error : HeapError) : Prop where
  lack : ∃ size, error = .outOfMemory size start.allocator.limit
  unchanged : finish = { start with allocator := finish.allocator }
  idle : finish.phase = .idle
  clean : ∀ address object, finish.space.object? address = some object →
    object.flags = 0 ∧ object.forward = none
  stats : finish.stats = { start.stats with
    mappedBytes := finish.stats.mappedBytes
    pooledSlabs := finish.stats.pooledSlabs
    slabsAcquired := finish.stats.slabsAcquired
    slabsReleased := finish.stats.slabsReleased }
  balance : finish.stats.slabsAcquired + start.stats.slabsReleased =
    start.stats.slabsAcquired + finish.stats.slabsReleased
  available : finish.allocator.available = start.allocator.available
  alike : finish.allocator.Alike start.allocator

/-- A failed collection of a sound heap is taken back. -/
theorem Sound.abandons {heap finish : Heap} (sound : heap.Sound) {error : HeapError}
    (failed : heap.collectNow = (.error error, finish)) : Abandons heap finish error := by
  obtain ⟨size, allocator, rfl, rfl, accounts, alike⟩ := sound.collectNow_error failed
  constructor
  · exact ⟨size, rfl⟩
  · rfl
  · exact sound.idle
  · intro address object found
    have rest := sound.linked.rest address object found
    exact ⟨rest.flags, rest.forward⟩
  · rfl
  · have before := sound.accounts.balance
    have after := accounts.balance
    change allocator.acquired + heap.allocator.released =
      heap.allocator.acquired + allocator.released
    omega
  · change allocator.available = heap.allocator.available
    rw [accounts.available_eq, sound.accounts.available_eq, alike.limit]
  · exact alike

/-- A failed collection of a reachable heap is all or nothing. -/
theorem Reachable.collect_error {heap finish : Heap} (reachable : heap.Reachable)
    {error : HeapError} (failed : collect.run heap = (.error error, finish)) :
    Abandons heap finish error :=
  reachable.sound.abandons failed

/-- A collection of the crowded heap copies two objects into slabs of their own and has none for
the third.  It is taken back: both slabs are released again. -/
theorem collect_error_crowded : crowded.Reachable ∧
    collect.run crowded = (.error (.outOfMemory 4096 20480), (collect.run crowded).2) ∧
      (collect.run crowded).2.stats.slabsAcquired = crowded.stats.slabsAcquired + 2 ∧
      Abandons crowded (collect.run crowded).2 (.outOfMemory 4096 20480) := by
  have fails : collect.run crowded =
      (.error (.outOfMemory 4096 20480), (collect.run crowded).2) := by
    have outcome : (collect.run crowded).1 = .error (.outOfMemory 4096 20480) := by
      decide +kernel
    rw [← outcome]
  exact ⟨reachable_crowded, fails, by decide +kernel,
    Reachable.collect_error reachable_crowded fails⟩

end Heap

end CompactingHeap
