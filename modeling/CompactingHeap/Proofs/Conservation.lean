import CompactingHeap.Proofs.Provisions
import CompactingHeap.Proofs.Survivors

/-!
# Conservation

The statistics of a heap add up after every operation, also if it failed or a collection was
abandoned on the way.  Objects are live or reclaimed, slabs are in use or released, the mapped
bytes are those of the slabs in use and of the pool and stay under the limit, and no slab is in use
without an object.  Right after a completed collection the live bytes are the bytes of all objects.
-/

namespace CompactingHeap

/-- The used bytes of a space whose slabs are used up to their ends at most are within its slab
bytes. -/
theorem Space.usedBytes_le {space : Space} (placed : space.Placed) :
    space.usedBytes ≤ space.slabBytes := by
  unfold usedBytes slabBytes
  have shaped := placed.shaped
  generalize space.slabs = slabs at shaped
  suffices general : ∀ used total, used ≤ total →
      slabs.foldl (fun bytes slab => bytes + slab.used) used ≤
        slabs.foldl (fun bytes slab => bytes + slab.capacity) total from
    general 0 0 (Nat.le_refl 0)
  induction slabs with
  | nil => exact fun _ _ le => le
  | cons slab rest ih =>
      intro used total le
      have top := (shaped slab List.mem_cons_self).top_le
      exact ih (fun other member => shaped other (List.mem_cons_of_mem slab member)) _ _
        (Nat.add_le_add le top)

namespace Heap

/-- The statistics of a heap add up. -/
structure Conserves (heap : Heap) : Prop where
  objects : heap.stats.objectsAllocated = heap.stats.objectsReclaimed + heap.stats.liveHandles
  handles : heap.stats.liveHandles = heap.handles.liveHandles.length
  slabs : heap.stats.slabsAcquired = heap.stats.slabsReleased + heap.space.slabs.length
  mapped : heap.stats.mappedBytes =
    heap.stats.slabBytes + heap.stats.pooledSlabs * heap.config.slabBytes
  limited : heap.stats.mappedBytes ≤ heap.config.maxHeapBytes
  used : heap.stats.usedBytes ≤ heap.stats.slabBytes
  peopled : ∀ slab ∈ heap.space.slabs, ∃ handle address resident,
    heap.residentOf handle = .ok (address, resident) ∧ resident.place.slab = slab.serial

/-- The live bytes are those of the objects of all live handles. -/
def CountsLiveBytes (heap : Heap) : Prop :=
  heap.stats.liveBytes = (heap.handles.liveHandles.map heap.sizeAt).sum

/-- An object in a slab has a handle that leads to it. -/
theorem Sound.exists_residentOf {heap : Heap} (sound : heap.Sound) {address : Address}
    {place : Place} {layout : Layout}
    (found : heap.space.footprint? address = some (place, layout)) :
    ∃ handle resident, heap.residentOf handle = .ok (address, resident) ∧
      resident.place = place := by
  obtain ⟨object, here, _⟩ := Space.footprint?_eq_some_iff.mp found
  obtain ⟨generation, holds, owned⟩ :=
    sound.linked.owned address object (Space.object?_eq_some_iff.mpr ⟨place, here⟩)
  refine ⟨⟨object.owner, generation⟩, ⟨place, object⟩, ?_, rfl⟩
  unfold residentOf
  rw [HandleTable.resolve_of_find owned]
  dsimp only
  rw [here]

/-- A sound heap with a balanced ledger and an allocator of its own settings conserves what it
counts. -/
theorem Sound.conserves {heap : Heap} (sound : heap.Sound) (balanced : heap.Balanced)
    (fitted : heap.Fitted) (provisioned : heap.Provisioned) : heap.Conserves where
  objects := balanced.objects
  handles := balanced.counted.trans (HandleTable.length_liveHandles _).symm
  slabs := sound.accounts.balance
  mapped := by
    have mapped := sound.accounts.mapped
    rw [fitted.granularity, ← heap.space.slabBytes_eq] at mapped
    exact mapped
  limited := by
    have within := provisioned.solvent.within
    rw [fitted.limit] at within
    exact within
  used := Space.usedBytes_le sound.placed
  peopled slab member := by
    obtain ⟨address, place, layout, found, inside⟩ := provisioned.peopled slab member
    obtain ⟨handle, resident, here, rfl⟩ := sound.exists_residentOf found
    exact ⟨handle, address, resident, here, inside⟩

/-- Conservation: the statistics of every reachable heap add up, and so after each operation,
whether it succeeds or fails; and after each collection that completes the live bytes are those of
all objects. -/
theorem Reachable.conserved {heap : Heap} (reachable : heap.Reachable)
    (limited : heap.config.maxHeapBytes < 2 ^ 63) {α : Type} {operation : HeapM α}
    (offered : Operation operation) (bounded : (operation.run heap).2.handles.slots < 2 ^ 32) :
    heap.Conserves ∧ (operation.run heap).2.Conserves ∧
      EachCollection heap (operation.run heap).2 fun _ finish => finish.CountsLiveBytes := by
  have next := reachable.after offered bounded
  obtain ⟨log, course⟩ := offered.tame.course heap reachable.sound bounded
  have config := (course.settings reachable.sound bounded).1
  refine ⟨?_, ?_, ?_⟩
  · exact reachable.sound.conserves reachable.balanced reachable.fitted
      (reachable.provisioned limited)
  · rw [← config] at limited
    exact next.sound.conserves next.balanced next.fitted (next.provisioned limited)
  · apply reachable.eachCollection_underway offered bounded
    intro start finish underway ran
    exact (underway.sound reachable.sound).liveBytes_collected ran

/-- The statistics of the sample heap add up, also after a collection, which reclaims an integer. -/
theorem conserved_sample :
    sample.Reachable ∧ sample.config.maxHeapBytes < 2 ^ 63 ∧
      (collect.run sample).2.handles.slots < 2 ^ 32 ∧ (collect.run sample).1 = .ok () ∧
      (collect.run sample).2.stats.objectsReclaimed = 1 ∧
      sample.Conserves ∧ (collect.run sample).2.Conserves ∧
      EachCollection sample (collect.run sample).2 fun _ finish => finish.CountsLiveBytes :=
  ⟨reachable_sample, by decide +kernel, by decide +kernel, by decide +kernel, by decide +kernel,
    Reachable.conserved reachable_sample (by decide +kernel) Operation.collect
      (by decide +kernel)⟩

end Heap

end CompactingHeap
