import CompactingHeap.Heap.Verification
import CompactingHeap.Proofs.Reclamation

/-!
# Reachable heaps are well formed

The invariant of the heap, told from outside: between operations, whether they succeeded or failed,
a heap passes its own verification, handles and objects name each other, the objects lie aligned
and apart in the slabs, and no header, slot, run length, root or interned string is out of order.
-/

namespace CompactingHeap

namespace Heap

/-- What holds of a heap between operations. -/
structure WellFormed (heap : Heap) : Prop where
  verified : heap.verify = .ok ()
  idle : heap.phase = .idle
  /-- A live handle names one object, which names the slot of the handle back. -/
  named : ∀ handle, heap.isLive handle = true → ∃ address resident,
    heap.residentOf handle = .ok (address, resident) ∧ resident.object.owner = handle.index ∧
      heap.handleOf? address = some handle
  /-- Every object is named by a live handle. -/
  owned : ∀ address object, heap.space.object? address = some object →
    ∃ handle, heap.handleOf? address = some handle ∧ heap.isLive handle = true
  /-- Every object lies in the used part of one slab. -/
  covered : ∀ address place object, heap.space.resident? address = some ⟨place, object⟩ →
    ∃! slab, slab ∈ heap.space.slabs ∧ slab.serial = place.slab ∧
      place.offset + object.layout.size ≤ slab.top ∧ slab.top ≤ slab.capacity
  /-- Every object is aligned, wherever the page is at which its slab starts. -/
  aligned : ∀ address place object, heap.space.resident? address = some ⟨place, object⟩ →
    ∀ base, pageBytes ∣ base → object.layout.align ∣ base + place.offset
  apart : ∀ first firstPlace firstObject second secondPlace secondObject,
    heap.space.resident? first = some ⟨firstPlace, firstObject⟩ →
    heap.space.resident? second = some ⟨secondPlace, secondObject⟩ → first ≠ second →
    firstPlace.Apart firstObject.layout.size secondPlace secondObject.layout.size
  /-- No header is marked, relocated or forwarded. -/
  clean : ∀ address object, heap.space.object? address = some object →
    object.flags = 0 ∧ object.forward = none
  /-- Every traced slot is absent or leads to an object with a live handle. -/
  slots : ∀ address object, heap.space.object? address = some object →
    ∀ offset ∈ object.slotOffsets, ∀ target, object.slot offset = some target →
      ∃ other handle, heap.space.object? target = some other ∧
        heap.handleOf? target = some handle ∧ heap.isLive handle = true
  /-- The stored length of a run is the number of tail elements. -/
  runs : ∀ address object, heap.space.object? address = some object →
    ∀ offset, object.descriptor.runOffset? = some offset →
      (object.word offset).toNat = object.extra.toNat
  rooted : ∀ root ∈ heap.roots.roots, heap.isLive root.handle = true
  interned : ∀ bytes handle, heap.lookupInterned bytes = some handle → heap.isLive handle = true

/-! ## Verification -/

/-- The place of an object is inside a slab and aligned to words. -/
theorem Sound.holdsPlace {heap : Heap} (sound : heap.Sound) {address : Address} {place : Place}
    {object : HeapObject} (found : heap.space.resident? address = some ⟨place, object⟩) :
    heap.holdsPlace place = true := by
  have footprint := Space.footprint?_eq_some_iff.mpr ⟨object, found, rfl⟩
  have word : wordBytes ∣ place.offset :=
    Nat.dvd_trans (Layout.word_dvd_align object.laidOut) (sound.placed.aligned _ _ _ footprint)
  obtain ⟨slab, member, serial, inside⟩ := sound.placed.covered _ _ _ footprint
  have top := (sound.placed.shaped slab member).top_le
  have size := (Layout.size_bounds object.laidOut).1
  have holds : slab.region.contains place.offset = true := by
    rw [Region.contains_iff]
    unfold Slab.capacity at top
    omega
  unfold Heap.holdsPlace
  rw [Bool.and_eq_true, List.any_eq_true]
  constructor
  · exact decide_eq_true (Nat.dvd_iff_mod_eq_zero.mp word)
  · exact ⟨slab, member, by rw [holds, Bool.and_true]; exact decide_eq_true serial⟩

/-- Every object of a sound heap passes for the target of a reference. -/
theorem Sound.pointsAtObject {heap : Heap} (sound : heap.Sound) {address : Address}
    {object : HeapObject} (found : heap.space.object? address = some object) :
    heap.pointsAtObject address = true := by
  rcases Space.object?_eq_some_iff.mp found with ⟨place, resident⟩
  obtain ⟨generation, holds, owned⟩ := sound.linked.owned address object found
  have named := HandleTable.handleAt?_eq_some_iff.mpr
    (⟨rfl, address, holds, owned⟩ : (⟨object.owner, generation⟩ : Handle).index = object.owner ∧ _)
  unfold Heap.pointsAtObject
  rw [resident]
  dsimp only
  rw [sound.holdsPlace resident, (sound.linked.rest address object found).forward, named]
  dsimp only
  rw [HandleTable.resolve_of_find owned]
  simp [Except.toOption]

/-- A sound heap passes its verification. -/
theorem Sound.verify {heap : Heap} (sound : heap.Sound) : heap.verify = .ok () := by
  have undamaged : ∀ occupant ∈ heap.handles.occupied,
      heap.damageOf? occupant.1 occupant.2 = none := by
    rintro ⟨index, address⟩ member
    rcases (HandleTable.mem_occupied_iff (Nat.le_of_lt sound.bounded)).mp member with
      ⟨generation, holds, found⟩
    obtain ⟨object, here, owner⟩ := sound.object_of_find found
    have intact : heap.danglingSlot? object = none := by
      unfold Heap.danglingSlot?
      rw [List.findSome?_eq_none_iff]
      intro offset traced
      cases slot : object.slot offset with
      | none => rfl
      | some target =>
          have refers := Object.mem_targets_iff.mpr ⟨offset, traced, slot⟩
          obtain ⟨other, there⟩ := sound.linked.closed address object here target refers
          dsimp only
          rw [if_pos (sound.pointsAtObject there)]
    dsimp only at owner ⊢
    unfold Heap.damageOf?
    rw [here]
    dsimp only
    rw [sound.pointsAtObject here, owner, (sound.linked.rest address object here).flags, intact]
    simp
  unfold Heap.verify
  rw [List.findSome?_eq_none_iff.mpr undamaged]

/-- The invariant of a sound heap, told from outside. -/
theorem Sound.toWellFormed {heap : Heap} (sound : heap.Sound) : heap.WellFormed where
  verified := sound.verify
  idle := sound.idle
  named handle alive := by
    rcases HandleTable.isLive_iff.mp alive with ⟨address, holds, found⟩
    obtain ⟨object, here, owner⟩ := sound.object_of_find found
    rcases Space.object?_eq_some_iff.mp here with ⟨place, resident⟩
    refine ⟨address, ⟨place, object⟩, ?_, owner, sound.handleOf?_eq_some_iff.mpr ⟨holds, found⟩⟩
    unfold Heap.residentOf
    rw [HandleTable.resolve_of_find found]
    dsimp only
    rw [resident]
  owned address object found := by
    obtain ⟨generation, holds, owned⟩ := sound.linked.owned address object found
    exact ⟨_, sound.handleOf?_eq_some_iff.mpr ⟨holds, owned⟩,
      HandleTable.isLive_iff.mpr ⟨address, holds, owned⟩⟩
  covered address place object found := by
    have footprint := Space.footprint?_eq_some_iff.mpr ⟨object, found, rfl⟩
    obtain ⟨slab, member, serial, inside⟩ := sound.placed.covered _ _ _ footprint
    refine ⟨slab, ⟨member, serial, inside, (sound.placed.shaped slab member).top_le⟩, ?_⟩
    rintro other ⟨otherMember, otherSerial, _⟩
    exact List.inj_on_of_nodup_map sound.placed.distinct otherMember member
      (otherSerial.trans serial.symm)
  aligned address place object found base page := by
    have footprint := Space.footprint?_eq_some_iff.mpr ⟨object, found, rfl⟩
    exact Nat.dvd_add (Nat.dvd_trans (Layout.align_dvd_page object.laidOut) page)
      (sound.placed.aligned _ _ _ footprint)
  apart first firstPlace firstObject second secondPlace secondObject firstFound secondFound
      different :=
    sound.placed.apart first firstPlace firstObject.layout second secondPlace secondObject.layout
      (Space.footprint?_eq_some_iff.mpr ⟨firstObject, firstFound, rfl⟩)
      (Space.footprint?_eq_some_iff.mpr ⟨secondObject, secondFound, rfl⟩) different
  clean address object found :=
    ⟨(sound.linked.rest address object found).flags,
      (sound.linked.rest address object found).forward⟩
  slots address object found offset traced target here := by
    have refers := Object.mem_targets_iff.mpr ⟨offset, traced, here⟩
    obtain ⟨other, there⟩ := sound.linked.closed address object found target refers
    obtain ⟨generation, holds, owned⟩ := sound.linked.owned target other there
    exact ⟨other, _, there, sound.handleOf?_eq_some_iff.mpr ⟨holds, owned⟩,
      HandleTable.isLive_iff.mpr ⟨target, holds, owned⟩⟩
  runs address object found := (sound.linked.rest address object found).length
  rooted root member := sound.rooted root (List.mem_reverse.mp member)
  interned bytes handle found := sound.interned handle ((sound.listed handle).mpr ⟨bytes, found⟩)

/-- Every reachable heap is well formed. -/
theorem Reachable.wellFormed {heap : Heap} (reachable : heap.Reachable) : heap.WellFormed :=
  reachable.sound.toWellFormed

/-- The sample heap, whose pair refers to an integer, is well formed. -/
theorem wellFormed_sample : sample.Reachable ∧ sample.WellFormed :=
  ⟨reachable_sample, Reachable.wellFormed reachable_sample⟩

end Heap

end CompactingHeap
