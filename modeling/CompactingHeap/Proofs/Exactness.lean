import Mathlib.Algebra.GroupWithZero.Nat
import CompactingHeap.Proofs.Conservation

/-!
# Exact sums

Sizes, offsets and counts are natural numbers here, and a difference of natural numbers stops at
zero.  A machine computes them in words.  This module says where the two agree: in a heap at rest
no sum or product exceeds a word and no difference falls below zero, neither in the slabs nor in
the books of the allocator nor in the handle table, and whatever the operations rely on when they
meet an object is there.
-/

namespace CompactingHeap

/-! ## Slabs -/

/-- A reservation in the slab computes exactly: rounding up the end of the used part stays within a
word, and the bytes that remain are counted from there. -/
structure Slab.Exact (slab : Slab) : Prop where
  rounds : ∀ align ≤ pageBytes, slab.top + align < wordLimit
  remains : slab.top ≤ slab.capacity

theorem Slab.Shaped.exact {slab : Slab} (shaped : slab.Shaped) (small : slab.capacity < 2 ^ 63) :
    slab.Exact where
  rounds align le := by
    have top := shaped.top_le
    simp only [pageBytes, wordLimit] at le ⊢
    omega
  remains := shaped.top_le

/-- An outstanding slab is one of the capacities. -/
theorem Slab.capacity_le_capacities {slab : Slab} {slabs : List Slab} (member : slab ∈ slabs) :
    slab.capacity ≤ capacities slabs := by
  obtain ⟨before, after, rfl⟩ := List.append_of_mem member
  rw [capacities_append, capacities]
  omega

/-! ## Allocators -/

namespace SlabAllocator

/-- Slabs that are taken back one after the other are still mapped when it is their turn. -/
def Repays (allocator : SlabAllocator) (slabs : List Slab) : Prop :=
  ∀ before slab after, slabs = before ++ slab :: after →
    slab.capacity ≤ (allocator.releaseAll before).mapped

/-- The books of an allocator with outstanding slabs compute exactly: no size is divided by zero,
the pool is among the mapped bytes and is given up region by region, the mapped bytes stay within
the limit and within a word, and every outstanding slab can be taken back. -/
structure Exact (allocator : SlabAllocator) (outstanding : List Slab) : Prop where
  granular : 0 < allocator.granularity ∧ allocator.granularity % pageBytes = 0
  available : allocator.pool.length * allocator.granularity ≤ allocator.mapped
  drains : ∀ dropped region rest, allocator.pool = dropped ++ region :: rest →
    region.length ≤ allocator.mapped - (dropped.map Region.length).sum
  within : allocator.mapped ≤ allocator.limit
  word : allocator.limit < 2 ^ 63
  maps : ∀ minBytes < wordLimit, ∀ result next, allocator.acquire minBytes = (result, next) →
    next.mapped ≤ allocator.limit
  repays : ∀ slabs rest, (slabs ++ rest).Perm outstanding → allocator.Repays slabs

section

variable {allocator : SlabAllocator} {outstanding : List Slab}
  (accounts : allocator.Accounts outstanding)

include accounts

theorem Accounts.repays {slabs rest : List Slab} (same : (slabs ++ rest).Perm outstanding) :
    allocator.Repays slabs := by
  rintro before slab after rfl
  rw [List.append_assoc, List.cons_append] at same
  have left := (accounts.perm same.symm).releaseAll.1
  rw [left.mapped, Slab.capacities]
  omega

/-- Whichever of the pooled regions have been dropped, the next one is still mapped. -/
theorem Accounts.drains {dropped rest : List Region} {region : Region}
    (pool : allocator.pool = dropped ++ region :: rest) :
    region.length ≤ allocator.mapped - (dropped.map Region.length).sum := by
  have size : region.length = allocator.granularity :=
    accounts.pooled region (by rw [pool]; simp)
  have gone : (dropped.map Region.length).sum = dropped.length * allocator.granularity := by
    rw [List.map_congr_left (g := fun _ => allocator.granularity)
      fun other member => accounts.pooled other (by rw [pool]; simp [member])]
    simp
  have pooled : allocator.pool.length = dropped.length + (rest.length + 1) := by
    rw [pool, List.length_append, List.length_cons]
  rw [size, gone, accounts.mapped, pooled, Nat.add_mul, Nat.succ_mul]
  omega

theorem Accounts.exact (solvent : allocator.Solvent) : allocator.Exact outstanding where
  granular := ⟨accounts.granular, accounts.pages⟩
  available := by
    rw [accounts.mapped]
    exact Nat.le_add_left _ _
  drains _ _ _ := accounts.drains
  within := solvent.within
  word := solvent.bounded
  maps minBytes small result next ran := by
    have within := (solvent.of_acquire accounts ran).within
    have alike : next.Alike allocator := by
      cases result with
      | error error => exact (accounts.acquire_error ran).2.2
      | ok slab => exact (accounts.acquire_ok small ran).2.2
    rwa [alike.limit] at within
  repays _ _ := accounts.repays

end

end SlabAllocator

/-! ## Layouts -/

/-- The alignment of a layout is a power of two up to a page, and no slot of an object leaves the
object: the payload, the offset and the word add up to the size at most, which is a word. -/
structure Object.Fits {α : Type} (object : Object α) : Prop where
  laidOut : Layout.of? object.descriptor object.extra.toNat = some object.layout
  power : isPowerOfTwo object.layout.align = true
  page : object.layout.align ≤ pageBytes
  inside : ∀ offset ∈ object.slotOffsets,
    object.layout.payload + offset + wordBytes ≤ object.layout.size

/-- A traced slot ends where the payload does at the latest. -/
theorem Descriptor.slot_inside {descriptor : Descriptor} {extra length offset content : Nat}
    (traced : offset ∈ descriptor.slotOffsets length) (run : length ≤ extra)
    (payload : descriptor.payloadBytes? extra = some content) : offset + wordBytes ≤ content := by
  unfold payloadBytes? at payload
  obtain ⟨tail, product, sum⟩ := Option.bind_eq_some_iff.mp payload
  obtain ⟨_, rfl⟩ := checkedMul_eq_some_iff.mp product
  obtain ⟨_, rfl⟩ := checkedAdd_eq_some_iff.mp sum
  rcases mem_slotOffsets_iff.mp traced with field | ⟨run, index, member, inside, rfl⟩
  · have inside := descriptor.offset_inside field
    exact Nat.le_trans inside (Nat.le_add_left _ _)
  · have last := descriptor.run_last member
    have references := tail_eq_references_iff.mpr ⟨run, runOffset?_eq_some_iff.mpr member⟩
    rw [references]
    simp only [Tail.elementBytes, wordBytes] at last ⊢
    omega

/-- The run of an object at rest has an element for each element of its tail. -/
theorem Object.AtRest.runLength_le {α : Type} {object : Object α} (rest : object.AtRest) :
    object.runLength ≤ object.extra.toNat := by
  unfold runLength
  split
  · next offset found => exact Nat.le_of_eq (rest.length offset found)
  · exact Nat.zero_le _

theorem Object.AtRest.fits {α : Type} {object : Object α} (rest : object.AtRest) : object.Fits where
  laidOut := object.laidOut
  power := by
    obtain ⟨k, _, _, align⟩ := Layout.align_eq_two_pow object.laidOut
    exact isPowerOfTwo_iff.mpr ⟨k, align⟩
  page := by
    obtain ⟨k, _, small, align⟩ := Layout.align_eq_two_pow object.laidOut
    exact align ▸ two_pow_le_page small
  inside offset traced := by
    obtain ⟨_, content, payload, _, _, _, size⟩ := Layout.of?_eq_some object.laidOut
    have inside := Descriptor.slot_inside traced rest.runLength_le payload
    rw [size]
    simp only [wordBytes] at inside ⊢
    omega

/-! ## Spaces -/

namespace Space

/-- A space whose slabs come from an allocator, which has handed out other slabs as well, grows
exactly: the used bytes and the bytes of the slabs can be summed up, and a slab that is acquired
for a layout takes the layout, so that it is never lost. -/
structure Exact (space : Space) (allocator : SlabAllocator) (others : List Slab) : Prop where
  slabs : ∀ slab ∈ space.slabs, slab.Exact
  books : allocator.Exact (space.slabs ++ others)
  used : space.usedBytes ≤ space.slabBytes
  small : space.slabBytes < 2 ^ 63
  installs : ∀ descriptor extra layout slab next, Layout.of? descriptor extra = some layout →
    allocator.acquire layout.size = (.ok slab, next) → slab.Exact ∧
      ∃ place grown, space.install next.granularity slab layout = .ok (place, grown)
  refuses : ∀ descriptor extra layout error next, Layout.of? descriptor extra = some layout →
    allocator.acquire layout.size = (.error error, next) →
      ∃ size limit, error = .outOfMemory size limit

/-- The bytes of outstanding slabs are mapped. -/
theorem capacities_le_mapped {allocator : SlabAllocator} {outstanding : List Slab}
    (accounts : allocator.Accounts outstanding) :
    Slab.capacities outstanding ≤ allocator.mapped := by
  rw [accounts.mapped]
  exact Nat.le_add_right _ _

theorem Placed.exact {space : Space} {allocator : SlabAllocator} {others : List Slab}
    (placed : space.Placed) (accounts : allocator.Accounts (space.slabs ++ others))
    (solvent : allocator.Solvent) : space.Exact allocator others := by
  have mapped := capacities_le_mapped accounts
  have within := solvent.within
  have word := solvent.bounded
  rw [Slab.capacities_append] at mapped
  constructor
  · intro slab member
    have part := Slab.capacity_le_capacities member
    exact (placed.shaped slab member).exact (by omega)
  · exact accounts.exact solvent
  · exact usedBytes_le placed
  · rw [slabBytes_eq]
    omega
  · intro descriptor extra layout slab next laidOut acquired
    obtain ⟨books, issued, alike⟩ := accounts.acquire_ok (Layout.size_bounds laidOut).2 acquired
    have nextMapped := capacities_le_mapped books
    have nextWithin := (solvent.of_acquire accounts acquired).within
    rw [alike.limit] at nextWithin
    rw [Slab.capacities] at nextMapped
    obtain ⟨place, grown, installs, _⟩ := placed.install books laidOut issued next.granularity
    exact ⟨issued.shaped.exact (by omega), place, grown, installs⟩
  · intro descriptor extra layout error next _ refused
    exact ⟨_, _, (accounts.acquire_error refused).2.1⟩

end Space

/-! ## Handle tables -/

namespace HandleTable

variable {α : Type}

/-- A handle table counts exactly, and no slot is taken for what it is not: the slot that is used
again is vacant, and the slot of a live object can be updated and vacated. -/
structure Exact (table : HandleTable α) : Prop where
  slots : table.slots < 2 ^ 32
  live : table.live ≤ table.slots
  mints : ∀ address, ∃ handle next, table.mint address = (.ok handle, next)
  updates : ∀ index handle, table.handleAt? index = some handle →
    ∀ address, ∃ next, table.update index address = (.ok (), next)
  recycles : ∀ index handle, table.handleAt? index = some handle →
    0 < table.live ∧ ∃ next, table.recycle index = (.ok (), next)

/-- The slot that is used again is vacant. -/
theorem Chained.exists_mint {table : HandleTable α} (chained : table.Chained) (address : α) :
    ∃ handle next, table.mint address = (.ok handle, next) := by
  obtain ⟨chain, _, links⟩ := chained
  generalize free : table.free = head at links
  cases links with
  | nil =>
      simp only [HandleTable.mint, free]
      exact ⟨_, _, rfl⟩
  | cons vacant _ =>
      simp only [HandleTable.mint, free, vacant]
      exact ⟨_, _, rfl⟩

theorem Chained.exact {table : HandleTable α} (chained : table.Chained) (counted : table.Counted)
    (bounded : table.slots < 2 ^ 32) : table.Exact where
  slots := bounded
  live := by
    rw [counted]
    exact Nat.le_trans List.countP_le_length (Nat.le_of_eq Array.length_toList)
  mints := chained.exists_mint
  updates index handle named address := by
    obtain ⟨rfl, old, holds, found⟩ := handleAt?_eq_some_iff.mp named
    exact ⟨_, update_eq_setSlot found address⟩
  recycles index handle named := by
    obtain ⟨rfl, old, holds, found⟩ := handleAt?_eq_some_iff.mp named
    obtain ⟨next, recycles, _⟩ := chained.recycle found
    have fewer := (counted.recycle recycles).2
    exact ⟨by omega, next, recycles⟩

end HandleTable

/-! ## Heaps at rest -/

namespace Heap

/-- What the operations rely on when they meet an object: its class is registered, it fits its
layout and starts at a word, and handles name it and every object that it refers to. -/
structure Meets (heap : Heap) (address : Address) (object : HeapObject) : Prop where
  registered : heap.classes.get object.descriptor.id = .ok object.descriptor
  fits : object.Fits
  aligned : ∀ place layout, heap.space.footprint? address = some (place, layout) →
    place.offset % wordBytes = 0
  named : ∃ handle, heap.handleOf? address = some handle
  references : ∀ target ∈ object.targets, ∃ handle, heap.handleOf? target = some handle

/-- A heap at rest computes exactly. -/
structure Exact (heap : Heap) : Prop where
  idle : heap.phase = .idle
  space : heap.space.Exact heap.allocator []
  handles : heap.handles.Exact
  objects : ∀ address object, heap.space.object? address = some object → heap.Meets address object

section

variable {heap : Heap} (sound : heap.Sound)

include sound

/-- Every object has a handle. -/
theorem Sound.exists_handle {address : Address} {object : HeapObject}
    (found : heap.space.object? address = some object) :
    ∃ handle, heap.handleOf? address = some handle := by
  obtain ⟨generation, holds, named⟩ := sound.linked.owned address object found
  exact ⟨_, sound.handleOf?_eq_some_iff.mpr ⟨holds, named⟩⟩

theorem Sound.meets (balanced : heap.Balanced) (numbered : heap.classes.Numbered)
    {address : Address} {object : HeapObject} (found : heap.space.object? address = some object) :
    heap.Meets address object where
  registered := by
    obtain ⟨id, known⟩ := balanced.described address object found
    rw [numbered.id_of_get known]
    exact known
  fits := (sound.linked.rest address object found).fits
  aligned place layout here := by
    obtain ⟨other, _, rfl⟩ := Space.footprint?_eq_some_iff.mp here
    exact Nat.mod_eq_zero_of_dvd
      (Nat.dvd_trans (Layout.word_dvd_align other.laidOut) (sound.placed.aligned _ _ _ here))
  named := sound.exists_handle found
  references target refers := by
    obtain ⟨other, there⟩ := sound.linked.closed address object found target refers
    exact sound.exists_handle there

theorem Sound.exact (balanced : heap.Balanced) (numbered : heap.classes.Numbered)
    (solvent : heap.allocator.Solvent) : heap.Exact where
  idle := sound.idle
  space := sound.placed.exact (by simpa using sound.accounts) solvent
  handles := sound.chained.exact balanced.counted sound.bounded
  objects _ _ := sound.meets balanced numbered

end

end Heap

end CompactingHeap
