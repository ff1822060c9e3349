import Mathlib.Data.Finset.Prod
import Mathlib.Order.Interval.Finset.Nat
import CompactingHeap.Proofs.Exactness

/-!
# Exact collections

A collection works in stages, and the heap is at rest before and after it only.  Here the stages
are followed: whatever has been marked, copied, fixed up or swept so far, the next object, copy,
slot or slab is there as the collection relies on, and no sum or difference leaves the range of a
word.  The bytes of the live objects stay within the used bytes because distinct objects lie in
disjoint stretches.
-/

namespace CompactingHeap

/-! ## The bytes of distinct objects -/

/-- The bytes of a stretch of memory, each with the serial number of its slab. -/
def Place.bytes (place : Place) (size : Nat) : Finset (Nat × Nat) :=
  {place.slab} ×ˢ Finset.Ico place.offset (place.offset + size)

@[simp]
theorem Place.card_bytes (place : Place) (size : Nat) : (place.bytes size).card = size := by
  simp [bytes]

theorem Place.mem_bytes_iff {place : Place} {size : Nat} {byte : Nat × Nat} :
    byte ∈ place.bytes size ↔
      byte.1 = place.slab ∧ place.offset ≤ byte.2 ∧ byte.2 < place.offset + size := by
  rw [bytes, Finset.mem_product, Finset.mem_singleton, Finset.mem_Ico]

/-- The used bytes of several slabs. -/
def Slab.usedOf : List Slab → Finset (Nat × Nat)
  | [] => ∅
  | slab :: rest => Place.bytes ⟨slab.serial, 0⟩ slab.top ∪ usedOf rest

theorem Slab.mem_usedOf {slabs : List Slab} {slab : Slab} (member : slab ∈ slabs) {byte : Nat × Nat}
    (here : byte.1 = slab.serial) (below : byte.2 < slab.top) : byte ∈ usedOf slabs := by
  induction member with
  | head rest =>
      apply Finset.mem_union_left
      exact Place.mem_bytes_iff.mpr ⟨here, Nat.zero_le _, by simpa using below⟩
  | tail other _ ih => exact Finset.mem_union_right _ ih

theorem Slab.card_usedOf_le (slabs : List Slab) :
    (usedOf slabs).card ≤ (slabs.map Slab.used).sum := by
  induction slabs with
  | nil => exact Nat.le_refl 0
  | cons slab rest ih =>
      refine Nat.le_trans (Finset.card_union_le _ _) ?_
      rw [Place.card_bytes, List.map_cons, List.sum_cons]
      exact Nat.add_le_add_left ih _

namespace Space

theorem usedBytes_eq_sum (space : Space) : space.usedBytes = (space.slabs.map Slab.used).sum := by
  rw [usedBytes, List.sum_eq_foldl, List.foldl_map]

theorem layoutsAt_cons_of_some {space : Space} {address : Address} {object : HeapObject}
    (found : space.object? address = some object) (rest : List Address) :
    space.layoutsAt (address :: rest) = object.layout :: space.layoutsAt rest := by
  simp [layoutsAt, found]

theorem layoutsAt_cons_of_none {space : Space} {address : Address}
    (missing : space.object? address = none) (rest : List Address) :
    space.layoutsAt (address :: rest) = space.layoutsAt rest := by
  simp [layoutsAt, missing]

/-- Distinct objects take as many bytes as their layouts say, because they do not overlap. -/
theorem Placed.exists_bytes {space : Space} (placed : space.Placed) {addresses : List Address}
    (distinct : addresses.Nodup) :
    ∃ bytes : Finset (Nat × Nat),
      bytes.card = ((space.layoutsAt addresses).map Layout.size).sum ∧
        ∀ byte ∈ bytes, ∃ address ∈ addresses, ∃ place layout,
          space.footprint? address = some (place, layout) ∧ byte ∈ place.bytes layout.size := by
  induction addresses with
  | nil => exact ⟨∅, rfl, by simp⟩
  | cons address rest ih =>
      obtain ⟨new, distinct⟩ := List.nodup_cons.mp distinct
      obtain ⟨bytes, count, owned⟩ := ih distinct
      cases found : space.object? address with
      | none =>
          refine ⟨bytes, by rw [layoutsAt_cons_of_none found, count], ?_⟩
          intro byte member
          obtain ⟨other, listed, rest⟩ := owned byte member
          exact ⟨other, List.mem_cons_of_mem _ listed, rest⟩
      | some object =>
          obtain ⟨place, here⟩ := object?_eq_some_iff.mp found
          have footprint : space.footprint? address = some (place, object.layout) :=
            footprint?_eq_some_iff.mpr ⟨object, here, rfl⟩
          have apart : Disjoint (place.bytes object.layout.size) bytes := by
            rw [Finset.disjoint_left]
            intro byte first second
            obtain ⟨other, listed, otherPlace, layout, there, inside⟩ := owned byte second
            have different : address ≠ other := fun same => new (same ▸ listed)
            have apart := placed.apart _ _ _ _ _ _ footprint there different
            rw [Place.mem_bytes_iff] at first inside
            rcases apart (first.1.symm.trans inside.1) with before | behind <;> omega
          refine ⟨place.bytes object.layout.size ∪ bytes, ?_, ?_⟩
          · rw [Finset.card_union_of_disjoint apart, Place.card_bytes, count,
              layoutsAt_cons_of_some found, List.map_cons, List.sum_cons]
          · intro byte member
            rcases Finset.mem_union.mp member with first | second
            · exact ⟨address, List.mem_cons_self, place, object.layout, footprint, first⟩
            · obtain ⟨other, listed, rest⟩ := owned byte second
              exact ⟨other, List.mem_cons_of_mem _ listed, rest⟩

/-- The bytes of distinct objects are used bytes. -/
theorem Placed.sum_sizes_le {space : Space} (placed : space.Placed) {addresses : List Address}
    (distinct : addresses.Nodup) :
    ((space.layoutsAt addresses).map Layout.size).sum ≤ space.usedBytes := by
  obtain ⟨bytes, count, owned⟩ := placed.exists_bytes distinct
  have used : bytes ⊆ Slab.usedOf space.slabs := by
    intro byte member
    obtain ⟨address, _, place, layout, found, inside⟩ := owned byte member
    obtain ⟨slab, listed, serial, below⟩ := placed.covered address place layout found
    rw [Place.mem_bytes_iff] at inside
    exact Slab.mem_usedOf listed (inside.1.trans serial.symm) (Nat.lt_of_lt_of_le inside.2.2 below)
  rw [← count, usedBytes_eq_sum]
  exact Nat.le_trans (Finset.card_le_card used) (Slab.card_usedOf_le _)

end Space

/-! ## Marking -/

namespace Marking

/-- Marking leaves the layouts alone. -/
theorem Traces.layoutsAt {space : Space} {marking : Marking} (traces : Traces space marking)
    (addresses : List Address) :
    marking.space.layoutsAt addresses = space.layoutsAt addresses := by
  induction addresses with
  | nil => rfl
  | cons address rest ih =>
      have here := traces.object? address
      cases found : space.object? address with
      | none =>
          rw [found] at here
          rw [Space.layoutsAt_cons_of_none found, Space.layoutsAt_cons_of_none (by simp [here]), ih]
      | some object =>
          rw [found] at here
          have marked : ∃ other, marking.space.object? address = some other ∧
              other.layout = object.layout := by
            by_cases queued : address ∈ marking.live.toList
            · exact ⟨object.mark, by simpa [queued] using here, rfl⟩
            · exact ⟨object, by simpa [queued] using here, rfl⟩
          obtain ⟨other, there, layout⟩ := marked
          rw [Space.layoutsAt_cons_of_some found, Space.layoutsAt_cons_of_some there, layout, ih]

/-- The marked objects take no more bytes than are used. -/
theorem Traces.liveBytes_le {space : Space} {marking : Marking} (traces : Traces space marking)
    (placed : space.Placed) : marking.liveBytes ≤ space.usedBytes := by
  rw [marking.liveBytes_eq, traces.layoutsAt]
  exact placed.sum_sizes_le traces.distinct

end Marking

/-! ## Relocation -/

namespace Relocation

section

variable {marked : Space} {allocator : SlabAllocator} {relocation last : Relocation}
  {moved rest : List Address} (sofar : Moved marked allocator relocation moved)
  (distinct : (moved ++ rest).Nodup)
  (present : ∀ address ∈ rest, ∃ object, marked.object? address = some object)

include sofar distinct present

/-- While objects are moved the allocator stays solvent, whether all of them can be moved or not. -/
theorem Moved.solvent_moveAll (solvent : relocation.allocator.Solvent)
    {result : Except HeapError Unit} (ran : relocation.moveAll rest = (result, last)) :
    last.allocator.Solvent := by
  have throughout := sofar.moveAll_induction distinct present
    (motive := fun _ relocation => relocation.allocator.Solvent) solvent (by
      intro relocation moved address object sofar _ solvent next moves
      cases moves with
      | bumped _ _ => exact solvent
      | extended _ issue _ => exact solvent.of_acquire sofar.accounts issue)
  cases result with
  | ok value => exact throughout.1 last ran
  | error error =>
      obtain ⟨_, _, sofar, solvent, moves⟩ := throughout.2 error last ran
      cases moves with
      | refused _ issue => exact solvent.of_acquire sofar.accounts issue

/-- While objects are moved, the new space grows exactly, next to the old slabs; and only a lack of
memory ends it early. -/
theorem Moved.exact_moveAll (solvent : relocation.allocator.Solvent)
    {result : Except HeapError Unit} (ran : relocation.moveAll rest = (result, last)) :
    last.target.Exact last.allocator marked.slabs ∧
      ∀ error, result = .error error → ∃ size limit, error = .outOfMemory size limit := by
  have solvent := sofar.solvent_moveAll distinct present solvent ran
  have outcome := sofar.moveAll distinct present
  rw [ran] at outcome
  rcases outcome with ⟨done, sofar⟩ | ⟨size, _, failed, _, sofar⟩
  · dsimp only at done
    subst done
    exact ⟨sofar.placed.exact sofar.accounts solvent, fun error same => by cases same⟩
  · dsimp only at failed
    subst failed
    refine ⟨sofar.placed.exact sofar.accounts solvent, fun error same => ?_⟩
    cases same
    exact ⟨_, _, rfl⟩

end

end Relocation

/-! ## Fixing up -/

/-- What is ready for fixing up, is so for the first objects. -/
theorem Space.Fixable.of_prefix {source target : Space} {handles : HandleTable Address}
    {copy : Address → Address} {before after : List Address}
    (ready : Fixable source target handles copy (before ++ after)) :
    Fixable source target handles copy before where
  chained := ready.chained
  distinct := ready.distinct.of_append_left
  forwarded address member := ready.forwarded address (List.mem_append_left _ member)
  injective first here second there :=
    ready.injective first (List.mem_append_left _ here) second (List.mem_append_left _ there)
  fresh first here second there :=
    ready.fresh first (List.mem_append_left _ here) second (List.mem_append_left _ there)
  named address member := ready.named address (List.mem_append_left _ member)
  unique address member := ready.unique address (List.mem_append_left _ member)

namespace Heap

/-- Whatever survivors of a heap have been fixed up after the relocation, the next one has been
forwarded to a copy that fits its layout, everything that the copy refers to has been forwarded
too, and the slot that owns the copy is live. -/
def FixesUpExactly (heap : Heap) (relocation : Relocation) : Prop :=
  ∀ before address after, heap.mark.live.toList = before ++ address :: after →
    ∃ fixed updated copy object, relocation.source.fixUp relocation.target heap.handles before =
        .ok (fixed, updated) ∧ updated.Exact ∧
      relocation.source.forwardOf address = some copy ∧ fixed.object? copy = some object ∧
      object.Fits ∧ (∃ handle, updated.handleAt? object.owner = some handle) ∧
      ∀ target ∈ object.targets, ∃ moved, relocation.source.forwardOf target = some moved

/-- Whatever slots have been vacated after all survivors have been fixed up, the next one is still
live. -/
def SweepsExactly (heap : Heap) (relocation : Relocation) : Prop :=
  ∀ fixed updated, relocation.source.fixUp relocation.target heap.handles heap.mark.live.toList =
      .ok (fixed, updated) →
    ∀ before index after, updated.leftBehind fixed = before ++ index :: after →
      ∃ swept, updated.recycleAll before = .ok swept ∧ swept.Exact ∧
        ∃ handle, swept.handleAt? index = some handle

/-- The stages of a collection of a heap compute exactly.  The roots lead to objects, and so does
whatever is marked; the marked bytes are used bytes; while survivors are moved the new space grows
exactly next to the old slabs, and is abandoned for a lack of memory only; and when all have been
moved, the copies are fixed up and the slots left behind vacated one after the other. -/
structure CollectsExactly (heap : Heap) : Prop where
  rooted : ∀ root ∈ heap.rootAddresses, ∃ object, heap.space.object? root = some object
  marked : ∀ address ∈ heap.mark.live.toList, ∃ object,
    heap.mark.space.object? address = some object ∧ object.Fits
  counted : heap.mark.liveBytes ≤ heap.usedBytes
  moves : ∀ moved rest, heap.mark.live.toList = moved ++ rest → ∀ result relocation,
    (Relocation.begin heap.allocator heap.mark.space).moveAll moved = (result, relocation) →
      relocation.target.Exact relocation.allocator heap.space.slabs ∧
        ∀ error, result = .error error → ∃ size limit, error = .outOfMemory size limit
  fixesUp : ∀ relocation, (Relocation.begin heap.allocator heap.mark.space).moveAll
    heap.mark.live.toList = (.ok (), relocation) → heap.FixesUpExactly relocation
  sweeps : ∀ relocation, (Relocation.begin heap.allocator heap.mark.space).moveAll
    heap.mark.live.toList = (.ok (), relocation) → heap.SweepsExactly relocation

section

variable {heap : Heap} (sound : heap.Sound) {relocation : Relocation}

include sound

/-- The references of a survivor lead to survivors. -/
theorem Sound.target_mem_mark {address : Address} (member : address ∈ heap.mark.live.toList)
    {object : HeapObject} (found : heap.space.object? address = some object) {target : Address}
    (refers : target ∈ object.targets) : target ∈ heap.mark.live.toList := by
  obtain ⟨_, reached⟩ := sound.mark
  exact (reached target).mpr (.step ((reached address).mp member) found refers)

theorem Sound.fixesUpExactly (balanced : heap.Balanced)
    (moved : relocation.Moved heap.mark.space heap.allocator heap.mark.live.toList) :
    heap.FixesUpExactly relocation := by
  intro before address after split
  obtain ⟨traces, _⟩ := sound.mark
  have member : address ∈ heap.mark.live.toList := by simp [split]
  have ready := sound.fixable traces moved
  have first : Space.Fixable relocation.source relocation.target heap.handles
      (copyOf heap.space.number heap.mark.live.toList) (before ++ address :: after) := by
    rw [← split]
    exact ready
  obtain ⟨fixed, updated, fixUp, fixes⟩ := first.of_prefix.fixUp
  obtain ⟨original, place, found, copied⟩ :=
    copy_of_live traces moved (List.getElem?_idxOf member)
  obtain ⟨object, handle, holds, there, owner, named⟩ := ready.named address member
  have isCopy : object = original.copyWith relocatedFlag := by
    have here := Space.object?_eq_some_iff.mpr ⟨place, copied⟩
    exact Option.some.inj (there.symm.trans here)
  have new : address ∉ before := by
    have distinct := traces.distinct
    rw [split] at distinct
    exact fun earlier => (List.nodup_append.mp distinct).2.2 _ earlier _ List.mem_cons_self rfl
  refine ⟨fixed, updated, _, object, fixUp, ?_, ready.forwarded address member, ?_, ?_, ?_, ?_⟩
  · refine fixes.chained.exact (Space.counted_fixUp balanced.counted fixUp).1 ?_
    rw [fixes.slots]
    exact sound.bounded
  · have other : copyOf heap.space.number heap.mark.live.toList address ∉
        before.map (copyOf heap.space.number heap.mark.live.toList) := by
      intro listed
      obtain ⟨earlier, earlierMember, same⟩ := List.mem_map.mp listed
      have known : earlier ∈ heap.mark.live.toList := by simp [split, earlierMember]
      exact new (ready.injective earlier known address member same ▸ earlierMember)
    obtain ⟨copyPlace, resident⟩ := Space.object?_eq_some_iff.mp there
    refine Space.object?_eq_some_iff.mpr ⟨copyPlace, ?_⟩
    rw [fixes.residents, if_neg other, resident]
  · have fits := (sound.linked.rest address original found).fits
    subst isCopy
    exact ⟨fits.laidOut, fits.power, fits.page, fits.inside⟩
  · have still := (fixes.found handle address holds).mpr ⟨address, named, by rw [if_neg new]⟩
    exact ⟨handle, HandleTable.handleAt?_eq_some_iff.mpr ⟨owner.symm, address, holds, still⟩⟩
  · intro target refers
    subst isCopy
    have live := sound.target_mem_mark member found refers
    exact ⟨_, ready.forwarded target live⟩

theorem Sound.sweepsExactly (balanced : heap.Balanced)
    (moved : relocation.Moved heap.mark.space heap.allocator heap.mark.live.toList) :
    heap.SweepsExactly relocation := by
  intro fixed updated fixUp before index after split
  obtain ⟨traces, _⟩ := sound.mark
  obtain ⟨_, _, again, fixes⟩ := (sound.fixable traces moved).fixUp
  rw [fixUp] at again
  cases again
  have bounded : updated.slots ≤ 2 ^ 32 := sound.slots_updated fixes
  have distinct := HandleTable.nodup_leftBehind bounded fixed
  have live : ∀ slot ∈ updated.leftBehind fixed, ∃ handle occupant, handle.index = slot ∧
      updated.find handle = .ok occupant := by
    intro slot member
    obtain ⟨handle, address, holds, here, found, _⟩ :=
      (HandleTable.mem_leftBehind_iff bounded).mp member
    exact ⟨handle, _, here, found⟩
  rw [split] at distinct live
  obtain ⟨swept, recycles, chained, slots, found⟩ :=
    fixes.chained.recycleAll distinct.of_append_left
      fun slot member => live slot (List.mem_append_left _ member)
  obtain ⟨handle, ⟨address, holds⟩, here, named⟩ := live index (by simp)
  have later : handle.index ∉ before := by
    rw [here]
    exact fun earlier => (List.nodup_append.mp distinct).2.2 _ earlier _ List.mem_cons_self rfl
  have counted := (Space.counted_fixUp balanced.counted fixUp).1.recycleAll recycles
  refine ⟨swept, recycles, chained.exact counted.1 ?_, handle, ?_⟩
  · rw [slots, fixes.slots]
    exact sound.bounded
  · exact HandleTable.handleAt?_eq_some_iff.mpr
      ⟨here, address, holds, (found handle _).mpr ⟨later, named⟩⟩

theorem Sound.collectsExactly (balanced : heap.Balanced) (solvent : heap.allocator.Solvent) :
    heap.CollectsExactly where
  rooted := sound.rootAddresses_present
  marked address member := by
    obtain ⟨traces, _⟩ := sound.mark
    obtain ⟨object, found⟩ := traces.present address member
    have fits := (sound.linked.rest address object found).fits
    refine ⟨object.mark, ?_, fits.laidOut, fits.power, fits.page, fits.inside⟩
    rw [traces.object?, if_pos member, found]
    rfl
  counted := sound.mark.1.liveBytes_le sound.placed
  moves moved rest split result relocation ran := by
    obtain ⟨traces, _⟩ := sound.mark
    have distinct := traces.distinct
    have present := traces.present_marked
    rw [split] at distinct present
    have first : ([] ++ moved).Nodup := distinct.of_append_left
    have outcome := (Relocation.moved_begin sound.accounts_mark).exact_moveAll first
      (fun address member => present address (List.mem_append_left _ member)) solvent ran
    rwa [traces.slabs] at outcome
  fixesUp _ ran := sound.fixesUpExactly balanced (sound.moved_of_ok ran)
  sweeps _ ran := sound.sweepsExactly balanced (sound.moved_of_ok ran)

end

end Heap

end CompactingHeap
