import CompactingHeap.Heap.Fields
import CompactingHeap.Proofs.Soundness

/-!
# Reading through handles

A read through a handle finds the object at the address that the handle names, checks the class of
the object, and answers with what is in the object.  Where a slot holds an address, the answer is
the handle that names this address, which in a sound heap is the only one.
-/

namespace CompactingHeap

/-- A sequence of two steps succeeds if the first does, and the second does after it. -/
theorem bind_eq_ok_iff {ε α β : Type} {first : Except ε α} {next : α → Except ε β} {result : β} :
    (first >>= next) = .ok result ↔ ∃ value, first = .ok value ∧ next value = .ok result := by
  cases first with
  | error error => simp [bind, Except.bind]
  | ok value => simp [bind, Except.bind]

/-- A checked answer is given if the check holds. -/
theorem ite_throw_eq_ok_iff {ε α : Type} {check : Prop} [Decidable check] {answer result : α}
    {error : ε} :
    (if check then pure answer else throw error : Except ε α) = .ok result ↔
      check ∧ answer = result := by
  split
  · next holds => simp [holds, pure, Except.pure]
  · next fails => simp [fails, throw, throwThe, MonadExceptOf.throw]

namespace Heap

/-! ## Objects and checks -/

/-- The object that a handle names lies at the address that the handle names. -/
theorem objectOf_eq_ok_iff {heap : Heap} {handle : Handle} {object : HeapObject} :
    heap.objectOf handle = .ok object ↔
      ∃ address, heap.handles.resolve handle = .ok address ∧
        heap.space.object? address = some object := by
  unfold objectOf residentOf
  cases heap.handles.resolve handle with
  | error error => simp [Except.map]
  | ok address =>
      cases found : heap.space.resident? address with
      | none => simp [Except.map, Space.object?, found]
      | some resident => simp [Except.map, Space.object?, found]

theorem withRefField_eq_ok_iff {heap : Heap} {handle : Handle} {offset : Nat}
    {object : HeapObject} :
    heap.withRefField handle offset = .ok object ↔
      heap.objectOf handle = .ok object ∧ .ref offset ∈ object.descriptor.trace := by
  unfold withRefField
  rw [bind_eq_ok_iff]
  constructor
  · rintro ⟨other, found, checked⟩
    rcases ite_throw_eq_ok_iff.mp checked with ⟨field, rfl⟩
    exact ⟨found, Descriptor.isRefField_iff.mp field⟩
  · rintro ⟨found, field⟩
    exact ⟨object, found, ite_throw_eq_ok_iff.mpr ⟨Descriptor.isRefField_iff.mpr field, rfl⟩⟩

theorem withDataWord_eq_ok_iff {heap : Heap} {handle : Handle} {offset : Nat}
    {object : HeapObject} :
    heap.withDataWord handle offset = .ok object ↔
      heap.objectOf handle = .ok object ∧ object.descriptor.isDataWord offset = true := by
  unfold withDataWord
  rw [bind_eq_ok_iff]
  constructor
  · rintro ⟨other, found, checked⟩
    rcases ite_throw_eq_ok_iff.mp checked with ⟨plain, rfl⟩
    exact ⟨found, plain⟩
  · rintro ⟨found, plain⟩
    exact ⟨object, found, ite_throw_eq_ok_iff.mpr ⟨plain, rfl⟩⟩

theorem runOf_eq_ok_iff {heap : Heap} {handle : Handle} {object : HeapObject} {offset : Nat} :
    heap.runOf handle = .ok (object, offset) ↔
      heap.objectOf handle = .ok object ∧ object.descriptor.runOffset? = some offset := by
  unfold runOf
  rw [bind_eq_ok_iff]
  constructor
  · rintro ⟨other, found, checked⟩
    split at checked
    · next here =>
      cases checked
      exact ⟨found, here⟩
    · cases checked
  · rintro ⟨found, here⟩
    refine ⟨object, found, ?_⟩
    rw [here]
    rfl

theorem runElement_eq_ok_iff {heap : Heap} {handle : Handle} {index : Nat} {object : HeapObject}
    {slot : Nat} :
    heap.runElement handle index = .ok (object, slot) ↔
      ∃ offset, heap.runOf handle = .ok (object, offset) ∧ index < object.runLength ∧
        runSlot offset index = slot := by
  unfold runElement
  rw [bind_eq_ok_iff]
  constructor
  · rintro ⟨⟨other, offset⟩, found, checked⟩
    rcases ite_throw_eq_ok_iff.mp checked with ⟨inside, same⟩
    cases same
    exact ⟨offset, found, inside, rfl⟩
  · rintro ⟨offset, found, inside, rfl⟩
    exact ⟨_, found, ite_throw_eq_ok_iff.mpr ⟨inside, rfl⟩⟩

/-! ## References -/

/-- Reading a reference gives the handle that names the address in the slot. -/
theorem readRef_eq_ok_iff {heap : Heap} {handle : Handle} {offset : Nat}
    {result : Option Handle} :
    heap.readRef handle offset = .ok result ↔
      ∃ object, heap.objectOf handle = .ok object ∧ .ref offset ∈ object.descriptor.trace ∧
        (object.slot offset).bind heap.handleOf? = result := by
  unfold readRef
  rw [bind_eq_ok_iff]
  constructor
  · rintro ⟨object, checked, read⟩
    rcases withRefField_eq_ok_iff.mp checked with ⟨found, field⟩
    exact ⟨object, found, field, Except.ok.inj read⟩
  · rintro ⟨object, found, field, read⟩
    exact ⟨object, withRefField_eq_ok_iff.mpr ⟨found, field⟩, congrArg Except.ok read⟩

/-- Reading an element of a run gives the handle that names the address in the slot. -/
theorem runGet_eq_ok_iff {heap : Heap} {handle : Handle} {index : Nat}
    {result : Option Handle} :
    heap.runGet handle index = .ok result ↔
      ∃ object offset, heap.objectOf handle = .ok object ∧
        object.descriptor.runOffset? = some offset ∧ index < object.runLength ∧
        (object.slot (runSlot offset index)).bind heap.handleOf? = result := by
  unfold runGet
  rw [bind_eq_ok_iff]
  constructor
  · rintro ⟨⟨object, slot⟩, checked, read⟩
    rcases runElement_eq_ok_iff.mp checked with ⟨offset, run, inside, rfl⟩
    rcases runOf_eq_ok_iff.mp run with ⟨found, here⟩
    exact ⟨object, offset, found, here, inside, Except.ok.inj read⟩
  · rintro ⟨object, offset, found, here, inside, read⟩
    have run := runOf_eq_ok_iff.mpr ⟨found, here⟩
    exact ⟨_, runElement_eq_ok_iff.mpr ⟨offset, run, inside, rfl⟩, congrArg Except.ok read⟩

/-- An element of the run of an object is one of its references. -/
theorem mem_targets_of_element {object : HeapObject} {offset index : Nat} {target : Address}
    (run : object.descriptor.runOffset? = some offset) (inside : index < object.runLength)
    (here : object.slot (runSlot offset index) = some target) : target ∈ object.targets := by
  apply Object.mem_targets_iff.mpr
  refine ⟨runSlot offset index, ?_, here⟩
  apply Descriptor.mem_slotOffsets_iff.mpr
  exact Or.inr ⟨offset, index, Descriptor.runOffset?_eq_some_iff.mp run, inside, rfl⟩

/-! ## The handle of an address -/

/-- The address of an optional reference of a sound heap leads to an object. -/
theorem Sound.addressOf_present {heap : Heap} (sound : heap.Sound) {value : Option Handle}
    {target : Option Address} (found : heap.addressOf value = .ok target) {address : Address}
    (present : target = some address) : ∃ object, heap.space.object? address = some object := by
  cases value with
  | none =>
      cases found
      cases present
  | some handle =>
      subst present
      change (heap.handles.resolve handle).map some = .ok (some address) at found
      cases resolved : heap.handles.resolve handle with
      | error error =>
          rw [resolved] at found
          cases found
      | ok other =>
          rw [resolved] at found
          cases found
          obtain ⟨holds, named⟩ := HandleTable.find_of_resolve resolved
          obtain ⟨object, here, _⟩ := sound.object_of_find named
          exact ⟨object, here⟩

/-- The handle of an address is the one that names it. -/
theorem Sound.handleOf?_eq_some_iff {heap : Heap} (sound : heap.Sound) {address : Address}
    {handle : Handle} :
    heap.handleOf? address = some handle ↔
      ∃ holds, heap.handles.find handle = .ok (address, holds) := by
  unfold handleOf?
  rw [Option.bind_eq_some_iff]
  constructor
  · rintro ⟨object, found, named⟩
    rcases HandleTable.handleAt?_eq_some_iff.mp named with ⟨index, other, holds, here⟩
    obtain ⟨generation, count, owned⟩ := sound.linked.owned address object found
    have same := HandleTable.eq_of_find here owned index
    subst same
    exact ⟨count, owned⟩
  · rintro ⟨holds, found⟩
    obtain ⟨object, here, owner⟩ := sound.object_of_find found
    exact ⟨object, here, HandleTable.handleAt?_eq_some_iff.mpr ⟨owner.symm, address, holds, found⟩⟩

/-- A slot is read as a handle exactly if it holds the address that the handle names. -/
theorem Sound.bind_handleOf?_eq_some_iff {heap : Heap} (sound : heap.Sound) {handle : Handle}
    {address : Address} {holds : UInt32}
    (named : heap.handles.find handle = .ok (address, holds)) {slot : Option Address} :
    slot.bind heap.handleOf? = some handle ↔ slot = some address := by
  rw [Option.bind_eq_some_iff]
  constructor
  · rintro ⟨other, rfl, names⟩
    rcases sound.handleOf?_eq_some_iff.mp names with ⟨count, here⟩
    rw [named] at here
    cases here
    rfl
  · rintro rfl
    exact ⟨address, rfl, sound.handleOf?_eq_some_iff.mpr ⟨holds, named⟩⟩

/-- A reference of an object is read at one of its fields or as an element of its run. -/
theorem Sound.mem_targets_iff {heap : Heap} (sound : heap.Sound) {handle target : Handle}
    {object : HeapObject} {address : Address} {holds : UInt32}
    (found : heap.objectOf handle = .ok object)
    (named : heap.handles.find target = .ok (address, holds)) :
    address ∈ object.targets ↔
      (∃ offset, heap.readRef handle offset = .ok (some target)) ∨
        ∃ index, heap.runGet handle index = .ok (some target) := by
  have reads : ∀ slot : Option Address, slot.bind heap.handleOf? = some target ↔
      slot = some address := fun _ => sound.bind_handleOf?_eq_some_iff named
  rw [Object.mem_targets_iff]
  constructor
  · rintro ⟨offset, traced, here⟩
    rcases Descriptor.mem_slotOffsets_iff.mp traced with field | ⟨run, index, member, inside, rfl⟩
    · exact Or.inl ⟨offset, readRef_eq_ok_iff.mpr ⟨object, found, field, (reads _).mpr here⟩⟩
    · have runs := Descriptor.runOffset?_eq_some_iff.mpr member
      exact Or.inr ⟨index,
        runGet_eq_ok_iff.mpr ⟨object, run, found, runs, inside, (reads _).mpr here⟩⟩
  · rintro (⟨offset, read⟩ | ⟨index, read⟩)
    · rcases readRef_eq_ok_iff.mp read with ⟨other, here, field, result⟩
      rw [found] at here
      cases here
      exact ⟨offset, Descriptor.mem_slotOffsets_iff.mpr (Or.inl field), (reads _).mp result⟩
    · rcases runGet_eq_ok_iff.mp read with ⟨other, run, here, runs, inside, result⟩
      rw [found] at here
      cases here
      exact Object.mem_targets_iff.mp (mem_targets_of_element runs inside ((reads _).mp result))

end Heap

end CompactingHeap
