import CompactingHeap.Proofs.Reclamation

/-!
# Collections do not show

Through the handles that survive it, a collection cannot be observed.  Every copy has the words,
the tail and the run length of its original, and its references lead to the copies of what they led
to, so reading a reference gives the same handle as before.  Only the memory is new: no survivor
stays in a slab that it lay in.
-/

namespace CompactingHeap

namespace Heap

/-- What can be read through a handle is the same in two heaps. -/
structure ReadsAlike (start finish : Heap) (handle : Handle) : Prop where
  classOf : finish.classOf handle = start.classOf handle
  descriptorOf : finish.descriptorOf handle = start.descriptorOf handle
  tailLength : finish.tailLength handle = start.tailLength handle
  readWord : ∀ offset, finish.readWord handle offset = start.readWord handle offset
  bytes : finish.bytes handle = start.bytes handle
  peek : ∀ offset length, finish.peek handle offset length = start.peek handle offset length
  string : finish.string handle = start.string handle
  int : finish.int handle = start.int handle
  float : finish.float handle = start.float handle
  bool : finish.bool handle = start.bool handle
  char : finish.char handle = start.char handle
  runLength : finish.runLength handle = start.runLength handle
  holds : finish.holds handle = start.holds handle
  readRef : ∀ offset, finish.readRef handle offset = start.readRef handle offset
  runGet : ∀ index, finish.runGet handle index = start.runGet handle index

/-- A collection is invisible: whatever survives reads as before, the roots, the interned strings,
the qualified names and the classes are as before, and every survivor lies in a new slab. -/
structure Invisible (start finish : Heap) : Prop where
  reads : ∀ handle, finish.isLive handle = true → ReadsAlike start finish handle
  roots : finish.roots = start.roots
  lookupInterned : ∀ bytes, finish.lookupInterned bytes = start.lookupInterned bytes
  qualified : ∀ scope name, finish.interner.qualified scope name =
    start.interner.qualified scope name
  components : ∀ qualified, finish.components qualified = start.components qualified
  classes : finish.classes = start.classes
  moved : ∀ handle address resident, finish.residentOf handle = .ok (address, resident) →
    resident.place.slab ∉ start.space.slabs.map Slab.serial

section

variable {start finish : Heap} {live : List Address}

/-- The object of a survivor before and after a collection. -/
theorem Compacts.objectOf (compacts : start.Compacts finish live) (sound : start.Sound)
    {handle : Handle} (alive : finish.isLive handle = true) :
    ∃ address object, address ∈ live ∧ start.space.object? address = some object ∧
      start.objectOf handle = .ok object ∧
      finish.objectOf handle =
        .ok (object.redirect (forwarding (start.space.number + 1) live)) := by
  rcases HandleTable.isLive_iff.mp alive with ⟨copy, holds, after⟩
  rcases (compacts.found handle copy holds).mp after with ⟨address, before, forwarded⟩
  obtain ⟨object, here, _⟩ := sound.object_of_find before
  have there := compacts.object?_eq_some_iff.mpr ⟨address, object, forwarded, here, rfl⟩
  exact ⟨address, object, mem_of_forwarding forwarded, here,
    objectOf_eq_ok_iff.mpr ⟨address, HandleTable.resolve_of_find before, here⟩,
    objectOf_eq_ok_iff.mpr ⟨copy, HandleTable.resolve_of_find after, there⟩⟩

/-- The handle of a copy is the handle of the original. -/
theorem Compacts.handleOf?_copy (compacts : start.Compacts finish live) (sound : start.Sound)
    {address copy : Address}
    (forwarded : forwarding (start.space.number + 1) live address = some copy) :
    finish.handleOf? copy = start.handleOf? address := by
  apply Option.ext
  intro handle
  rw [(compacts.sound sound).handleOf?_eq_some_iff, sound.handleOf?_eq_some_iff]
  constructor
  · rintro ⟨holds, after⟩
    rcases (compacts.found handle copy holds).mp after with ⟨other, before, same⟩
    rw [forwarding_eq_some_iff compacts.distinct] at forwarded same
    have equal := forwarded.2.symm.trans same.2
    cases equal
    exact ⟨holds, before⟩
  · rintro ⟨holds, before⟩
    exact ⟨holds, (compacts.found handle copy holds).mpr ⟨address, before, forwarded⟩⟩

/-- A traced slot of a copy names the handle that the slot of the original named. -/
theorem Compacts.slot_copy (compacts : start.Compacts finish live) (sound : start.Sound)
    {address : Address} (member : address ∈ live) {object : HeapObject}
    (found : start.space.object? address = some object) {offset : Nat}
    (traced : offset ∈ object.slotOffsets) :
    ((object.redirect (forwarding (start.space.number + 1) live)).slot offset).bind
        finish.handleOf? =
      (object.slot offset).bind start.handleOf? := by
  rw [object.slot_redirect _ traced]
  cases here : object.slot offset with
  | none => rfl
  | some target =>
      have refers := Object.mem_targets_iff.mpr ⟨offset, traced, here⟩
      rcases Compacts.exists_forwarding (compacts.target_mem member found refers)
        (start.space.number + 1) with ⟨copy, forwarded⟩
      simp only [Option.bind_some, forwarded]
      exact compacts.handleOf?_copy sound forwarded

/-- A survivor passes for an instance of a class after a collection exactly if it did before. -/
theorem Compacts.expect (compacts : start.Compacts finish live) (sound : start.Sound)
    {handle : Handle} (alive : finish.isLive handle = true) (id : ClassId) :
    finish.expect handle id = (start.expect handle id).map fun object =>
      object.redirect (forwarding (start.space.number + 1) live) := by
  obtain ⟨_, object, _, _, before, after⟩ := compacts.objectOf sound alive
  unfold Heap.expect
  rw [before, after, compacts.classes]
  dsimp only [bind, Except.bind]
  rw [Object.descriptor_redirect]
  by_cases same : object.descriptor.id = id
  · rw [if_pos same, if_pos same]
    rfl
  · rw [if_neg same, if_neg same]
    cases start.classes.get id <;> rfl

/-- The word of a scalar survives. -/
theorem Compacts.scalar (compacts : start.Compacts finish live) (sound : start.Sound)
    {handle : Handle} (alive : finish.isLive handle = true) (id : ClassId) :
    finish.scalar handle id = start.scalar handle id := by
  unfold Heap.scalar
  rw [compacts.expect sound alive id]
  cases start.expect handle id with
  | error error => rfl
  | ok object =>
      simp only [Except.map, Object.word_redirect]

/-- A reference of a survivor is read as before. -/
theorem Compacts.readRef (compacts : start.Compacts finish live) (sound : start.Sound)
    {handle : Handle} (alive : finish.isLive handle = true) (offset : Nat) :
    finish.readRef handle offset = start.readRef handle offset := by
  obtain ⟨address, object, member, found, before, after⟩ := compacts.objectOf sound alive
  unfold Heap.readRef Heap.withRefField
  rw [before, after]
  dsimp only [bind, Except.bind]
  rw [Object.descriptor_redirect]
  by_cases field : object.descriptor.isRefField offset = true
  · have traced : offset ∈ object.slotOffsets :=
      Descriptor.mem_slotOffsets_iff.mpr (Or.inl (List.contains_iff_mem.mp field))
    rw [if_pos field, if_pos field]
    exact congrArg Except.ok (compacts.slot_copy sound member found traced)
  · rw [if_neg field, if_neg field]
    rfl

/-- An element of the run of a survivor is read as before. -/
theorem Compacts.runGet (compacts : start.Compacts finish live) (sound : start.Sound)
    {handle : Handle} (alive : finish.isLive handle = true) (index : Nat) :
    finish.runGet handle index = start.runGet handle index := by
  obtain ⟨address, object, member, found, before, after⟩ := compacts.objectOf sound alive
  unfold Heap.runGet Heap.runElement Heap.runOf
  rw [before, after]
  dsimp only [bind, Except.bind]
  rw [Object.descriptor_redirect]
  cases run : object.descriptor.runOffset? with
  | none => rfl
  | some offset =>
      dsimp only [pure, Except.pure]
      rw [Object.runLength_redirect]
      by_cases inside : index < object.runLength
      · have traced : runSlot offset index ∈ object.slotOffsets :=
          Descriptor.mem_slotOffsets_iff.mpr
            (Or.inr ⟨offset, index, Descriptor.runOffset?_eq_some_iff.mp run, inside, rfl⟩)
        rw [if_pos inside, if_pos inside]
        exact congrArg Except.ok (compacts.slot_copy sound member found traced)
      · rw [if_neg inside, if_neg inside]
        rfl

/-- The holds on a survivor are as before. -/
theorem Compacts.holds (compacts : start.Compacts finish live) {handle : Handle}
    (alive : finish.isLive handle = true) : finish.holds handle = start.holds handle := by
  rcases HandleTable.isLive_iff.mp alive with ⟨copy, count, after⟩
  rcases (compacts.found handle copy count).mp after with ⟨address, before, _⟩
  unfold Heap.holds HandleTable.holds
  rw [after, before]
  rfl

/-- A word of a survivor is read as before. -/
theorem Compacts.readWord (compacts : start.Compacts finish live) (sound : start.Sound)
    {handle : Handle} (alive : finish.isLive handle = true) (offset : Nat) :
    finish.readWord handle offset = start.readWord handle offset := by
  obtain ⟨_, object, _, _, before, after⟩ := compacts.objectOf sound alive
  unfold Heap.readWord Heap.withDataWord
  rw [before, after]
  dsimp only [bind, Except.bind]
  rw [Object.descriptor_redirect]
  by_cases plain : object.descriptor.isDataWord offset = true
  · rw [if_pos plain, if_pos plain]
    exact congrArg Except.ok (object.word_redirect _ offset)
  · rw [if_neg plain, if_neg plain]

/-- The run of a survivor is as long as before. -/
theorem Compacts.runLength (compacts : start.Compacts finish live) (sound : start.Sound)
    {handle : Handle} (alive : finish.isLive handle = true) :
    finish.runLength handle = start.runLength handle := by
  obtain ⟨_, object, _, _, before, after⟩ := compacts.objectOf sound alive
  unfold Heap.runLength Heap.runOf
  rw [before, after]
  dsimp only [bind, Except.bind]
  rw [Object.descriptor_redirect]
  cases object.descriptor.runOffset? with
  | none => rfl
  | some offset => exact congrArg Except.ok (object.runLength_redirect _)

/-- A survivor reads as before. -/
theorem Compacts.readsAlike (compacts : start.Compacts finish live) (sound : start.Sound)
    {handle : Handle} (alive : finish.isLive handle = true) : ReadsAlike start finish handle := by
  have scalar := compacts.scalar sound alive
  obtain ⟨_, object, _, _, before, after⟩ := compacts.objectOf sound alive
  constructor
  · unfold Heap.classOf
    rw [before, after]
    simp only [Except.map, Object.descriptor_redirect]
  · unfold Heap.descriptorOf
    rw [before, after]
    simp only [Except.map, Object.descriptor_redirect]
  · unfold Heap.tailLength
    rw [before, after]
    simp only [Except.map, Object.extra_redirect]
  · exact compacts.readWord sound alive
  · unfold Heap.bytes
    rw [before, after]
    dsimp only [bind, Except.bind]
    rw [Object.descriptor_redirect, Object.tail_redirect]
  · intro offset length
    unfold Heap.peek
    rw [before, after]
    simp only [Except.map, Object.peek, Object.fixedByte, Object.descriptor_redirect,
      Object.tail_redirect, Object.word_redirect]
  · unfold Heap.string
    rw [compacts.expect sound alive .string]
    cases start.expect handle .string with
    | error error => rfl
    | ok object =>
        simp only [Except.map, Object.tail_redirect]
  · unfold Heap.int
    rw [scalar]
  · exact scalar .float
  · unfold Heap.bool
    rw [scalar]
  · unfold Heap.char
    rw [scalar]
  · exact compacts.runLength sound alive
  · exact compacts.holds alive
  · exact compacts.readRef sound alive
  · exact compacts.runGet sound alive

/-- A collection that compacts a sound heap is invisible. -/
theorem Compacts.invisible (compacts : start.Compacts finish live) (sound : start.Sound) :
    Invisible start finish where
  reads _ alive := compacts.readsAlike sound alive
  roots := compacts.roots
  lookupInterned bytes := by
    unfold Heap.lookupInterned
    rw [compacts.interner]
  qualified scope name := by rw [compacts.interner]
  components qualified := by
    unfold Heap.components
    rw [compacts.interner]
  classes := compacts.classes
  moved handle address resident found := by
    have here : finish.space.resident? address = some resident := by
      unfold Heap.residentOf at found
      split at found
      · cases found
      · split at found
        · next known =>
          cases found
          exact known
        · cases found
    have footprint := Space.footprint?_eq_some_iff.mpr ⟨resident.object, here, rfl⟩
    obtain ⟨slab, member, serial, _⟩ := compacts.placed.covered _ _ _ footprint
    rw [← serial]
    exact compacts.renewed slab member

end

/-- Transparency: a completed collection of a reachable heap is invisible, and so is each
collection that an operation completes. -/
theorem Reachable.collections_invisible {heap : Heap} (reachable : heap.Reachable) {α : Type}
    {operation : HeapM α} (offered : Operation operation)
    (bounded : (operation.run heap).2.handles.slots < 2 ^ 32) :
    (∀ finish, collect.run heap = (.ok (), finish) → Invisible heap finish) ∧
      EachCollection heap (operation.run heap).2 Invisible := by
  constructor
  · intro finish ran
    obtain ⟨live, compacts⟩ := reachable.sound.compacts ran
    exact compacts.invisible reachable.sound
  · apply reachable.eachCollection offered bounded
    intro start finish live startSound compacts
    exact compacts.invisible startSound

/-- After a collection of the sample heap the pair refers to the same integer as before. -/
theorem collection_of_sample_invisible :
    sample.Reachable ∧ (collect.run sample).2.handles.slots < 2 ^ 32 ∧
      sample.readRef ⟨1, 0⟩ 0 = .ok (some ⟨0, 0⟩) ∧
      (collect.run sample).2.readRef ⟨1, 0⟩ 0 = .ok (some ⟨0, 0⟩) ∧
      (∀ finish, collect.run sample = (.ok (), finish) → Invisible sample finish) ∧
      EachCollection sample (collect.run sample).2 Invisible :=
  ⟨reachable_sample, by decide +kernel, by decide +kernel, by decide +kernel,
    Reachable.collections_invisible reachable_sample Operation.collect (by decide +kernel)⟩

end Heap

end CompactingHeap
