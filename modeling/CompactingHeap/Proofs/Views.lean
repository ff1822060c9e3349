import CompactingHeap.Proofs.Transparency

/-!
# Views

What an object shows through its handle is its view: its class and its number of tail elements, its
plain data, and its references as handles.  Every read through a handle is a read of the view, so an
object that keeps its view reads as before, wherever it has been moved.  The view of a live handle
refers to live handles only.
-/

namespace CompactingHeap

/-- What an object shows: its class and its number of tail elements, its plain words and its byte
tail, its single references by their offsets, and the references of its run in order. -/
@[ext]
structure View where
  descriptor : Descriptor
  extra : UInt32
  word : Nat → UInt64
  tail : Bytes
  ref : Nat → Option Handle
  run : List (Option Handle)

/-- The handle is one of the references of the view. -/
def View.Refers (view : View) (handle : Handle) : Prop :=
  (∃ offset, view.ref offset = some handle) ∨ some handle ∈ view.run

/-- The elements of the run of an object, with the handles that name the addresses in it. -/
def Object.elements {α : Type} (object : Object α) (name : α → Option Handle) :
    List (Option Handle) :=
  match object.descriptor.runOffset? with
  | some offset =>
      (List.range object.runLength).map fun index =>
        (object.slot (Heap.runSlot offset index)).bind name
  | none => []

/-- What an object shows, given the handles that name the addresses in it. -/
def Object.view {α : Type} (object : Object α) (name : α → Option Handle) : View where
  descriptor := object.descriptor
  extra := object.extra
  word := object.word
  tail := object.tail
  ref offset :=
    if .ref offset ∈ object.descriptor.trace then (object.slot offset).bind name else none
  run := object.elements name

section

variable {α : Type} (object : Object α) (name : α → Option Handle)

@[simp]
theorem Object.descriptor_view : (object.view name).descriptor = object.descriptor :=
  rfl

@[simp]
theorem Object.extra_view : (object.view name).extra = object.extra :=
  rfl

@[simp]
theorem Object.word_view : (object.view name).word = object.word :=
  rfl

@[simp]
theorem Object.tail_view : (object.view name).tail = object.tail :=
  rfl

@[simp]
theorem Object.run_view : (object.view name).run = object.elements name :=
  rfl

/-- Only a field of the class shows as a reference. -/
theorem Object.ref_view (offset : Nat) :
    (object.view name).ref offset =
      if .ref offset ∈ object.descriptor.trace then (object.slot offset).bind name else none :=
  rfl

end

/-- The run of a view is as long as the object records. -/
theorem Object.length_elements {α : Type} (object : Object α) (name : α → Option Handle) :
    (object.elements name).length = object.runLength := by
  unfold elements runLength
  cases object.descriptor.runOffset? with
  | none => rfl
  | some offset => simp only [List.length_map, List.length_range]

theorem Object.getElem?_elements {α : Type} {object : Object α} {offset : Nat}
    (run : object.descriptor.runOffset? = some offset) (name : α → Option Handle) {index : Nat}
    (inside : index < object.runLength) :
    (object.elements name)[index]? =
      some ((object.slot (Heap.runSlot offset index)).bind name) := by
  unfold elements
  rw [run]
  simp only [List.getElem?_map, List.getElem?_range inside, Option.map_some]

namespace Heap

/-- The view of the object that a handle names. -/
def view? (heap : Heap) (handle : Handle) : Option View :=
  (heap.objectOf handle).toOption.map fun object => object.view heap.handleOf?

theorem view?_eq_some_iff {heap : Heap} {handle : Handle} {view : View} :
    heap.view? handle = some view ↔
      ∃ object, heap.objectOf handle = .ok object ∧ object.view heap.handleOf? = view := by
  unfold view?
  cases heap.objectOf handle with
  | error error =>
      constructor
      · intro seen
        cases seen
      · rintro ⟨object, found, _⟩
        cases found
  | ok object =>
      constructor
      · intro seen
        exact ⟨object, rfl, Option.some.inj seen⟩
      · rintro ⟨other, found, rfl⟩
        cases found
        rfl

/-! ## Live handles -/

theorem isLive_of_resolve {heap : Heap} {handle : Handle} {address : Address}
    (resolved : heap.handles.resolve handle = .ok address) : heap.isLive handle = true := by
  obtain ⟨holds, found⟩ := HandleTable.find_of_resolve resolved
  exact HandleTable.isLive_iff.mpr ⟨address, holds, found⟩

theorem isLive_of_view {heap : Heap} {handle : Handle} {view : View}
    (seen : heap.view? handle = some view) : heap.isLive handle = true := by
  rcases view?_eq_some_iff.mp seen with ⟨object, found, _⟩
  rcases objectOf_eq_ok_iff.mp found with ⟨address, resolved, _⟩
  exact isLive_of_resolve resolved

/-- The live handles of a sound heap are those with a view. -/
theorem Sound.isLive_iff {heap : Heap} (sound : heap.Sound) {handle : Handle} :
    heap.isLive handle = true ↔ ∃ view, heap.view? handle = some view := by
  constructor
  · intro live
    rcases HandleTable.isLive_iff.mp live with ⟨address, holds, found⟩
    obtain ⟨object, here, _⟩ := sound.object_of_find found
    have named := objectOf_eq_ok_iff.mpr ⟨address, HandleTable.resolve_of_find found, here⟩
    exact ⟨_, view?_eq_some_iff.mpr ⟨object, named, rfl⟩⟩
  · rintro ⟨view, seen⟩
    exact isLive_of_view seen

theorem Sound.isLive_eq_false_iff {heap : Heap} (sound : heap.Sound) {handle : Handle} :
    heap.isLive handle = false ↔ heap.view? handle = none := by
  rw [← Bool.not_eq_true, sound.isLive_iff, Option.eq_none_iff_forall_ne_some, not_exists]

/-- A handle without a view is stale. -/
theorem Sound.objectOf_stale {heap : Heap} (sound : heap.Sound) {handle : Handle}
    (unseen : heap.view? handle = none) :
    heap.objectOf handle = .error (.staleHandle handle) := by
  have dead := sound.isLive_eq_false_iff.mpr unseen
  have stale := HandleTable.isLive_eq_false_iff.mp dead
  unfold objectOf residentOf HandleTable.resolve
  rw [stale]
  rfl

theorem Sound.resolve_stale {heap : Heap} (sound : heap.Sound) {handle : Handle}
    (unseen : heap.view? handle = none) :
    heap.handles.resolve handle = .error (.staleHandle handle) := by
  have dead := sound.isLive_eq_false_iff.mpr unseen
  have stale := HandleTable.isLive_eq_false_iff.mp dead
  unfold HandleTable.resolve
  rw [stale]
  rfl

/-- The handle of an address is live. -/
theorem isLive_of_handleOf? {heap : Heap} {address : Address} {handle : Handle}
    (named : heap.handleOf? address = some handle) : heap.isLive handle = true := by
  rcases Option.bind_eq_some_iff.mp named with ⟨object, _, here⟩
  rcases HandleTable.handleAt?_eq_some_iff.mp here with ⟨_, other, holds, found⟩
  exact HandleTable.isLive_iff.mpr ⟨other, holds, found⟩

/-- A view refers to live handles. -/
theorem isLive_of_refers {heap : Heap} {handle target : Handle} {view : View}
    (seen : heap.view? handle = some view) (refers : view.Refers target) :
    heap.isLive target = true := by
  rcases view?_eq_some_iff.mp seen with ⟨object, _, rfl⟩
  rcases refers with ⟨offset, field⟩ | element
  · rw [Object.ref_view, Option.ite_none_right_eq_some] at field
    rcases Option.bind_eq_some_iff.mp field.2 with ⟨address, _, named⟩
    exact isLive_of_handleOf? named
  · rw [Object.run_view] at element
    unfold Object.elements at element
    split at element
    · rcases List.mem_map.mp element with ⟨index, _, read⟩
      rcases Option.bind_eq_some_iff.mp read with ⟨address, _, named⟩
      exact isLive_of_handleOf? named
    · cases element

/-! ## Reading a view -/

/-- An object that passes for an instance of a class has a view of this class. -/
theorem exists_view_of_expect {heap : Heap} {handle : Handle} {id : ClassId} {object : HeapObject}
    (passes : heap.expect handle id = .ok object) :
    ∃ view, heap.view? handle = some view ∧ view.descriptor.id = id := by
  unfold expect at passes
  cases found : heap.objectOf handle with
  | error error =>
      rw [found] at passes
      cases passes
  | ok other =>
      rw [found] at passes
      dsimp only [bind, Except.bind] at passes
      split at passes
      · next same => exact ⟨_, view?_eq_some_iff.mpr ⟨other, found, rfl⟩, same⟩
      · cases known : heap.classes.get id with
        | error error =>
            rw [known] at passes
            cases passes
        | ok descriptor =>
            rw [known] at passes
            cases passes

section

variable {heap : Heap} {handle : Handle} {view : View} (seen : heap.view? handle = some view)

include seen

theorem classOf_of_view : heap.classOf handle = .ok view.descriptor.id := by
  rcases view?_eq_some_iff.mp seen with ⟨object, found, rfl⟩
  unfold classOf
  rw [found]
  rfl

theorem descriptorOf_of_view : heap.descriptorOf handle = .ok view.descriptor := by
  rcases view?_eq_some_iff.mp seen with ⟨object, found, rfl⟩
  unfold descriptorOf
  rw [found]
  rfl

theorem tailLength_of_view : heap.tailLength handle = .ok view.extra.toNat := by
  rcases view?_eq_some_iff.mp seen with ⟨object, found, rfl⟩
  unfold tailLength
  rw [found]
  rfl

theorem readWord_of_view (offset : Nat) :
    heap.readWord handle offset =
      if view.descriptor.isDataWord offset then .ok (view.word offset)
      else .error (.invalidField view.descriptor.id offset) := by
  rcases view?_eq_some_iff.mp seen with ⟨object, found, shown⟩
  have descriptor : object.descriptor = view.descriptor := congrArg View.descriptor shown
  have word : object.word = view.word := congrArg View.word shown
  unfold readWord withDataWord
  rw [found, ← descriptor, ← word]
  dsimp only [bind, Except.bind]
  by_cases plain : object.descriptor.isDataWord offset = true
  · rw [if_pos plain, if_pos plain]
    rfl
  · rw [if_neg plain, if_neg plain]
    rfl

theorem readRef_of_view (offset : Nat) :
    heap.readRef handle offset =
      if view.descriptor.isRefField offset then .ok (view.ref offset)
      else .error (.invalidField view.descriptor.id offset) := by
  rcases view?_eq_some_iff.mp seen with ⟨object, found, shown⟩
  have descriptor : object.descriptor = view.descriptor := congrArg View.descriptor shown
  have ref := congrFun (congrArg View.ref shown) offset
  rw [Object.ref_view] at ref
  unfold readRef withRefField
  rw [found, ← descriptor, ← ref]
  dsimp only [bind, Except.bind]
  by_cases field : object.descriptor.isRefField offset = true
  · rw [if_pos field, if_pos field, if_pos (Descriptor.isRefField_iff.mp field)]
    rfl
  · rw [if_neg field, if_neg field]
    rfl

theorem runLength_of_view :
    heap.runLength handle =
      if view.descriptor.runOffset?.isSome then .ok view.run.length
      else .error (.invalidField view.descriptor.id view.descriptor.size) := by
  rcases view?_eq_some_iff.mp seen with ⟨object, found, shown⟩
  have descriptor : object.descriptor = view.descriptor := congrArg View.descriptor shown
  have run : object.elements heap.handleOf? = view.run := congrArg View.run shown
  unfold runLength runOf
  rw [found, ← descriptor, ← run, object.length_elements]
  dsimp only [bind, Except.bind]
  cases object.descriptor.runOffset? <;> rfl

theorem runGet_of_view (index : Nat) :
    heap.runGet handle index =
      if view.descriptor.runOffset?.isSome then
        match view.run[index]? with
        | some element => .ok element
        | none => .error (.indexOutOfRange index view.run.length)
      else .error (.invalidField view.descriptor.id view.descriptor.size) := by
  rcases view?_eq_some_iff.mp seen with ⟨object, found, shown⟩
  have descriptor : object.descriptor = view.descriptor := congrArg View.descriptor shown
  have elements : object.elements heap.handleOf? = view.run := congrArg View.run shown
  have length := object.length_elements heap.handleOf?
  unfold runGet runElement runOf
  rw [found, ← descriptor, ← elements, length]
  dsimp only [bind, Except.bind]
  cases run : object.descriptor.runOffset? with
  | none => rfl
  | some offset =>
      dsimp only [pure, Except.pure]
      by_cases inside : index < object.runLength
      · rw [if_pos inside, Object.getElem?_elements run _ inside]
        rfl
      · have outside : (object.elements heap.handleOf?)[index]? = none :=
          List.getElem?_eq_none (by rw [length]; exact Nat.le_of_not_lt inside)
        rw [if_neg inside, outside]
        rfl

theorem bytes_of_view :
    heap.bytes handle =
      if view.descriptor.tail = .bytes then .ok view.tail
      else .error (.invalidField view.descriptor.id view.descriptor.size) := by
  rcases view?_eq_some_iff.mp seen with ⟨object, found, shown⟩
  have descriptor : object.descriptor = view.descriptor := congrArg View.descriptor shown
  have tail : object.tail = view.tail := congrArg View.tail shown
  unfold bytes
  rw [found, ← descriptor, ← tail]
  rfl

/-- An object passes for an instance of its own class and no other. -/
theorem expect_of_view {α : Type} (id : ClassId) (f : HeapObject → α) (g : View → α)
    (same : ∀ object : HeapObject, g (object.view heap.handleOf?) = f object) :
    (heap.expect handle id).map f =
      if view.descriptor.id = id then .ok (g view)
      else heap.classes.get id >>= fun expected =>
        .error (.wrongType expected.name view.descriptor.name) := by
  rcases view?_eq_some_iff.mp seen with ⟨object, found, shown⟩
  have descriptor : object.descriptor = view.descriptor := congrArg View.descriptor shown
  unfold expect
  rw [found, ← descriptor, ← shown, same]
  dsimp only [bind, Except.bind]
  split
  · rfl
  · cases heap.classes.get id <;> rfl

theorem scalar_of_view (id : ClassId) :
    heap.scalar handle id =
      if view.descriptor.id = id then .ok (view.word 0)
      else heap.classes.get id >>= fun expected =>
        .error (.wrongType expected.name view.descriptor.name) :=
  expect_of_view seen id (fun object => object.word 0) (fun view => view.word 0) fun _ => rfl

theorem string_of_view :
    heap.string handle =
      if view.descriptor.id = .string then .ok view.tail
      else heap.classes.get .string >>= fun expected =>
        .error (.wrongType expected.name view.descriptor.name) :=
  expect_of_view seen .string Object.tail View.tail fun _ => rfl

/-- Whether a string is interned shows in its view. -/
theorem isInterned_of_view {next : Heap} (still : next.view? handle = some view)
    (classes : next.classes = heap.classes) (interner : next.interner = heap.interner) :
    next.isInterned handle = heap.isInterned handle := by
  unfold Heap.isInterned
  rw [string_of_view seen, string_of_view still, classes, interner]

/-- An object that keeps its view and its holds reads as before. -/
theorem readsAlike_of_view {next : Heap} (still : next.view? handle = some view)
    (classes : next.classes = heap.classes) (holds : next.holds handle = heap.holds handle) :
    ReadsAlike heap next handle := by
  have scalar : ∀ id, next.scalar handle id = heap.scalar handle id := by
    intro id
    rw [scalar_of_view seen, scalar_of_view still, classes]
  constructor
  · rw [classOf_of_view seen, classOf_of_view still]
  · rw [descriptorOf_of_view seen, descriptorOf_of_view still]
  · rw [tailLength_of_view seen, tailLength_of_view still]
  · intro offset
    rw [readWord_of_view seen, readWord_of_view still]
  · rw [bytes_of_view seen, bytes_of_view still]
  · intro offset length
    rcases view?_eq_some_iff.mp seen with ⟨object, found, shown⟩
    rcases view?_eq_some_iff.mp still with ⟨other, there, same⟩
    have sameView := same.trans shown.symm
    have descriptor : other.descriptor = object.descriptor := congrArg View.descriptor sameView
    have word : other.word = object.word := congrArg View.word sameView
    have tail : other.tail = object.tail := congrArg View.tail sameView
    unfold peek
    rw [found, there]
    simp only [Except.map, Object.peek, Object.fixedByte, descriptor, word, tail]
  · rw [string_of_view seen, string_of_view still, classes]
  · unfold Heap.int
    rw [scalar]
  · exact scalar .float
  · unfold Heap.bool
    rw [scalar]
  · unfold Heap.char
    rw [scalar]
  · rw [runLength_of_view seen, runLength_of_view still]
  · exact holds
  · intro offset
    rw [readRef_of_view seen, readRef_of_view still]
  · intro index
    rw [runGet_of_view seen, runGet_of_view still]

/-- A kept object keeps what its view refers to. -/
theorem Kept.refers (kept : heap.Kept handle) {target : Handle} (refers : view.Refers target) :
    heap.Kept target := by
  rcases view?_eq_some_iff.mp seen with ⟨object, found, rfl⟩
  rcases refers with ⟨offset, field⟩ | element
  · rw [Object.ref_view, Option.ite_none_right_eq_some] at field
    exact kept.field (readRef_eq_ok_iff.mpr ⟨object, found, field.1, field.2⟩)
  · rw [Object.run_view] at element
    unfold Object.elements at element
    split at element
    · next offset run =>
      rcases List.mem_map.mp element with ⟨index, member, read⟩
      exact kept.element
        (runGet_eq_ok_iff.mpr ⟨object, offset, found, run, List.mem_range.mp member, read⟩)
    · cases element

end

/-- What is kept is live. -/
theorem Sound.isLive_of_kept {heap : Heap} (sound : heap.Sound) {handle : Handle}
    (kept : heap.Kept handle) : heap.isLive handle = true := by
  obtain ⟨address, holds, found, _⟩ := sound.reached_of_kept kept
  exact HandleTable.isLive_iff.mpr ⟨address, holds, found⟩

/-- What is kept stays so where the kept objects show the same, the roots and the interned strings
are the same, and what was held still is. -/
theorem Kept.mono {heap next : Heap} (roots : next.roots = heap.roots)
    (interner : next.interner = heap.interner)
    (views : ∀ handle view, heap.Kept handle → heap.view? handle = some view →
      next.view? handle = some view)
    (live : ∀ handle, heap.Kept handle → next.isLive handle = true)
    (holds : ∀ handle count, heap.Kept handle → heap.holds handle = .ok count → 0 < count →
      ∃ more, next.holds handle = .ok more ∧ 0 < more)
    {handle : Handle} (kept : heap.Kept handle) : next.Kept handle := by
  induction kept with
  | @registered root member =>
      apply Kept.registered
      rw [roots]
      exact member
  | reported member reported alive =>
      apply Kept.reported _ reported (live _ (Kept.reported member reported alive))
      rw [roots]
      exact member
  | held counted positive =>
      obtain ⟨more, still, some⟩ := holds _ _ (Kept.held counted positive) counted positive
      exact Kept.held still some
  | @interned bytes handle found =>
      have still : next.lookupInterned bytes = some handle := by
        unfold lookupInterned
        rw [interner]
        exact found
      exact Kept.interned still
  | field keeps read ih =>
      obtain ⟨object, found, _⟩ := readRef_eq_ok_iff.mp read
      have seen := view?_eq_some_iff.mpr ⟨object, found, rfl⟩
      rw [readRef_of_view seen] at read
      apply ih.field
      rw [readRef_of_view (views _ _ keeps seen)]
      exact read
  | element keeps read ih =>
      obtain ⟨object, offset, found, _⟩ := runGet_eq_ok_iff.mp read
      have seen := view?_eq_some_iff.mpr ⟨object, found, rfl⟩
      rw [runGet_of_view seen] at read
      apply ih.element
      rw [runGet_of_view (views _ _ keeps seen)]
      exact read

/-! ## Collections -/

/-- What survives a collection keeps its view. -/
theorem Compacts.view? {start finish : Heap} {live : List Address}
    (compacts : start.Compacts finish live) (sound : start.Sound) {handle : Handle}
    (alive : finish.isLive handle = true) : finish.view? handle = start.view? handle := by
  obtain ⟨address, object, member, found, before, after⟩ := compacts.objectOf sound alive
  unfold Heap.view?
  rw [before, after]
  simp only [Except.toOption, Option.map_some]
  congr 1
  have traced : ∀ offset, offset ∈ object.slotOffsets →
      ((object.redirect (forwarding (start.space.number + 1) live)).slot offset).bind
        finish.handleOf? = (object.slot offset).bind start.handleOf? :=
    fun _ => compacts.slot_copy sound member found
  apply View.ext
  · exact object.descriptor_redirect _
  · exact object.extra_redirect _
  · exact funext (object.word_redirect _)
  · exact object.tail_redirect _
  · funext offset
    rw [Object.ref_view, Object.ref_view, Object.descriptor_redirect]
    split
    · next field => exact traced offset (Descriptor.mem_slotOffsets_iff.mpr (Or.inl field))
    · rfl
  · rw [Object.run_view, Object.run_view]
    unfold Object.elements
    rw [Object.descriptor_redirect, Object.runLength_redirect]
    cases run : object.descriptor.runOffset? with
    | none => rfl
    | some offset =>
        apply List.map_congr_left
        intro index member
        apply traced
        apply Descriptor.mem_slotOffsets_iff.mpr
        exact Or.inr ⟨offset, index, Descriptor.runOffset?_eq_some_iff.mp run,
          List.mem_range.mp member, rfl⟩

end Heap

end CompactingHeap
