import CompactingHeap.Proofs.Allocation
import CompactingHeap.Proofs.Classes
import CompactingHeap.Proofs.Holding
import CompactingHeap.Proofs.Writes

/-!
# Fresh objects

What an allocation returns is told here through the public reads.  The handle is new and held once,
the object is blank or holds the given value, and its payload is aligned.  Whether the allocation
succeeds or runs out of memory, whatever was kept before is still live and reads as before.
-/

namespace CompactingHeap

namespace Heap

/-- Everything that is kept is still live and reads as before. -/
def Keeps (heap next : Heap) : Prop :=
  ∀ handle, heap.Kept handle → next.isLive handle = true ∧ ReadsAlike heap next handle

/-- An operation returns the handle of a new object, or runs out of memory, and loses nothing that
is kept. -/
inductive Yields (heap : Heap) (good : Handle → Heap → Prop) :
    Except HeapError Handle × Heap → Prop
  | returned {handle : Handle} {next : Heap} :
      heap.isLive handle = false → next.isLive handle = true → next.holds handle = .ok 1 →
        good handle next → Keeps heap next → Yields heap good (.ok handle, next)
  | exhausted {size limit : Nat} {next : Heap} :
      Keeps heap next → Yields heap good (.error (.outOfMemory size limit), next)

/-- An object is a blank instance of a class with `extra` tail elements, and its payload is aligned
wherever the page is at which its slab starts. -/
structure Blank (heap : Heap) (handle : Handle) (descriptor : Descriptor) (extra : Nat) : Prop where
  classOf : heap.classOf handle = .ok descriptor.id
  descriptorOf : heap.descriptorOf handle = .ok descriptor
  tailLength : heap.tailLength handle = .ok extra
  words : ∀ offset, descriptor.isDataWord offset = true → heap.readWord handle offset = .ok 0
  fields : ∀ offset, descriptor.isRefField offset = true → heap.readRef handle offset = .ok none
  runLength : descriptor.tail = .references → heap.runLength handle = .ok extra
  elements : descriptor.tail = .references → ∀ index < extra, heap.runGet handle index = .ok none
  bytes : descriptor.tail = .bytes → heap.bytes handle = .ok (List.replicate extra 0)
  aligned : ∃ offset, heap.payloadOffset handle = .ok offset ∧
    ∀ base, pageBytes ∣ base → descriptor.align ∣ base + offset

/-! ## Alignment -/

/-- The payload of an object is aligned as its class demands. -/
theorem Sound.payloadOffset_aligned {heap : Heap} (sound : heap.Sound) {handle : Handle}
    {view : View} (seen : heap.view? handle = some view) :
    ∃ offset, heap.payloadOffset handle = .ok offset ∧
      ∀ base, pageBytes ∣ base → view.descriptor.align ∣ base + offset := by
  rcases view?_eq_some_iff.mp seen with ⟨object, found, rfl⟩
  rcases objectOf_eq_ok_iff.mp found with ⟨address, resolved, here⟩
  rcases Space.object?_eq_some_iff.mp here with ⟨place, resident⟩
  have footprint := Space.footprint?_eq_some_iff.mpr ⟨object, resident, rfl⟩
  have placeAligned := sound.placed.aligned _ _ _ footprint
  have page := Layout.align_dvd_page object.laidOut
  obtain ⟨_, _, _, alignEq, payloadEq, _⟩ := Layout.of?_eq_some object.laidOut
  obtain ⟨k, _, bound, power⟩ := Layout.align_eq_two_pow object.laidOut
  have payloadAligned : object.layout.align ∣ object.layout.payload := by
    have small := two_pow_le_page bound
    rw [payloadEq, power]
    refine (le_alignUp_and_dvd ?_ (by omega)).2
    simp only [headerBytes, wordLimit, pageBytes] at small ⊢
    omega
  have classAligned : object.descriptor.align ∣ object.layout.align := by
    obtain ⟨j, _, classPower⟩ := object.descriptor.align_eq_two_pow
    rw [alignEq, classPower]
    by_cases large : 2 ^ j ≤ wordBytes
    · rw [Nat.max_eq_right large, show wordBytes = 2 ^ 3 from rfl]
      rw [show wordBytes = 2 ^ 3 from rfl] at large
      exact Nat.pow_dvd_pow 2 ((Nat.pow_le_pow_iff_right (by decide)).mp large)
    · exact (Nat.max_eq_left (Nat.le_of_not_le large)).symm ▸ Nat.dvd_refl _
  refine ⟨place.offset + object.layout.payload, ?_, ?_⟩
  · unfold payloadOffset residentOf
    rw [resolved]
    dsimp only
    rw [resident]
    rfl
  · intro base pages
    have sum : object.layout.align ∣ base + (place.offset + object.layout.payload) :=
      Nat.dvd_add (Nat.dvd_trans page pages) (Nat.dvd_add placeAligned payloadAligned)
    exact Nat.dvd_trans classAligned sum

/-! ## Blank objects -/

/-- A fresh view is that of a blank object. -/
theorem Sound.blank_of_view {heap : Heap} (sound : heap.Sound) {handle : Handle}
    {descriptor : Descriptor} {extra : Nat} (small : extra < 2 ^ 32)
    (seen : heap.view? handle = some (View.fresh descriptor extra.toUInt32)) :
    heap.Blank handle descriptor extra := by
  have exact' : extra.toUInt32.toNat = extra := by
    rw [Nat.toUInt32_eq, UInt32.toNat_ofNat', Nat.mod_eq_of_lt small]
  have run (references : descriptor.tail = .references) : descriptor.runOffset?.isSome = true := by
    obtain ⟨offset, found⟩ := Descriptor.tail_eq_references_iff.mp references
    rw [found]
    rfl
  have running (references : descriptor.tail = .references) :
      (View.fresh descriptor extra.toUInt32).descriptor.runOffset?.isSome = true := run references
  constructor
  · exact classOf_of_view seen
  · exact descriptorOf_of_view seen
  · rw [tailLength_of_view seen]
    exact congrArg Except.ok exact'
  · intro offset plain
    have readable : (View.fresh descriptor extra.toUInt32).descriptor.isDataWord offset = true :=
      plain
    rw [readWord_of_view seen, if_pos readable]
    simp only [View.fresh]
    split
    · next found => rw [if_neg (Descriptor.isDataWord_apart_from_run plain found)]
    · rfl
  · intro offset field
    have readable : (View.fresh descriptor extra.toUInt32).descriptor.isRefField offset = true :=
      field
    rw [readRef_of_view seen, if_pos readable]
    rfl
  · intro references
    rw [runLength_of_view seen, if_pos (running references)]
    simp only [View.fresh, run references, ↓reduceIte, List.length_replicate, exact']
  · intro references index inside
    have element : (View.fresh descriptor extra.toUInt32).run[index]? = some none := by
      simp only [View.fresh, run references, ↓reduceIte, exact']
      rw [List.getElem?_replicate, if_pos inside]
    rw [runGet_of_view seen, if_pos (running references), element]
  · intro bytes
    have readable : (View.fresh descriptor extra.toUInt32).descriptor.tail = .bytes := bytes
    rw [bytes_of_view seen, if_pos readable]
    simp only [View.fresh, Descriptor.tailBytes, if_pos bytes, exact']
  · exact sound.payloadOffset_aligned seen

/-- Keeping is what the views say. -/
theorem Retains.keeps {heap next : Heap} {new : Option Handle} (retains : heap.Retains next new)
    (sound : heap.Sound) (nextSound : next.Sound)
    (fresh : ∀ handle, some handle = new → heap.isLive handle = false) : Keeps heap next := by
  intro handle kept
  have live := retains.kept handle kept
  have before := sound.isLive_of_kept kept
  have old : some handle ≠ new := by
    intro same
    rw [fresh handle same] at before
    cases before
  obtain ⟨view, seen⟩ := nextSound.isLive_iff.mp live
  have seenBefore := (retains.view handle old live).symm.trans seen
  exact ⟨live, readsAlike_of_view seenBefore seen retains.classes (retains.holds handle old live)⟩

/-- What an allocation yields. -/
theorem Allocating.yields {heap : Heap} {view : View} {result : Except HeapError Handle × Heap}
    (allocating : heap.Allocating view result) (sound : heap.Sound) (nextSound : result.2.Sound)
    {good : Handle → Heap → Prop} (shown : ∀ handle next, result = (.ok handle, next) →
      next.view? handle = some view → good handle next) : heap.Yields good result := by
  cases allocating with
  | @placed handle next allocates =>
      apply Yields.returned allocates.new (isLive_of_view allocates.seen) allocates.held
      · exact shown handle next rfl allocates.seen
      · apply allocates.rest.keeps sound nextSound
        rintro other same
        cases same
        exact allocates.new
  | refused retains => exact Yields.exhausted (retains.keeps sound nextSound (by simp))

/-! ## Objects with a value -/

/-- Rewriting the new object of an allocation. -/
theorem Allocates.rewrites {heap next last : Heap} {view changed : View} {handle : Handle}
    (allocates : heap.Allocates next view handle) (rewrites : next.Rewrites last handle changed) :
    heap.Allocates last changed handle where
  new := allocates.new
  seen := by
    rw [rewrites.view?, Function.update_self]
  held := (rewrites.holds handle).trans allocates.held
  rest := by
    have retains := allocates.rest
    have apart : ∀ other, some other ≠ some handle → other ≠ handle := by
      rintro other different rfl
      exact different rfl
    constructor
    · intro other kept
      rw [rewrites.isLive]
      exact retains.kept other kept
    · intro other different live
      rw [rewrites.isLive] at live
      exact retains.live other different live
    · intro other different live
      rw [rewrites.isLive] at live
      rw [rewrites.view?, Function.update_of_ne (apart other different)]
      exact retains.view other different live
    · intro other different live
      rw [rewrites.isLive] at live
      rw [rewrites.holds]
      exact retains.holds other different live
    all_goals rw [rewrites.rest]
    · exact retains.config
    · exact retains.classes
    · exact retains.interner
    · exact retains.roots

/-- Allocating an object and filling it. -/
theorem allocating_filled {heap : Heap} (sound : heap.Sound) {id : ClassId}
    {descriptor : Descriptor} (known : heap.classes.get id = .ok descriptor) (extra : Nat)
    {fill : HeapObject → HeapObject} {view : View}
    (bounded : ((allocate id extra >>= fun handle => do
      modify fun heap => heap.modifyObject handle fill
      return handle).run heap).2.handles.slots < 2 ^ 32)
    (fills : ∀ handle next, (allocate id extra).run heap = (.ok handle, next) → next.Sound →
      next.view? handle = some (View.fresh descriptor extra.toUInt32) →
      next.Rewrites (next.modifyObject handle fill) handle view) :
    heap.Allocating view ((allocate id extra >>= fun handle => do
      modify fun heap => heap.modifyObject handle fill
      return handle).run heap) := by
  rw [HeapM.run_bind] at bounded ⊢
  rcases ran : (allocate id extra).run heap with ⟨error | handle, next⟩
  · rw [ran] at bounded
    have allocating := sound.allocating known extra (by rw [ran]; exact bounded)
    rw [ran] at allocating
    cases allocating with
    | refused retains => exact Allocating.refused retains
  · rw [ran] at bounded
    dsimp only at bounded ⊢
    rw [HeapM.run_bind, HeapM.run_modify] at bounded ⊢
    change (next.modifyObject _ _).handles.slots < 2 ^ 32 at bounded
    rw [handles_modifyObject] at bounded
    have allocating := sound.allocating known extra (by rw [ran]; exact bounded)
    have nextSound := (tame_allocate id extra).sound sound (by rw [ran]; exact bounded)
    rw [ran] at allocating nextSound
    cases allocating with
    | placed allocates =>
        exact Allocating.placed
          (allocates.rewrites (fills handle next ran nextSound allocates.seen))

theorem run_allocateBytes_unknown {heap : Heap} {id : ClassId} {error : HeapError}
    (unknown : heap.classes.get id = .error error) (bytes : Bytes) :
    (allocateBytes id bytes).run heap = (.error error, heap) := by
  unfold allocateBytes
  rw [HeapM.run_bind, HeapM.run_ask, unknown]

/-- Bytes are put into instances of classes that have them. -/
theorem run_allocateBytes {heap : Heap} {id : ClassId} {descriptor : Descriptor}
    (known : heap.classes.get id = .ok descriptor) (bytes : Bytes) :
    (allocateBytes id bytes).run heap =
      if descriptor.tail = .bytes then
        (allocate id bytes.length >>= fun handle => do
          modify fun heap => heap.modifyObject handle fun object => object.setTail bytes
          return handle).run heap
      else (.error (.invalidField id descriptor.size), heap) := by
  unfold allocateBytes
  rw [HeapM.run_bind, HeapM.run_ask, known]
  dsimp only
  split <;> rfl

/-- Allocating bytes. -/
theorem Sound.allocating_bytes {heap : Heap} (sound : heap.Sound) {id : ClassId}
    {descriptor : Descriptor} (known : heap.classes.get id = .ok descriptor)
    (tail : descriptor.tail = .bytes) (bytes : Bytes)
    (bounded : ((allocateBytes id bytes).run heap).2.handles.slots < 2 ^ 32) :
    heap.Allocating { View.fresh descriptor bytes.length.toUInt32 with tail := bytes }
      ((allocateBytes id bytes).run heap) := by
  rw [run_allocateBytes known, if_pos tail] at bounded ⊢
  apply allocating_filled sound known bytes.length bounded
  intro handle next ran nextSound seen
  have rewrites := nextSound.rewrites_tail seen bytes
  have fits : bytes.length = (View.fresh descriptor bytes.length.toUInt32).tail.length := by
    simp only [View.fresh, List.length_replicate, Descriptor.tailBytes, if_pos tail]
    rw [Nat.toUInt32_eq, UInt32.toNat_ofNat', Nat.mod_eq_of_lt (small_of_allocate ran)]
  unfold View.setTail at rewrites
  rwa [if_pos fits] at rewrites

/-- The classes of scalars have a first word and no run. -/
theorem Sound.scalar_class {heap : Heap} (sound : heap.Sound) {id : ClassId}
    (scalar : id ∈ [ClassId.int, ClassId.float, ClassId.bool, ClassId.char]) :
    ∃ descriptor, heap.classes.get id = .ok descriptor ∧ descriptor.id = id ∧
      0 < descriptor.wordCount ∧ descriptor.runOffset? = none := by
  simp only [List.mem_cons, List.not_mem_nil, or_false] at scalar
  rcases scalar with rfl | rfl | rfl | rfl
  · exact ⟨Registry.intClass, sound.get_builtin rfl, rfl, by decide, rfl⟩
  · exact ⟨Registry.floatClass, sound.get_builtin rfl, rfl, by decide, rfl⟩
  · exact ⟨Registry.boolClass, sound.get_builtin rfl, rfl, by decide, rfl⟩
  · exact ⟨Registry.charClass, sound.get_builtin rfl, rfl, by decide, rfl⟩

/-- Allocating a scalar. -/
theorem Sound.allocating_scalar {heap : Heap} (sound : heap.Sound) {id : ClassId}
    (scalar : id ∈ [ClassId.int, ClassId.float, ClassId.bool, ClassId.char]) (word : UInt64)
    (bounded : ((allocScalar id word).run heap).2.handles.slots < 2 ^ 32) :
    ∃ descriptor, heap.classes.get id = .ok descriptor ∧ descriptor.id = id ∧
      heap.Allocating ((View.fresh descriptor 0).setWord 0 word)
        ((allocScalar id word).run heap) := by
  obtain ⟨descriptor, known, identity, filled, runless⟩ := sound.scalar_class scalar
  refine ⟨descriptor, known, identity, ?_⟩
  exact allocating_filled sound known 0 bounded fun handle next _ nextSound seen =>
    nextSound.rewrites_word seen filled runless word

/-- A scalar reads back the word that it was made from. -/
theorem scalar_of_setWord {heap : Heap} {handle : Handle} {descriptor : Descriptor} {word : UInt64}
    (seen : heap.view? handle = some ((View.fresh descriptor 0).setWord 0 word)) :
    heap.classOf handle = .ok descriptor.id ∧
      heap.scalar handle descriptor.id = .ok word := by
  refine ⟨classOf_of_view seen, ?_⟩
  have same : ((View.fresh descriptor 0).setWord 0 word).descriptor.id = descriptor.id := rfl
  rw [scalar_of_view seen, if_pos same]
  rfl

/-! ## Allocating while objects are held -/

/-- An allocation retains all but what nothing keeps, apart from a new object if it makes one. -/
theorem Allocating.exists_retains {heap : Heap} {view : View}
    {result : Except HeapError Handle × Heap} (allocating : heap.Allocating view result) :
    ∃ new, heap.Retains result.2 new ∧
      ∀ handle, some handle = new → heap.isLive handle = false := by
  cases allocating with
  | @placed handle next allocates =>
      refine ⟨some handle, allocates.rest, ?_⟩
      rintro other same
      cases same
      exact allocates.new
  | refused retains => exact ⟨none, retains, by simp⟩

section

variable {heap held after : Heap} {handles : List Handle} {new : Option Handle}
  (holding : heap.Held held handles) (room : heap.Holdable handles)
  (keeps : held.Retains after new)
  (afterSound : after.Sound)

include holding room keeps afterSound

/-- What is held is not touched by an allocation. -/
theorem Held.steady (fresh : ∀ handle, some handle = new → held.isLive handle = false) :
    ∀ handle ∈ handles, after.isLive handle = true ∧
    after.isInterned handle = held.isInterned handle ∧ after.holds handle = held.holds handle := by
  intro handle member
  have kept := holding.kept room handle member
  have live := keeps.kept handle kept
  have old : some handle ≠ new := by
    intro same
    have dead := fresh handle same
    rw [holding.sound.isLive_of_kept kept] at dead
    cases dead
  obtain ⟨view, seen⟩ := afterSound.isLive_iff.mp live
  have before := (keeps.view handle old live).symm.trans seen
  exact ⟨live, isInterned_of_view before seen keeps.classes keeps.interner,
    keeps.holds handle old live⟩

/-- The holds that were taken before an allocation are given back after it. -/
theorem Held.retains {next : Heap} (sound : heap.Sound)
    (drops : after.Holds next fun other count => count - after.charge handles other) :
    heap.Retains next new := by
  have raised := holding.adds.recounts
  have dropped := drops.recounts
  constructor
  · intro handle kept
    rw [dropped.isLive]
    exact keeps.kept handle (holding.kept_of_kept room kept sound)
  · intro handle old live
    rw [dropped.isLive] at live
    rw [← raised.isLive]
    exact keeps.live handle old live
  · intro handle old live
    rw [dropped.isLive] at live
    rw [dropped.view?, ← raised.view?]
    exact keeps.view handle old live
  · intro handle old live
    rw [dropped.isLive] at live
    obtain ⟨view, seen⟩ := afterSound.isLive_iff.mp live
    have before := (keeps.view handle old live).symm.trans seen
    have interned := isInterned_of_view before seen keeps.classes keeps.interner
    have charge : after.charge handles handle = heap.charge handles handle := by
      unfold Heap.charge
      rw [interned, raised.isInterned]
    rw [drops.holds, keeps.holds handle old live, holding.adds.holds, charge]
    cases heap.holds handle with
    | error error => rfl
    | ok count => exact congrArg Except.ok (UInt32.add_sub_cancel count _)
  all_goals rw [dropped.rest]
  · rw [keeps.config, raised.rest]
  · rw [keeps.classes, raised.rest]
  · rw [keeps.interner, raised.rest]
  · rw [keeps.roots, raised.rest]

end

/-- What is allocated while objects are held has been allocated when the holds have been given
back. -/
theorem Held.allocating {heap held after next : Heap} {handles : List Handle} {view : View}
    {result : Except HeapError Handle} (holding : heap.Held held handles)
    (allocating : held.Allocating view (result, after)) (afterSound : after.Sound)
    (sound : heap.Sound) (live : ∀ handle ∈ handles, heap.isLive handle = true)
    (room : heap.Holdable handles)
    (drops : after.Holds next fun other count => count - after.charge handles other) :
    heap.Allocating view (result, next) := by
  cases allocating with
  | @placed handle _ allocates =>
      have new : heap.isLive handle = false := by
        rw [← holding.adds.recounts.isLive]
        exact allocates.new
      have unlisted : handle ∉ handles := by
        intro listed
        rw [live handle listed] at new
        cases new
      apply Allocating.placed
      refine ⟨new, ?_, ?_, holding.retains room allocates.rest afterSound sound drops⟩
      · rw [drops.recounts.view?]
        exact allocates.seen
      · rw [drops.holds, allocates.held]
        change Except.ok (1 - after.charge handles handle) = _
        rw [after.charge_of_not_mem unlisted, UInt32.sub_zero]
  | refused rest => exact Allocating.refused (holding.retains room rest afterSound sound drops)

/-- Allocating while live objects are held keeps them, and otherwise is an allocation. -/
theorem Sound.allocating_held {heap : Heap} (sound : heap.Sound) {handles : List Handle}
    (live : ∀ handle ∈ handles, heap.isLive handle = true) (room : heap.Holdable handles)
    {id : ClassId} {descriptor : Descriptor} (known : heap.classes.get id = .ok descriptor)
    (extra : Nat)
    (bounded : ((withHeld handles (allocate id extra)).run heap).2.handles.slots < 2 ^ 32) :
    heap.Allocating (View.fresh descriptor extra.toUInt32)
        ((withHeld handles (allocate id extra)).run heap) ∧
      ∀ handle ∈ handles,
        ((withHeld handles (allocate id extra)).run heap).2.isLive handle = true := by
  have allocating : ∀ held result after, heap.Held held handles →
      (allocate id extra).run held = (result, after) → after.handles.slots < 2 ^ 32 →
        held.Allocating (View.fresh descriptor extra.toUInt32) (result, after) ∧ after.Sound := by
    intro held result after holding runs small
    have knownThere : held.classes.get id = .ok descriptor := by
      rw [holding.adds.recounts.rest]
      exact known
    have allocating := holding.sound.allocating knownThere extra (by rw [runs]; exact small)
    have afterSound := (tame_allocate id extra).sound holding.sound (by rw [runs]; exact small)
    rw [runs] at allocating afterSound
    exact ⟨allocating, afterSound⟩
  obtain ⟨held, after, next, result, holding, runs, small, ran, drops⟩ :=
    sound.withHeld_of_steady live room bounded (by
      intro held result after holding runs small handle member
      obtain ⟨allocates, afterSound⟩ := allocating held result after holding runs small
      obtain ⟨new, retains, fresh⟩ := allocates.exists_retains
      exact (holding.steady room retains afterSound fresh handle member).2)
  rw [ran]
  obtain ⟨allocates, afterSound⟩ := allocating held result after holding runs small
  refine ⟨holding.allocating allocates afterSound sound live room drops, ?_⟩
  intro handle member
  obtain ⟨new, retains, fresh⟩ := allocates.exists_retains
  rw [drops.recounts.isLive]
  exact (holding.steady room retains afterSound fresh handle member).1

/-! ## Pairs -/

/-- What a pair shows. -/
def pairView (car cdr : Option Handle) : View :=
  ((View.fresh Registry.consClass 0).setRef 0 car).setRef wordBytes cdr

/-- The parts of a pair. -/
theorem parts_of_view {heap : Heap} {cell : Handle} {car cdr : Option Handle}
    (seen : heap.view? cell = some (pairView car cdr)) :
    heap.car cell = .ok car ∧ heap.cdr cell = .ok cdr := by
  have object : ∃ object, heap.expect cell .cons = .ok object := by
    have passes := expect_of_view seen .cons (fun _ => ()) (fun _ => ()) fun _ => rfl
    have same : (pairView car cdr).descriptor.id = .cons := rfl
    rw [if_pos same] at passes
    cases known : heap.expect cell .cons with
    | ok object => exact ⟨object, rfl⟩
    | error error =>
        rw [known] at passes
        cases passes
  obtain ⟨object, passes⟩ := object
  unfold Heap.car Heap.cdr readPair
  rw [passes]
  constructor
  · exact (readRef_of_view seen 0).trans (if_pos rfl)
  · exact (readRef_of_view seen wordBytes).trans (if_pos rfl)

/-- Fill in the parts of a pair. -/
def fill (cell : Handle) (car cdr : Option Handle) : HeapM Handle := do
  writeRef cell 0 car
  writeRef cell wordBytes cdr
  return cell

section

variable {heap : Heap} (sound : heap.Sound) {cell : Handle}
  (seen : heap.view? cell = some (View.fresh Registry.consClass 0)) {car cdr : Option Handle}

include sound seen

/-- The first part of a blank pair can be filled in if it is live. -/
theorem Sound.run_fill_car :
    (∃ middle, (writeRef cell 0 car).run heap = (.ok ⟨⟩, middle) ∧ middle.Sound ∧
        heap.Present car ∧
        heap.Rewrites middle cell ((View.fresh Registry.consClass 0).setRef 0 car)) ∨
      ¬ heap.Present car ∧ ∃ error, (writeRef cell 0 car).run heap = (.error error, heap) := by
  have writing := sound.writing_ref cell 0 car
  have tame := (tame_writeRef cell 0 car).sound sound
  generalize (writeRef cell 0 car).run heap = result at writing tame
  cases writing with
  | @written view middle here allowed rewrites =>
      rw [seen] at here
      cases here
      have small : middle.handles.slots < 2 ^ 32 := by
        rw [rewrites.slots]
        exact sound.bounded
      exact Or.inl ⟨middle, rfl, tame small, allowed.2, rewrites⟩
  | @refused error unallowed =>
      exact Or.inr ⟨fun present => unallowed _ seen ⟨rfl, present⟩, error, rfl⟩

/-- A blank pair is filled in if its parts are live, and only then. -/
theorem Sound.run_fill :
    (∃ next, (fill cell car cdr).run heap = (.ok cell, next) ∧ heap.Present car ∧
        heap.Present cdr ∧ heap.Rewrites next cell (pairView car cdr)) ∨
      ¬ (heap.Present car ∧ heap.Present cdr) ∧
        ∃ error next, (fill cell car cdr).run heap = (.error error, next) := by
  unfold fill
  rw [HeapM.run_bind]
  rcases sound.run_fill_car seen with ⟨middle, ran, middleSound, first, filled⟩ | ⟨dead, error, ran⟩
  · rw [ran]
    dsimp only
    rw [HeapM.run_bind]
    have writing := middleSound.writing_ref cell wordBytes cdr
    generalize (writeRef cell wordBytes cdr).run middle = result at writing
    cases writing with
    | @written view next here allowed rewrites =>
        rw [filled.seen] at here
        cases here
        exact Or.inl ⟨next, rfl, first, filled.present.mp allowed.2, filled.trans rewrites⟩
    | @refused error unallowed =>
        right
        refine ⟨?_, error, middle, rfl⟩
        rintro ⟨_, second⟩
        exact unallowed _ filled.seen ⟨rfl, filled.present.mpr second⟩
  · rw [ran]
    exact Or.inr ⟨fun both => dead both.1, error, heap, rfl⟩

end

theorem run_cons (car cdr : Option Handle) (heap : Heap) :
    (cons car cdr).run heap =
      (withHeld (car.toList ++ cdr.toList) (allocate .cons 0) >>= fun cell =>
        fill cell car cdr).run heap :=
  rfl

theorem slots_le_fill (cell : Handle) (car cdr : Option Handle) (heap : Heap) :
    heap.handles.slots ≤ ((fill cell car cdr).run heap).2.handles.slots :=
  ((tame_writeRef cell 0 car).bind fun _ =>
    (tame_writeRef cell wordBytes cdr).bind fun _ => Tame.pure cell).grows heap

/-- A pair that has been made has exactly the given parts, and they are live. -/
theorem Sound.cons_ok {heap next : Heap} (sound : heap.Sound) {car cdr : Option Handle}
    {cell : Handle} (ran : (cons car cdr).run heap = (.ok cell, next))
    (bounded : next.handles.slots < 2 ^ 32) :
    next.view? cell = some (pairView car cdr) ∧ next.Present car ∧ next.Present cdr := by
  rw [run_cons, HeapM.run_bind] at ran
  have holding := sound.run_withHeld (car.toList ++ cdr.toList) (allocate .cons 0)
  have tame := (tame_withHeld (car.toList ++ cdr.toList) (tame_allocate .cons 0)).sound sound
  rcases begins : (withHeld (car.toList ++ cdr.toList) (allocate .cons 0)).run heap with
    ⟨error | name, middle⟩
  · rw [begins] at ran
    cases ran
  · rw [begins] at ran holding tame
    dsimp only at ran
    have small : middle.handles.slots < 2 ^ 32 := by
      have grows := slots_le_fill name car cdr middle
      rw [ran] at grows
      exact Nat.lt_of_le_of_lt grows bounded
    have blank : middle.view? name = some (View.fresh Registry.consClass 0) := by
      cases holding small with
      | @ran held after _ _ held runs fits live drops _ =>
          have allocating := held.sound.allocating (held.sound.get_builtin rfl) 0
            (by rw [runs]; exact fits)
          rw [runs] at allocating
          cases allocating with
          | placed allocates =>
              rw [drops.recounts.view?]
              exact allocates.seen
    rcases (tame small).run_fill blank with ⟨last, filled, first, second, rewrites⟩ |
      ⟨_, error, last, failed⟩
    · rw [filled] at ran
      cases ran
      exact ⟨rewrites.seen, rewrites.present.mpr first, rewrites.present.mpr second⟩
    · rw [failed] at ran
      cases ran

/-- Making a pair of live parts keeps them alive by itself. -/
theorem Sound.allocating_cons {heap : Heap} (sound : heap.Sound) {car cdr : Option Handle}
    (first : heap.Present car) (second : heap.Present cdr)
    (room : heap.Holdable (car.toList ++ cdr.toList))
    (bounded : ((cons car cdr).run heap).2.handles.slots < 2 ^ 32) :
    heap.Allocating (pairView car cdr) ((cons car cdr).run heap) := by
  rw [run_cons, HeapM.run_bind] at bounded ⊢
  have live : ∀ handle ∈ car.toList ++ cdr.toList, heap.isLive handle = true := by
    intro handle listed
    rcases List.mem_append.mp listed with listed | listed
    · exact first handle (Option.mem_toList.mp listed)
    · exact second handle (Option.mem_toList.mp listed)
  have known : heap.classes.get .cons = .ok Registry.consClass := sound.get_builtin rfl
  have allocating := sound.allocating_held live room known 0
  have tame := (tame_withHeld (car.toList ++ cdr.toList) (tame_allocate .cons 0)).sound sound
  rcases begins : (withHeld (car.toList ++ cdr.toList) (allocate .cons 0)).run heap with
    ⟨error | name, middle⟩
  · rw [begins] at allocating bounded
    cases (allocating bounded).1 with
    | refused retains => exact Allocating.refused retains
  · rw [begins] at allocating tame bounded
    dsimp only at bounded ⊢
    have small := Nat.lt_of_le_of_lt (slots_le_fill name car cdr middle) bounded
    obtain ⟨allocates, still⟩ := allocating small
    cases allocates with
    | placed allocates =>
        have bothLive : middle.Present car ∧ middle.Present cdr := by
          constructor
          · rintro handle rfl
            exact still handle (by simp)
          · rintro handle rfl
            exact still handle (by simp)
        rcases (tame small).run_fill allocates.seen with ⟨last, filled, _, _, rewrites⟩ |
          ⟨dead, _⟩
        · rw [filled]
          exact Allocating.placed (allocates.rewrites rewrites)
        · exact absurd bothLive dead

/-! ## The promise of allocation -/

/-- What the allocating operations of a heap promise.  Each operation yields a new object with the
given content or runs out of memory, and either way loses nothing that is kept. -/
structure Allocations (heap : Heap) : Prop where
  allocate : ∀ id descriptor extra, heap.classes.get id = .ok descriptor →
    ((Heap.allocate id extra).run heap).2.handles.slots < 2 ^ 32 →
    descriptor.id = id ∧
      heap.Yields (fun handle next => next.Blank handle descriptor extra)
        ((Heap.allocate id extra).run heap)
  bytes : ∀ id descriptor bytes, heap.classes.get id = .ok descriptor → descriptor.tail = .bytes →
    ((Heap.allocateBytes id bytes).run heap).2.handles.slots < 2 ^ 32 →
    heap.Yields (fun handle next => next.classOf handle = .ok id ∧ next.bytes handle = .ok bytes)
      ((Heap.allocateBytes id bytes).run heap)
  int : ∀ value, ((Heap.allocInt value).run heap).2.handles.slots < 2 ^ 32 →
    heap.Yields (fun handle next => next.int handle = .ok value) ((Heap.allocInt value).run heap)
  float : ∀ bits, ((Heap.allocFloat bits).run heap).2.handles.slots < 2 ^ 32 →
    heap.Yields (fun handle next => next.float handle = .ok bits) ((Heap.allocFloat bits).run heap)
  bool : ∀ value, ((Heap.allocBool value).run heap).2.handles.slots < 2 ^ 32 →
    heap.Yields (fun handle next => next.bool handle = .ok value) ((Heap.allocBool value).run heap)
  char : ∀ value, ((Heap.allocChar value).run heap).2.handles.slots < 2 ^ 32 →
    heap.Yields (fun handle next => next.char handle = .ok value) ((Heap.allocChar value).run heap)
  string : ∀ bytes, ((Heap.allocString bytes).run heap).2.handles.slots < 2 ^ 32 →
    heap.Yields (fun handle next => next.string handle = .ok bytes)
      ((Heap.allocString bytes).run heap)
  /-- The parts of a pair are live and as given, whatever kept them before. -/
  parts : ∀ car cdr cell next, (Heap.cons car cdr).run heap = (.ok cell, next) →
    next.handles.slots < 2 ^ 32 →
    next.car cell = .ok car ∧ next.cdr cell = .ok cdr ∧ next.Present car ∧ next.Present cdr
  /-- Nothing but a lack of memory prevents a pair of live parts, unless a count of holds is at its
  bound. -/
  cons : ∀ car cdr, heap.Present car → heap.Present cdr →
    heap.Holdable (car.toList ++ cdr.toList) →
    ((Heap.cons car cdr).run heap).2.handles.slots < 2 ^ 32 →
    heap.Yields (fun cell next => next.car cell = .ok car ∧ next.cdr cell = .ok cdr)
      ((Heap.cons car cdr).run heap)

/-- An allocated scalar reads back as it was given. -/
theorem Sound.yields_scalar {heap : Heap} (sound : heap.Sound) {id : ClassId}
    (scalar : id ∈ [ClassId.int, ClassId.float, ClassId.bool, ClassId.char]) (word : UInt64)
    {good : Handle → Heap → Prop}
    (shown : ∀ handle next, next.scalar handle id = .ok word → good handle next)
    (bounded : ((allocScalar id word).run heap).2.handles.slots < 2 ^ 32) :
    heap.Yields good ((allocScalar id word).run heap) := by
  obtain ⟨descriptor, _, identity, allocating⟩ := sound.allocating_scalar scalar word bounded
  apply allocating.yields sound ((tame_allocScalar scalar word).sound sound bounded)
  intro handle next _ seen
  apply shown handle next
  rw [← identity]
  exact (scalar_of_setWord seen).2

/-- Allocated bytes read back as they were given. -/
theorem Sound.yields_bytes {heap : Heap} (sound : heap.Sound) {id : ClassId}
    {descriptor : Descriptor} (known : heap.classes.get id = .ok descriptor)
    (tail : descriptor.tail = .bytes) (bytes : Bytes) {good : Handle → Heap → Prop}
    (shown : ∀ handle next view, next.view? handle = some view → view.descriptor = descriptor →
      view.tail = bytes → good handle next)
    (bounded : ((allocateBytes id bytes).run heap).2.handles.slots < 2 ^ 32) :
    heap.Yields good ((allocateBytes id bytes).run heap) := by
  have allocating := sound.allocating_bytes known tail bytes bounded
  apply allocating.yields sound ((tame_allocateBytes id bytes).sound sound bounded)
  intro handle next _ seen
  exact shown handle next _ seen rfl rfl

section

variable {heap : Heap} (sound : heap.Sound)

include sound

theorem Sound.yields_int (value : Int64)
    (bounded : ((Heap.allocInt value).run heap).2.handles.slots < 2 ^ 32) :
    heap.Yields (fun handle next => next.int handle = .ok value)
      ((Heap.allocInt value).run heap) := by
  apply sound.yields_scalar (by simp) value.toUInt64 _ bounded
  intro handle next read
  unfold Heap.int
  rw [read]
  rfl

theorem Sound.yields_bool (value : Bool)
    (bounded : ((Heap.allocBool value).run heap).2.handles.slots < 2 ^ 32) :
    heap.Yields (fun handle next => next.bool handle = .ok value)
      ((Heap.allocBool value).run heap) := by
  apply sound.yields_scalar (by simp) _ _ bounded
  intro handle next read
  unfold Heap.bool
  rw [read]
  cases value <;> rfl

theorem Sound.yields_char (value : Char)
    (bounded : ((Heap.allocChar value).run heap).2.handles.slots < 2 ^ 32) :
    heap.Yields (fun handle next => next.char handle = .ok value)
      ((Heap.allocChar value).run heap) := by
  apply sound.yields_scalar (by simp) value.val.toUInt64 _ bounded
  intro handle next read
  have valid := value.valid
  unfold Heap.char
  rw [read]
  dsimp only [bind, Except.bind]
  rw [UInt32.toUInt32_toUInt64, dif_pos valid]
  rfl

theorem Sound.yields_string (bytes : Bytes)
    (bounded : ((Heap.allocString bytes).run heap).2.handles.slots < 2 ^ 32) :
    heap.Yields (fun handle next => next.string handle = .ok bytes)
      ((Heap.allocString bytes).run heap) := by
  have known : heap.classes.get .string = .ok Registry.stringClass := sound.get_builtin rfl
  apply sound.yields_bytes known rfl bytes _ bounded
  rintro handle next view seen sameClass rfl
  rw [string_of_view seen, sameClass]
  exact if_pos rfl

/-- An allocated object has no content yet. -/
theorem Sound.yields_blank {id : ClassId} {descriptor : Descriptor}
    (known : heap.classes.get id = .ok descriptor) (extra : Nat)
    (bounded : ((Heap.allocate id extra).run heap).2.handles.slots < 2 ^ 32) :
    heap.Yields (fun handle next => next.Blank handle descriptor extra)
      ((Heap.allocate id extra).run heap) := by
  have nextSound := (tame_allocate id extra).sound sound bounded
  apply (sound.allocating known extra bounded).yields sound nextSound
  intro handle next ran seen
  rw [ran] at nextSound
  exact nextSound.blank_of_view (small_of_allocate ran) seen

end

/-- The promise of allocation is kept in every reachable heap. -/
theorem Reachable.allocations {heap : Heap} (reachable : heap.Reachable) : heap.Allocations := by
  have sound := reachable.sound
  have numbered := reachable.settings.2
  constructor
  · intro id descriptor extra known bounded
    exact ⟨numbered.id_of_get known, sound.yields_blank known extra bounded⟩
  · intro id descriptor bytes known tail bounded
    apply sound.yields_bytes known tail bytes _ bounded
    rintro handle next view seen rfl rfl
    rw [← numbered.id_of_get known]
    exact ⟨classOf_of_view seen, (bytes_of_view seen).trans (if_pos tail)⟩
  · exact fun value => sound.yields_int value
  · intro bits bounded
    exact sound.yields_scalar (by simp) bits (fun handle next read => read) bounded
  · exact fun value => sound.yields_bool value
  · exact fun value => sound.yields_char value
  · exact fun bytes => sound.yields_string bytes
  · intro car cdr cell next ran bounded
    obtain ⟨seen, first, second⟩ := sound.cons_ok ran bounded
    obtain ⟨readCar, readCdr⟩ := parts_of_view seen
    exact ⟨readCar, readCdr, first, second⟩
  · intro car cdr first second room bounded
    apply (sound.allocating_cons first second room bounded).yields sound
    · exact (tame_cons car cdr).sound sound bounded
    · intro cell next _ seen
      exact parts_of_view seen

/-- In the sample heap the promise covers a vector of three elements. -/
theorem allocations_sample :
    sample.Reachable ∧ ((Heap.allocate .vector 3).run sample).1 = .ok ⟨3, 0⟩ ∧
      sample.Allocations :=
  ⟨reachable_sample, by decide +kernel, Reachable.allocations reachable_sample⟩

end Heap

end CompactingHeap
