import CompactingHeap.Proofs.Growth
import CompactingHeap.Proofs.Linkage

/-!
# Preservation

Every quiet step and every completed collection leads from a sound heap to a sound one, as long as
the handle table stays within its bound, and a quiet step keeps live handles live.  So along a
course from a sound heap every collection starts from a sound heap.
-/

namespace CompactingHeap

namespace Heap

/-- A handle table that names the same objects may replace the one of a sound heap. -/
theorem Sound.setSlot {heap : Heap} (sound : heap.Sound) {handle : Handle} {address : Address}
    {holds : UInt32} (found : heap.handles.find handle = .ok (address, holds)) (count : UInt32) :
    Sound { heap with handles := heap.handles.setSlot handle address count } := by
  have same := HandleTable.resolve_setSlot found count
  have live := HandleTable.isLive_congr same
  exact { sound with
    bounded := by
      rw [HandleTable.slots_setSlot]
      exact sound.bounded
    chained := sound.chained.setSlot found address count
    linked := sound.linked.of_resolve same
    rooted := fun root member => (live root.handle).trans (sound.rooted root member)
    interned := fun handle member => (live handle).trans (sound.interned handle member) }

/-- An object of a sound heap may be changed as long as its owner and its layout stay, it stays at
rest, and its references lead to objects. -/
theorem Sound.modify {heap : Heap} (sound : heap.Sound) (address : Address)
    {f : HeapObject → HeapObject} (owner : ∀ object, (f object).owner = object.owner)
    (layout : ∀ object, (f object).layout = object.layout)
    (rest : ∀ object, heap.space.object? address = some object → (f object).AtRest)
    (closed : ∀ object, heap.space.object? address = some object → ∀ target ∈ (f object).targets,
      ∃ other, heap.space.object? target = some other) :
    Sound { heap with space := heap.space.modify address f } := by
  exact { sound with
    accounts := by
      rw [Space.slabs_modify]
      exact sound.accounts
    placed := sound.placed.modify address layout
    linked := sound.linked.modify address owner rest closed }

/-- What finding room does to a heap. -/
structure Roomy (heap : Heap) (layout : Layout) (place : Place) (roomy : Heap) : Prop where
  rest : roomy = { heap with space := roomy.space, allocator := roomy.allocator }
  room : heap.space.MadeRoom roomy.space place layout
  accounts : roomy.allocator.Accounts roomy.space.slabs

/-- Where room is found, it is reserved, and nothing else has changed but the slabs. -/
theorem Sound.findsRoom {heap roomy : Heap} (sound : heap.Sound) {descriptor : Descriptor}
    {extra : Nat} {layout : Layout} (laidOut : Layout.of? descriptor extra = some layout)
    {place : Place} (finds : heap.FindsRoom layout place roomy) :
    heap.Roomy layout place roomy := by
  cases finds with
  | bumped ran =>
      obtain ⟨space, bumps, rfl⟩ := run_bump?_eq_some ran
      obtain ⟨room, accounts⟩ := sound.placed.bump? sound.books laidOut bumps
      rw [List.append_nil] at accounts
      exact ⟨rfl, room, accounts⟩
  | grown ran =>
      obtain ⟨space, allocator, grows, rfl⟩ := run_grow_eq_ok ran
      obtain ⟨room, accounts, _⟩ := sound.placed.extend_ok sound.books laidOut grows
      rw [List.append_nil] at accounts
      exact ⟨rfl, room, accounts⟩

/-- What settling a fresh object does to a heap. -/
structure Settles (heap next : Heap) (place : Place) (object : HeapObject) (handle : Handle) :
    Prop where
  mints : heap.handles.Mints heap.space.nextAddress handle next.handles
  rest : next = { heap with
    handles := next.handles
    space := heap.space.add place { object with owner := handle.index }
    counters := { heap.counters with
      objectsAllocated := heap.counters.objectsAllocated + 1
      bytesAllocated := heap.counters.bytesAllocated + object.layout.size } }

/-- Settling an object succeeds while the handle table has room. -/
theorem exists_settles {heap : Heap} (chained : heap.handles.Chained) (place : Place)
    (object : HeapObject)
    (bounded : ((settle place object).run heap).2.handles.slots < 2 ^ 32) :
    ∃ handle next, (settle place object).run heap = (.ok handle, next) ∧
      heap.Settles next place object handle := by
  have minted : (heap.handles.mint heap.space.nextAddress).2.slots < 2 ^ 32 := by
    rw [run_settle] at bounded
    rcases mints : heap.handles.mint heap.space.nextAddress with ⟨_ | handle, handles⟩
    · rw [mints] at bounded
      exact bounded
    · rw [mints] at bounded
      exact bounded
  obtain ⟨handle, handles, mints⟩ := chained.mint heap.space.nextAddress minted
  rw [run_settle, mints.eq]
  exact ⟨handle, _, rfl, mints, rfl⟩

/-- A fresh object may be settled on reserved room of a sound heap. -/
theorem Sound.settle {heap next : Heap} (sound : heap.Sound) {place : Place} {object : HeapObject}
    (reserved : heap.space.Reserved place object.layout) (rest : object.AtRest)
    (blank : object.targets = []) {handle : Handle}
    (settles : heap.Settles next place object handle)
    (bounded : next.handles.slots < 2 ^ 32) : next.Sound := by
  have mints := settles.mints
  have keeps : ∀ other, heap.handles.isLive other = true → next.handles.isLive other = true := by
    intro other live
    rcases HandleTable.isLive_iff.mp live with ⟨address, holds, found⟩
    exact HandleTable.isLive_iff.mpr ⟨address, holds, mints.find_of_find found⟩
  rw [settles.rest]
  have placed : (heap.space.add place { object with owner := handle.index }).Placed :=
    sound.placed.add reserved
  exact { sound with
    placed := placed
    bounded := bounded
    chained := mints.chained
    linked := sound.linked.add mints place rfl ⟨rest.flags, rest.forward, rest.length⟩ blank
    rooted := fun root member => keeps root.handle (sound.rooted root member)
    interned := fun other member => keeps other (sound.interned other member) }

/-- A sound heap stays sound when room is found. -/
theorem Sound.roomy {heap roomy : Heap} (sound : heap.Sound) {layout : Layout} {place : Place}
    (found : heap.Roomy layout place roomy) : roomy.Sound := by
  rw [found.rest]
  exact { sound with
    accounts := found.accounts
    placed := found.room.placed
    linked := sound.linked.congr found.room.object? }

/-- Settling a fresh object where room was found keeps a heap sound. -/
theorem Sound.allocated {heap roomy next : Heap} (sound : heap.Sound) {descriptor : Descriptor}
    {extra : UInt32} {layout : Layout}
    {laidOut : Layout.of? descriptor extra.toNat = some layout} {place : Place}
    (finds : heap.FindsRoom layout place roomy) {handle : Handle}
    (ran : (Heap.settle place (Object.fresh descriptor extra layout laidOut)).run roomy =
      (.ok handle, next))
    (bounded : next.handles.slots < 2 ^ 32) :
    next.Sound ∧
      roomy.Settles next place (Object.fresh descriptor extra layout laidOut) handle := by
  have found := sound.findsRoom laidOut finds
  have roomySound := sound.roomy found
  rcases exists_settles roomySound.chained place (Object.fresh descriptor extra layout laidOut)
    (by rw [ran]; exact bounded) with ⟨name, last, settled, settles⟩
  rw [ran] at settled
  cases settled
  have reserved : roomy.space.Reserved place
      (Object.fresh descriptor extra layout laidOut : HeapObject).layout := by
    rw [Object.layout_fresh]
    exact found.room.reserved
  exact ⟨roomySound.settle reserved (Object.atRest_fresh _ _ _ _) (Object.targets_fresh _ _ _ _)
    settles bounded, settles⟩

/-! ## Quiet steps -/

/-- A registration leaves the classes that every heap offers in their places. -/
theorem Sound.register {heap : Heap} (sound : heap.Sound) {name : String} {size align : Nat}
    {trace : List TraceEntry} {byteTail : Bool} {id : ClassId} {classes : Registry}
    (registers : heap.classes.register name size align trace byteTail = .ok (id, classes)) :
    Sound { heap with classes } := by
  obtain ⟨_, _, added, _, grown, _⟩ := Registry.register_eq_ok registers
  exact { sound with
    builtin := by
      intro position descriptor known
      have before := sound.builtin position descriptor known
      have inside := (Array.getElem?_eq_some_iff.mp before).1
      dsimp only
      rw [grown, Array.getElem?_push, if_neg (Nat.ne_of_lt inside)]
      exact before }

/-- Interning a live handle keeps a heap sound. -/
theorem Sound.intern {heap : Heap} (sound : heap.Sound) {bytes : Bytes} {handle : Handle}
    (new : heap.interner.lookup bytes = none) (live : heap.handles.isLive handle = true) :
    Sound { heap with interner := heap.interner.insert bytes handle } := by
  exact { sound with
    interned := by
      intro other member
      rcases List.mem_cons.mp member with rfl | member
      · exact live
      · exact sound.interned other member
    listed := by
      intro other
      change other ∈ handle :: heap.interner.latest ↔ _
      rw [List.mem_cons, sound.listed]
      constructor
      · rintro (rfl | ⟨known, found⟩)
        · exact ⟨bytes, Interner.lookup_insert_self _ _ _⟩
        · refine ⟨known, ?_⟩
          rw [Interner.lookup_insert_of_ne]
          · exact found
          · rintro rfl
            rw [new] at found
            cases found
      · rintro ⟨known, found⟩
        by_cases same : bytes = known
        · subst known
          rw [Interner.lookup_insert_self] at found
          exact Or.inl (Option.some.inj found).symm
        · rw [Interner.lookup_insert_of_ne _ _ same] at found
          exact Or.inr ⟨known, found⟩ }

/-- Writing slots brings in no reference but the written ones. -/
theorem mem_targets_foldl_setSlot {object : HeapObject} {writes : List (Nat × Option Address)}
    {target : Address}
    (member : target ∈ (writes.foldl (fun written write => written.setSlot write.1 write.2)
      object).targets) :
    target ∈ object.targets ∨ ∃ offset, (offset, some target) ∈ writes := by
  induction writes generalizing object with
  | nil => exact Or.inl member
  | cons write rest ih =>
      rcases ih member with before | ⟨offset, later⟩
      · rcases Object.mem_targets_setSlot before with before | same
        · exact Or.inl before
        · exact Or.inr ⟨write.1, by rw [← same]; exact List.mem_cons_self⟩
      · exact Or.inr ⟨offset, List.mem_cons_of_mem write later⟩

/-- Writing slots changes nothing but the slots. -/
theorem foldl_setSlot_eq {α : Type} (object : Object α) (writes : List (Nat × Option α)) :
    ∃ slots slots_size, writes.foldl (fun written write => written.setSlot write.1 write.2) object =
      { object with slots := slots, slots_size := slots_size } := by
  induction writes generalizing object with
  | nil => exact ⟨object.slots, object.slots_size, rfl⟩
  | cons write rest ih =>
      obtain ⟨slots, slots_size, same⟩ := ih (object.setSlot write.1 write.2)
      exact ⟨slots, slots_size, same⟩

/-- Writing references to objects into slots keeps a heap sound. -/
theorem Sound.writeSlots {heap : Heap} (sound : heap.Sound) (address : Address)
    {writes : List (Nat × Option Address)}
    (present : ∀ offset target, (offset, some target) ∈ writes →
      ∃ object, heap.space.object? target = some object) :
    Sound { heap with
      space := heap.space.modify address fun object =>
        writes.foldl (fun written write => written.setSlot write.1 write.2) object } := by
  apply sound.modify
  · intro object
    obtain ⟨_, _, same⟩ := foldl_setSlot_eq object writes
    rw [same]
  · intro object
    obtain ⟨_, _, same⟩ := foldl_setSlot_eq object writes
    rw [same]
  · intro object found
    have rest := sound.linked.rest address object found
    obtain ⟨_, _, same⟩ := foldl_setSlot_eq object writes
    rw [same]
    exact ⟨rest.flags, rest.forward, rest.length⟩
  · intro object found target member
    rcases mem_targets_foldl_setSlot member with before | ⟨offset, written⟩
    · exact sound.linked.closed address object found target before
    · exact present offset target written

/-- Writing plain data keeps a heap sound. -/
theorem Sound.writeWord {heap : Heap} (sound : heap.Sound) {address : Address} {offset : Nat}
    (value : UInt64)
    (apart : ∀ object run, heap.space.object? address = some object →
      object.descriptor.runOffset? = some run → offset / wordBytes ≠ run / wordBytes) :
    Sound { heap with
      space := heap.space.modify address fun object => object.setWord offset value } := by
  apply sound.modify
  · intro object
    rfl
  · intro object
    rfl
  · intro object found
    exact (sound.linked.rest address object found).setWord value fun run => apart object run found
  · intro object found target member
    apply sound.linked.closed address object found target
    have length := object.runLength_setWord value fun run => apart object run found
    have sameSlots : (object.setWord offset value).targets = object.targets := by
      unfold Object.targets Object.slotOffsets
      rw [length]
      rfl
    rwa [sameSlots] at member

/-- Writing a byte tail keeps a heap sound. -/
theorem Sound.writeTail {heap : Heap} (sound : heap.Sound) (address : Address) (bytes : Bytes) :
    Sound { heap with
      space := heap.space.modify address fun object => object.setTail bytes } := by
  have parts : ∀ object : HeapObject, (object.setTail bytes).owner = object.owner ∧
      (object.setTail bytes).layout = object.layout ∧
      (object.setTail bytes).targets = object.targets := by
    intro object
    unfold Object.setTail
    split
    · exact ⟨rfl, rfl, rfl⟩
    · exact ⟨rfl, rfl, rfl⟩
  apply sound.modify
  · exact fun object => (parts object).1
  · exact fun object => (parts object).2.1
  · exact fun object found => (sound.linked.rest address object found).setTail bytes
  · intro object found target member
    rw [(parts object).2.2] at member
    exact sound.linked.closed address object found target member

/-- What a quiet step does to a sound heap. -/
structure Calm (heap next : Heap) : Prop where
  sound : next.Sound
  keeps : ∀ handle, heap.handles.isLive handle = true → next.handles.isLive handle = true
  collections : next.counters.collections = heap.counters.collections
  reclaimed : next.counters.objectsReclaimed = heap.counters.objectsReclaimed

/-- Settling an object where room has been found is calm. -/
theorem Sound.calm_allocated {heap roomy next : Heap} (sound : heap.Sound) {descriptor : Descriptor}
    {extra : UInt32} {layout : Layout}
    {laidOut : Layout.of? descriptor extra.toNat = some layout} {place : Place}
    (finds : heap.FindsRoom layout place roomy) {handle : Handle}
    (ran : (Heap.settle place (Object.fresh descriptor extra layout laidOut)).run roomy =
      (.ok handle, next))
    (bounded : next.handles.slots < 2 ^ 32) : heap.Calm next := by
  obtain ⟨nextSound, settles⟩ := sound.allocated finds ran bounded
  have found := sound.findsRoom laidOut finds
  refine ⟨nextSound, ?_, by rw [settles.rest, found.rest], by rw [settles.rest, found.rest]⟩
  intro other live
  rcases HandleTable.isLive_iff.mp live with ⟨address, holds, before⟩
  rw [← finds.handles] at before
  apply HandleTable.isLive_iff.mpr
  refine ⟨address, holds, ?_⟩
  rw [settles.mints.others]
  · exact before
  · rintro rfl
    rw [settles.mints.new] at before
    cases before

/-- A quiet step keeps a heap sound and its live handles live, and counts no collection. -/
theorem Quiet.calm {heap next : Heap} (quiet : Quiet heap next) (sound : heap.Sound)
    (bounded : next.handles.slots < 2 ^ 32) : heap.Calm next := by
  cases quiet with
  | registered registers => exact ⟨sound.register registers, fun _ live => live, rfl, rfl⟩
  | allocated finds ran => exact sound.calm_allocated finds ran bounded
  | refused laidOut ran =>
      obtain ⟨allocator, fails, rfl⟩ := run_grow_eq_error ran
      obtain ⟨accounts, _, _⟩ := sound.placed.extend_error sound.books laidOut fails
      rw [List.append_nil] at accounts
      exact ⟨{ sound with accounts := accounts }, fun _ live => live, rfl, rfl⟩
  | abandoned ran =>
      obtain ⟨_, allocator, _, rfl, accounts, _⟩ := sound.collectNow_error ran
      exact ⟨{ sound with accounts := accounts }, fun _ live => live, rfl, rfl⟩
  | retained ran =>
      obtain ⟨address, holds, found, rfl⟩ := HandleTable.retain_eq_ok ran
      have live := HandleTable.isLive_congr (HandleTable.resolve_setSlot found (holds + 1))
      exact ⟨sound.setSlot found _, fun other before => (live other).trans before, rfl, rfl⟩
  | released ran =>
      obtain ⟨address, holds, found, _, rfl⟩ := HandleTable.release_eq_ok ran
      have live := HandleTable.isLive_congr (HandleTable.resolve_setSlot found (holds - 1))
      exact ⟨sound.setSlot found _, fun other before => (live other).trans before, rfl, rfl⟩
  | @rooted roots registered =>
      refine ⟨{ sound with rooted := ?_ }, fun _ live => live, rfl, rfl⟩
      intro root member
      rcases registered root member with old | live
      · exact sound.rooted root old
      · exact live
  | interned new live => exact ⟨sound.intern new live, fun _ live => live, rfl, rfl⟩
  | composed scope name qualified =>
      exact ⟨{ sound with }, fun _ live => live, rfl, rfl⟩
  | slotsWritten address present =>
      exact ⟨sound.writeSlots address present, fun _ live => live, rfl, rfl⟩
  | wordWritten value apart =>
      exact ⟨sound.writeWord value apart, fun _ live => live, rfl, rfl⟩
  | tailWritten address bytes =>
      exact ⟨sound.writeTail address bytes, fun _ live => live, rfl, rfl⟩
  | counted collections reclaimed =>
      exact ⟨{ sound with }, fun _ live => live, collections, reclaimed⟩

/-! ## Courses -/

/-- A completed collection of a sound heap compacts it. -/
theorem Sound.compacts {heap finish : Heap} (sound : heap.Sound)
    (ran : heap.collectNow = (.ok (), finish)) : ∃ live, heap.Compacts finish live :=
  ⟨_, sound.compacts_mark ran⟩

/-- What a course does to a sound heap: it stays sound, every collection on the way starts from a
sound heap, the collections are counted, and without collections no handle becomes stale and no
object is counted as reclaimed. -/
structure Traced (heap : Heap) (log : List (Heap × Heap)) (last : Heap) : Prop where
  sound : last.Sound
  collected : ∀ start finish, (start, finish) ∈ log →
    start.Sound ∧ ∃ live, start.Compacts finish live
  collections : last.counters.collections = heap.counters.collections + log.length
  keeps : log = [] → ∀ handle, heap.handles.isLive handle = true →
    last.handles.isLive handle = true
  reclaimed : log = [] → last.counters.objectsReclaimed = heap.counters.objectsReclaimed

theorem Course.traced {heap last : Heap} {log : List (Heap × Heap)} (course : Course heap log last)
    (sound : heap.Sound) (bounded : last.handles.slots < 2 ^ 32) : heap.Traced log last := by
  induction course with
  | done heap => exact ⟨sound, by simp, rfl, fun _ _ live => live, fun _ => rfl⟩
  | quiet step rest ih =>
      have calm := step.calm sound (Nat.lt_of_le_of_lt rest.slots_le bounded)
      have traced := ih calm.sound bounded
      constructor
      · exact traced.sound
      · exact traced.collected
      · rw [traced.collections, calm.collections]
      · exact fun none handle live => traced.keeps none handle (calm.keeps handle live)
      · exact fun none => (traced.reclaimed none).trans calm.reclaimed
  | @collected heap next last log ran rest ih =>
      obtain ⟨live, compacts⟩ := sound.compacts ran
      have traced := ih (compacts.sound sound) bounded
      constructor
      · exact traced.sound
      · intro start finish member
        rcases List.mem_cons.mp member with same | member
        · cases same
          exact ⟨sound, live, compacts⟩
        · exact traced.collected start finish member
      · rw [traced.collections, compacts.collections, List.length_cons]
        omega
      · intro none
        cases none
      · intro none
        cases none

end Heap

end CompactingHeap
