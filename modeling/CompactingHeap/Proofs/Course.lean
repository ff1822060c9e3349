import CompactingHeap.Heap.Allocation
import CompactingHeap.Proofs.Compaction

/-!
# The course of a heap

Whatever the operations do to a heap decomposes into quiet steps, during which no collection
completes, and completed collections.  The course of a run lists the completed collections, each
with the heaps before and after it.  A quiet step keeps the heap sound and every live handle live,
and it counts no collection, so the counter of collections tells how long the list is.
-/

namespace CompactingHeap

namespace Heap

/-- Room for a layout is found in the current slab, or in a new slab. -/
inductive FindsRoom (heap : Heap) (layout : Layout) (place : Place) (roomy : Heap) : Prop
  | bumped : (bump? layout).run heap = (.ok (some place), roomy) → FindsRoom heap layout place roomy
  | grown : (grow layout).run heap = (.ok place, roomy) → FindsRoom heap layout place roomy

/-- A step of a heap during which no collection completes. -/
inductive Quiet (heap : Heap) : Heap → Prop
  /-- A class is registered. -/
  | registered {name : String} {size align : Nat} {trace : List TraceEntry} {byteTail : Bool}
      {id : ClassId} {classes : Registry} :
      heap.classes.register name size align trace byteTail = .ok (id, classes) →
        Quiet heap { heap with classes }
  /-- Room is found, and a fresh object is put there. -/
  | allocated {descriptor : Descriptor} {extra : UInt32} {layout : Layout}
      {laidOut : Layout.of? descriptor extra.toNat = some layout} {place : Place}
      {roomy next : Heap} {handle : Handle} :
      FindsRoom heap layout place roomy →
        (settle place (Object.fresh descriptor extra layout laidOut)).run roomy =
          (.ok handle, next) →
        Quiet heap next
  /-- A new slab is refused. -/
  | refused {descriptor : Descriptor} {extra : Nat} {layout : Layout} {error : HeapError}
      {next : Heap} :
      Layout.of? descriptor extra = some layout → (grow layout).run heap = (.error error, next) →
        Quiet heap next
  /-- A collection fails and is taken back. -/
  | abandoned {error : HeapError} {next : Heap} :
      heap.collectNow = (.error error, next) → Quiet heap next
  /-- A hold is added. -/
  | retained {handle : Handle} {handles : HandleTable Address} :
      heap.handles.retain handle = (.ok (), handles) → Quiet heap { heap with handles }
  /-- A hold is dropped. -/
  | released {handle : Handle} {handles : HandleTable Address} :
      heap.handles.release handle = (.ok (), handles) → Quiet heap { heap with handles }
  /-- The roots change, and every registration is an old one or one of a live handle. -/
  | rooted {roots : RootSet} :
      (∀ root ∈ roots.latest, root ∈ heap.roots.latest ∨ heap.handles.isLive root.handle = true) →
        Quiet heap { heap with roots }
  /-- A live handle becomes the canonical string for bytes that had none. -/
  | interned {bytes : Bytes} {handle : Handle} :
      heap.interner.lookup bytes = none → heap.handles.isLive handle = true →
        Quiet heap { heap with interner := heap.interner.insert bytes handle }
  /-- A qualified name is recorded. -/
  | composed (scope name qualified : Handle) :
      Quiet heap { heap with interner := heap.interner.insertQualified scope name qualified }
  /-- References to objects, or absent ones, are written into slots of an object. -/
  | slotsWritten (address : Address) {writes : List (Nat × Option Address)} :
      (∀ offset target, (offset, some target) ∈ writes →
        ∃ object, heap.space.object? target = some object) →
        Quiet heap { heap with
          space := heap.space.modify address fun object =>
            writes.foldl (fun written write => written.setSlot write.1 write.2) object }
  /-- A word of plain data that is not the length of a run is written. -/
  | wordWritten {address : Address} {offset : Nat} (value : UInt64) :
      (∀ object run, heap.space.object? address = some object →
        object.descriptor.runOffset? = some run → offset / wordBytes ≠ run / wordBytes) →
        Quiet heap { heap with
          space := heap.space.modify address fun object => object.setWord offset value }
  /-- A byte tail is written. -/
  | tailWritten (address : Address) (bytes : Bytes) :
      Quiet heap { heap with
        space := heap.space.modify address fun object => object.setTail bytes }
  /-- Something else than collections is counted. -/
  | counted {counters : Counters} :
      counters.collections = heap.counters.collections →
        counters.objectsReclaimed = heap.counters.objectsReclaimed →
        Quiet heap { heap with counters }

/-- The course of a heap: quiet steps and completed collections, with a list of the latter. -/
inductive Course : Heap → List (Heap × Heap) → Heap → Prop
  | done (heap : Heap) : Course heap [] heap
  | quiet {heap next last : Heap} {log : List (Heap × Heap)} :
      Quiet heap next → Course next log last → Course heap log last
  | collected {heap next last : Heap} {log : List (Heap × Heap)} :
      heap.collectNow = (.ok (), next) → Course next log last →
        Course heap ((heap, next) :: log) last

/-- A quiet step is a course without collections. -/
theorem Quiet.course {heap next : Heap} (quiet : Quiet heap next) : Course heap [] next :=
  Course.quiet quiet (Course.done next)

/-- One course after another. -/
theorem Course.trans {heap middle last : Heap} {log later : List (Heap × Heap)}
    (first : Course heap log middle) (second : Course middle later last) :
    Course heap (log ++ later) last := by
  induction first with
  | done heap => exact second
  | quiet step rest ih => exact Course.quiet step (ih second)
  | collected step rest ih => exact Course.collected step (ih second)

/-- The entries of a course are the completed collections. -/
theorem Course.collectNow_of_mem {heap last start finish : Heap} {log : List (Heap × Heap)}
    (course : Course heap log last) (member : (start, finish) ∈ log) :
    start.collectNow = (.ok (), finish) := by
  induction course with
  | done heap => cases member
  | quiet step rest ih => exact ih member
  | collected ran rest ih =>
      rcases List.mem_cons.mp member with same | member
      · cases same
        exact ran
      · exact ih member

/-- Each completed collection lies on the way. -/
theorem Course.split {heap last start finish : Heap} {log : List (Heap × Heap)}
    (course : Course heap log last) (member : (start, finish) ∈ log) :
    (∃ before, Course heap before start) ∧ ∃ after, Course finish after last := by
  induction course with
  | done heap => cases member
  | quiet step rest ih =>
      obtain ⟨⟨before, first⟩, second⟩ := ih member
      exact ⟨⟨before, Course.quiet step first⟩, second⟩
  | @collected heap next last log ran rest ih =>
      rcases List.mem_cons.mp member with same | member
      · cases same
        exact ⟨⟨[], Course.done _⟩, log, rest⟩
      · obtain ⟨⟨before, first⟩, second⟩ := ih member
        exact ⟨⟨_, Course.collected ran first⟩, second⟩

/-! ## The parts of an allocation -/

/-- Where the current slab has room, it is taken there. -/
theorem run_bump? (layout : Layout) (heap : Heap) :
    (bump? layout).run heap =
      match heap.space.bump? layout with
      | some (place, space) => (.ok (some place), { heap with space })
      | none => (.ok none, heap) := by
  unfold bump?
  rw [HeapM.run_bind, HeapM.run_get]
  dsimp only
  rcases heap.space.bump? layout with _ | ⟨place, space⟩ <;> rfl

/-- Taking room in the current slab changes the space only. -/
theorem run_bump?_eq_some {heap roomy : Heap} {layout : Layout} {place : Place}
    (ran : (bump? layout).run heap = (.ok (some place), roomy)) :
    ∃ space, heap.space.bump? layout = some (place, space) ∧ roomy = { heap with space } := by
  rw [run_bump?] at ran
  split at ran
  · next found =>
    cases ran
    exact ⟨_, found, rfl⟩
  · cases ran

/-- Growing extends the space by a slab. -/
theorem run_grow (layout : Layout) (heap : Heap) :
    (grow layout).run heap =
      match heap.space.extend heap.allocator layout with
      | (.ok (place, space), allocator) => (.ok place, { heap with space, allocator })
      | (.error error, allocator) => (.error error, { heap with allocator }) := by
  unfold grow
  rw [HeapM.run_bind, HeapM.run_get]
  dsimp only
  rcases heap.space.extend heap.allocator layout with ⟨_ | ⟨place, space⟩, allocator⟩ <;> rfl

/-- A space that has been extended, and the allocator, are all that growing changes. -/
theorem run_grow_eq_ok {heap roomy : Heap} {layout : Layout} {place : Place}
    (ran : (grow layout).run heap = (.ok place, roomy)) :
    ∃ space allocator, heap.space.extend heap.allocator layout = (.ok (place, space), allocator) ∧
      roomy = { heap with space, allocator } := by
  rw [run_grow] at ran
  split at ran
  · next grows =>
    cases ran
    exact ⟨_, _, grows, rfl⟩
  · cases ran

/-- A slab that is refused changes the allocator only. -/
theorem run_grow_eq_error {heap next : Heap} {layout : Layout} {error : HeapError}
    (ran : (grow layout).run heap = (.error error, next)) :
    ∃ allocator, heap.space.extend heap.allocator layout = (.error error, allocator) ∧
      next = { heap with allocator } := by
  rw [run_grow] at ran
  split at ran
  · cases ran
  · next grows =>
    cases ran
    exact ⟨_, grows, rfl⟩

/-- Settling mints a handle and puts the object at the next address. -/
theorem run_settle (place : Place) (object : HeapObject) (heap : Heap) :
    (settle place object).run heap =
      match heap.handles.mint heap.space.nextAddress with
      | (.ok handle, handles) =>
          (.ok handle, { heap with
            handles
            space := heap.space.add place { object with owner := handle.index }
            counters := { heap.counters with
              objectsAllocated := heap.counters.objectsAllocated + 1
              bytesAllocated := heap.counters.bytesAllocated + object.layout.size } })
      | (.error error, handles) => (.error error, { heap with handles }) := by
  unfold settle
  rw [HeapM.run_bind, HeapM.run_get]
  dsimp only
  rw [HeapM.run_bind, run_onHandles]
  rcases heap.handles.mint heap.space.nextAddress with ⟨_ | handle, handles⟩ <;> rfl

end Heap

end CompactingHeap
