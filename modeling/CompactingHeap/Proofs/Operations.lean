import CompactingHeap.Proofs.ContainerPrograms

/-!
# Reachable heaps

The public operations of heaps, arrays and tables are all tame, so every heap that they lead to
from a new one is sound, whether they succeed or fail.  An array or a table is any handle that is
used as one.  What a scanner reports may change at any time.
-/

namespace CompactingHeap

/-- The programs that a heap offers to its users.  A question leaves the heap alone, and a table
may be searched by any hash of its keys. -/
inductive Operation : {α : Type} → HeapM α → Prop
  | ask {α : Type} (question : Heap → Except HeapError α) : Operation (HeapM.ask question)
  | register (name : String) (size align : Nat) (trace : List TraceEntry) (byteTail : Bool) :
      Operation (Heap.register name size align trace byteTail)
  | allocate (id : ClassId) (extra : Nat) : Operation (Heap.allocate id extra)
  | allocateBytes (id : ClassId) (bytes : Bytes) : Operation (Heap.allocateBytes id bytes)
  | allocInt (value : Int64) : Operation (Heap.allocInt value)
  | allocFloat (bits : UInt64) : Operation (Heap.allocFloat bits)
  | allocBool (value : Bool) : Operation (Heap.allocBool value)
  | allocChar (value : Char) : Operation (Heap.allocChar value)
  | allocString (bytes : Bytes) : Operation (Heap.allocString bytes)
  | allocVector (length : Nat) : Operation (Heap.allocVector length)
  | cons (car cdr : Option Handle) : Operation (Heap.cons car cdr)
  | setCar (cell : Handle) (value : Option Handle) : Operation (Heap.setCar cell value)
  | setCdr (cell : Handle) (value : Option Handle) : Operation (Heap.setCdr cell value)
  | writeRef (handle : Handle) (offset : Nat) (value : Option Handle) :
      Operation (Heap.writeRef handle offset value)
  | writeWord (handle : Handle) (offset : Nat) (value : UInt64) :
      Operation (Heap.writeWord handle offset value)
  | runSet (handle : Handle) (index : Nat) (value : Option Handle) :
      Operation (Heap.runSet handle index value)
  | retain (handle : Handle) : Operation (Heap.retain handle)
  | release (handle : Handle) : Operation (Heap.release handle)
  | registerRoot (source : RootSource) (handle : Handle) :
      Operation (Heap.registerRoot source handle)
  | unregisterRoot (source : RootSource) (handle : Handle) :
      Operation (Heap.unregisterRoot source handle)
  | unregisterSource (source : RootSource) : Operation (Heap.unregisterSource source)
  | addScanner (report : List Handle) : Operation (Heap.addScanner report)
  | setReport (id : ScannerId) (report : List Handle) : Operation (Heap.setReport id report)
  | removeScanner (id : ScannerId) : Operation (Heap.removeScanner id)
  | intern (bytes : Bytes) : Operation (Heap.intern bytes)
  | qualify (scope name : Handle) : Operation (Heap.qualify scope name)
  | qualifyPath (segments : List Bytes) : Operation (Heap.qualifyPath segments)
  | collect : Operation Heap.collect
  | newArray : Operation RefArray.new
  | arrayWithCapacity (capacity : Nat) : Operation (RefArray.withCapacity capacity)
  | filledArray (length : Nat) : Operation (RefArray.filled length)
  | arraySet (array : RefArray) (index : Nat) (value : Option Handle) :
      Operation (array.set index value)
  | arrayPush (array : RefArray) (value : Option Handle) : Operation (array.push value)
  | arrayPop (array : RefArray) : Operation array.pop
  | arrayClear (array : RefArray) : Operation array.clear
  | newTable : Operation RefTable.new
  | tableWithCapacity (capacity : Nat) : Operation (RefTable.withCapacity capacity)
  | tableInsert (table : RefTable) (key value : Handle) (hash : Key → UInt64) :
      Operation (table.insert key value hash)
  | tableRemove (table : RefTable) (key : Handle) (hash : Key → UInt64) :
      Operation (table.remove key hash)

/-- Every public operation is tame. -/
theorem Operation.tame {α : Type} {operation : HeapM α} (offered : Operation operation) :
    Tame operation := by
  cases offered with
  | ask question => exact Tame.ask question
  | register name size align trace byteTail =>
      exact Heap.tame_register name size align trace byteTail
  | allocate id extra => exact Heap.tame_allocate id extra
  | allocateBytes id bytes => exact Heap.tame_allocateBytes id bytes
  | allocInt value => exact Heap.tame_allocScalar (by simp) value.toUInt64
  | allocFloat bits => exact Heap.tame_allocScalar (by simp) bits
  | allocBool value => exact Heap.tame_allocScalar (by simp) _
  | allocChar value => exact Heap.tame_allocScalar (by simp) value.val.toUInt64
  | allocString bytes => exact Heap.tame_allocateBytes .string bytes
  | allocVector length => exact Heap.tame_allocate .vector length
  | cons car cdr => exact Heap.tame_cons car cdr
  | setCar cell value => exact Heap.tame_writePair cell 0 value
  | setCdr cell value => exact Heap.tame_writePair cell wordBytes value
  | writeRef handle offset value => exact Heap.tame_writeRef handle offset value
  | writeWord handle offset value => exact Heap.tame_writeWord handle offset value
  | runSet handle index value => exact Heap.tame_runSet handle index value
  | retain handle => exact Heap.tame_retain handle
  | release handle => exact Heap.tame_release handle
  | registerRoot source handle => exact Heap.tame_registerRoot source handle
  | unregisterRoot source handle => exact Heap.tame_unregisterRoot source handle
  | unregisterSource source => exact Heap.tame_unregisterSource source
  | addScanner report => exact Heap.tame_addScanner report
  | setReport id report => exact Heap.tame_setReport id report
  | removeScanner id => exact Heap.tame_removeScanner id
  | intern bytes => exact Heap.tame_intern bytes
  | qualify scope name => exact Heap.tame_qualify scope name
  | qualifyPath segments => exact Heap.tame_qualifyPath segments
  | collect => exact Heap.tame_collect
  | newArray => exact RefArray.tame_withCapacity 0
  | arrayWithCapacity capacity => exact RefArray.tame_withCapacity capacity
  | filledArray length => exact RefArray.tame_filled length
  | arraySet array index value => exact array.tame_set index value
  | arrayPush array value => exact array.tame_push value
  | arrayPop array => exact array.tame_pop
  | arrayClear array => exact array.tame_clear
  | newTable => exact RefTable.tame_new
  | tableWithCapacity capacity => exact RefTable.tame_withCapacity capacity
  | tableInsert table key value hash => exact table.tame_insert key value hash
  | tableRemove table key hash => exact table.tame_remove key hash

namespace Heap

/-- The heaps that operations lead to from a new heap, as long as there are fewer than `2 ^ 32`
handle slots. -/
inductive Reachable : Heap → Prop
  | created {system : MemorySystem} {config : Config} {heap : Heap} :
      Heap.new system config = .ok heap → Reachable heap
  | after {α : Type} {operation : HeapM α} {heap : Heap} :
      Reachable heap → Operation operation → (operation.run heap).2.handles.slots < 2 ^ 32 →
        Reachable (operation.run heap).2

/-- A reachable heap is sound. -/
theorem Reachable.sound {heap : Heap} (reachable : heap.Reachable) : heap.Sound := by
  induction reachable with
  | created created => exact Sound.new created
  | after reachable offered bounded ih =>
      obtain ⟨log, course⟩ := offered.tame.course _ ih bounded
      exact (course.traced ih bounded).sound

/-! ## Collections on the way -/

/-- A relation holds of the heaps before and after each collection that completes on the way from
one heap to another: there is a course between the two, and along every course the collections are
all counted, and the relation holds of each. -/
structure EachCollection (heap last : Heap) (relation : Heap → Heap → Prop) : Prop where
  course : ∃ log, Course heap log last
  counted : ∀ log, Course heap log last →
    last.counters.collections = heap.counters.collections + log.length
  each : ∀ log, Course heap log last → ∀ start finish, (start, finish) ∈ log →
    start.collectNow = (.ok (), finish) ∧ relation start finish

/-- What every compaction of a sound heap does, each collection does that an operation completes. -/
theorem Reachable.eachCollection {heap : Heap} (reachable : heap.Reachable) {α : Type}
    {operation : HeapM α} (offered : Operation operation)
    (bounded : (operation.run heap).2.handles.slots < 2 ^ 32) {relation : Heap → Heap → Prop}
    (related : ∀ start finish live, start.Sound → start.Compacts finish live →
      relation start finish) :
    EachCollection heap (operation.run heap).2 relation where
  course := offered.tame.course heap reachable.sound bounded
  counted log course := (course.traced reachable.sound bounded).collections
  each log course start finish member := by
    have traced := course.traced reachable.sound bounded
    obtain ⟨sound, live, compacts⟩ := traced.collected start finish member
    exact ⟨course.collectNow_of_mem member, related start finish live sound compacts⟩

/-- A heap that is passed on the way from another one, between two steps of an operation. -/
structure Underway (heap middle : Heap) : Prop where
  course : ∃ log, Course heap log middle
  bounded : middle.handles.slots < 2 ^ 32

theorem Underway.sound {heap middle : Heap} (underway : heap.Underway middle)
    (sound : heap.Sound) : middle.Sound := by
  obtain ⟨log, course⟩ := underway.course
  exact (course.traced sound underway.bounded).sound

/-- What every collection does that completes on the way, each collection does that an operation
completes. -/
theorem Reachable.eachCollection_underway {heap : Heap} (reachable : heap.Reachable) {α : Type}
    {operation : HeapM α} (offered : Operation operation)
    (bounded : (operation.run heap).2.handles.slots < 2 ^ 32) {relation : Heap → Heap → Prop}
    (related : ∀ start finish, heap.Underway start → start.collectNow = (.ok (), finish) →
      relation start finish) :
    EachCollection heap (operation.run heap).2 relation where
  course := offered.tame.course heap reachable.sound bounded
  counted log course := (course.traced reachable.sound bounded).collections
  each log course start finish member := by
    obtain ⟨before, after, later⟩ := course.split member
    have ran := course.collectNow_of_mem member
    have slots := start.slots_collectNow
    rw [ran] at slots
    have small : start.handles.slots < 2 ^ 32 := by
      rw [← slots]
      exact Nat.lt_of_le_of_lt later.slots_le bounded
    exact ⟨ran, related start finish ⟨before, small⟩ ran⟩

/-! ## Two reachable heaps -/

/-- A new heap on a system with memory enough. -/
def blank (config : Config) : Heap :=
  { config
    classes := .initial
    allocator := .new .spacious config.slabBytes config.maxHeapBytes config.slabPool
    space := .empty 0
    handles := .empty
    interner := .empty
    roots := .empty
    phase := .idle
    threshold := config.minCollectBytes
    counters := {} }

theorem new_blank {config : Config} (accepted : config.flaw? = none) :
    Heap.new .spacious config = .ok (blank config) :=
  new_eq_ok_iff.mpr ⟨Config.validate_eq_ok_iff.mpr accepted, rfl⟩

theorem reachable_blank {config : Config} (accepted : config.flaw? = none) :
    (blank config).Reachable :=
  Reachable.created (new_blank accepted)

/-- A heap with a held pair of an integer, which is held by the pair only, and an integer that
nothing holds. -/
def sample : Heap :=
  let first := ((allocInt 7).run (blank {})).2
  let second := ((cons (some ⟨0, 0⟩) none).run first).2
  let third := ((allocInt 8).run second).2
  let fourth := ((release ⟨0, 0⟩).run third).2
  ((release ⟨2, 0⟩).run fourth).2

theorem reachable_sample : sample.Reachable := by
  have start : (blank {}).Reachable := reachable_blank (by decide +kernel)
  have first := start.after (Operation.allocInt 7) (by decide +kernel)
  have second := first.after (Operation.cons (some ⟨0, 0⟩) none) (by decide +kernel)
  have third := second.after (Operation.allocInt 8) (by decide +kernel)
  have fourth := third.after (Operation.release ⟨0, 0⟩) (by decide +kernel)
  exact fourth.after (Operation.release ⟨2, 0⟩) (by decide +kernel)

/-- A heap that may map a single slab, with an integer in it. -/
def cramped : Heap :=
  ((allocInt 7).run (blank { slabBytes := 4096, maxHeapBytes := 4096 })).2

theorem reachable_cramped : cramped.Reachable := by
  have start : (blank { slabBytes := 4096, maxHeapBytes := 4096 }).Reachable :=
    reachable_blank (by decide +kernel)
  exact start.after (Operation.allocInt 7) (by decide +kernel)

/-- A heap that may map five slabs, with three objects that take a little more than half a slab
each. -/
def crowded : Heap :=
  let first := ((register "demo.Page" 2032 8 [] false).run
    (blank { slabBytes := 4096, maxHeapBytes := 20480 })).2
  let second := ((allocate ⟨9⟩ 0).run first).2
  let third := ((allocate ⟨9⟩ 0).run second).2
  ((allocate ⟨9⟩ 0).run third).2

theorem reachable_crowded : crowded.Reachable := by
  have start : (blank { slabBytes := 4096, maxHeapBytes := 20480 }).Reachable :=
    reachable_blank (by decide +kernel)
  have first := start.after (Operation.register "demo.Page" 2032 8 [] false) (by decide +kernel)
  have second := first.after (Operation.allocate ⟨9⟩ 0) (by decide +kernel)
  have third := second.after (Operation.allocate ⟨9⟩ 0) (by decide +kernel)
  exact third.after (Operation.allocate ⟨9⟩ 0) (by decide +kernel)

end Heap

end CompactingHeap
