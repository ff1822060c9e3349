import CompactingHeap.Proofs.SparingContainers

/-!
# Operations elsewhere

An operation goes on elsewhere, seen from a container, if it may do anything but write the parts of
the container: it writes no field of a part, uses no part as an array or a table, and makes no part
the storage of another array or table.  Such operations leave what the container consists of as it
is, as long as the container lives.
-/

namespace CompactingHeap

open Heap

namespace Heap

/-- The write makes a part the storage of another array or table. -/
def Plants (heap : Heap) (parts : List Handle) (handle : Handle) (offset : Nat)
    (value : Option Handle) : Prop :=
  offset = storageOffset ∧ ∃ part ∈ parts, value = some part ∧
    (heap.classOf handle = .ok .array ∧ heap.classOf part = .ok .vector ∨
      heap.classOf handle = .ok .hashtable ∧ heap.classOf part = .ok .array)

/-- The object is no part, and it is an instance of the class if it is live. -/
def Foreign (heap : Heap) (parts : List Handle) (id : ClassId) (handle : Handle) : Prop :=
  handle ∉ parts ∧ ∀ other, heap.classOf handle = .ok other → other = id

/-- The object is no part, and none of those that must not be written. -/
def Writable (parts still : List Handle) (handle : Handle) : Prop :=
  handle ∉ parts ∧ handle ∉ still

/-- The operations that go on elsewhere, seen from a container with the given parts.  The objects in
`still` are not written directly either. -/
inductive Elsewhere (heap : Heap) (parts still : List Handle) : {α : Type} → HeapM α → Prop
  | ask {α : Type} (question : Heap → Except HeapError α) :
      Elsewhere heap parts still (HeapM.ask question)
  | register (name : String) (size align : Nat) (trace : List TraceEntry) (byteTail : Bool) :
      Elsewhere heap parts still (Heap.register name size align trace byteTail)
  | allocate (id : ClassId) (extra : Nat) : Elsewhere heap parts still (Heap.allocate id extra)
  | allocateBytes (id : ClassId) (bytes : Bytes) :
      Elsewhere heap parts still (Heap.allocateBytes id bytes)
  | allocInt (value : Int64) : Elsewhere heap parts still (Heap.allocInt value)
  | allocFloat (bits : UInt64) : Elsewhere heap parts still (Heap.allocFloat bits)
  | allocBool (value : Bool) : Elsewhere heap parts still (Heap.allocBool value)
  | allocChar (value : Char) : Elsewhere heap parts still (Heap.allocChar value)
  | allocString (bytes : Bytes) : Elsewhere heap parts still (Heap.allocString bytes)
  | allocVector (length : Nat) : Elsewhere heap parts still (Heap.allocVector length)
  | cons (car cdr : Option Handle) : Elsewhere heap parts still (Heap.cons car cdr)
  | setCar {cell : Handle} (value : Option Handle) : Writable parts still cell →
      Elsewhere heap parts still (Heap.setCar cell value)
  | setCdr {cell : Handle} (value : Option Handle) : Writable parts still cell →
      Elsewhere heap parts still (Heap.setCdr cell value)
  | writeRef {handle : Handle} {offset : Nat} {value : Option Handle} :
      Writable parts still handle → ¬ heap.Plants parts handle offset value →
        Elsewhere heap parts still (Heap.writeRef handle offset value)
  | writeWord {handle : Handle} (offset : Nat) (value : UInt64) : Writable parts still handle →
      Elsewhere heap parts still (Heap.writeWord handle offset value)
  | runSet {handle : Handle} (index : Nat) (value : Option Handle) : Writable parts still handle →
      Elsewhere heap parts still (Heap.runSet handle index value)
  | retain (handle : Handle) : Elsewhere heap parts still (Heap.retain handle)
  | release (handle : Handle) : Elsewhere heap parts still (Heap.release handle)
  | registerRoot (source : RootSource) (handle : Handle) :
      Elsewhere heap parts still (Heap.registerRoot source handle)
  | unregisterRoot (source : RootSource) (handle : Handle) :
      Elsewhere heap parts still (Heap.unregisterRoot source handle)
  | unregisterSource (source : RootSource) :
      Elsewhere heap parts still (Heap.unregisterSource source)
  | addScanner (report : List Handle) : Elsewhere heap parts still (Heap.addScanner report)
  | setReport (id : ScannerId) (report : List Handle) :
      Elsewhere heap parts still (Heap.setReport id report)
  | removeScanner (id : ScannerId) : Elsewhere heap parts still (Heap.removeScanner id)
  | intern (bytes : Bytes) : Elsewhere heap parts still (Heap.intern bytes)
  | qualify (scope name : Handle) : Elsewhere heap parts still (Heap.qualify scope name)
  | qualifyPath (segments : List Bytes) : Elsewhere heap parts still (Heap.qualifyPath segments)
  | collect : Elsewhere heap parts still Heap.collect
  | newArray : Elsewhere heap parts still RefArray.new
  | arrayWithCapacity (capacity : Nat) :
      Elsewhere heap parts still (RefArray.withCapacity capacity)
  | filledArray (length : Nat) : Elsewhere heap parts still (RefArray.filled length)
  | arraySet {array : RefArray} (index : Nat) (value : Option Handle) :
      heap.Foreign parts .array array.handle → Elsewhere heap parts still (array.set index value)
  | arrayPush {array : RefArray} (value : Option Handle) :
      heap.Foreign parts .array array.handle → Elsewhere heap parts still (array.push value)
  | arrayPop {array : RefArray} :
      heap.Foreign parts .array array.handle → Elsewhere heap parts still array.pop
  | arrayClear {array : RefArray} :
      heap.Foreign parts .array array.handle → Elsewhere heap parts still array.clear
  | newTable : Elsewhere heap parts still RefTable.new
  | tableWithCapacity (capacity : Nat) :
      Elsewhere heap parts still (RefTable.withCapacity capacity)
  | tableInsert {table : RefTable} (key value : Handle) (hash : Key → UInt64) :
      heap.Foreign parts .hashtable table.handle →
        Elsewhere heap parts still (table.insert key value hash)
  | tableRemove {table : RefTable} (key : Handle) (hash : Key → UInt64) :
      heap.Foreign parts .hashtable table.handle →
        Elsewhere heap parts still (table.remove key hash)

end Heap

namespace Enclave

variable {enclave : Enclave}

/-- The parts of the enclave are among the given objects, and its storage is among the first
ones. -/
structure Within (enclave : Enclave) (parts still : List Handle) : Prop where
  covered : ∀ handle view, enclave.part? handle = some view → handle ∈ parts ∨ handle ∈ still
  storage : ∀ handle id, id ∈ [ClassId.vector, ClassId.array, ClassId.hashtable] →
    enclave.Has handle id → handle ∈ parts

section

variable {heap : Heap} {parts still : List Handle}
  (within : enclave.Within parts still) (guarded : enclave.Guarded heap)

include within

/-- What may be written is no part. -/
theorem Within.outside {handle : Handle} (writable : Writable parts still handle) :
    enclave.Outside handle := by
  cases part : enclave.part? handle with
  | none => exact part
  | some view =>
      rcases within.covered handle view part with member | member
      · exact absurd member writable.1
      · exact absurd member writable.2

include guarded

/-- Another array or table is no part. -/
theorem Within.outside_of_foreign {id : ClassId}
    (container : id ∈ [ClassId.vector, ClassId.array, ClassId.hashtable]) {handle : Handle}
    (foreign : heap.Foreign parts id handle) : enclave.Outside handle := by
  cases part : enclave.part? handle with
  | none => exact part
  | some view =>
      have sameClass := foreign.2 _ (classOf_of_view (guarded.parts handle view part))
      exact absurd (within.storage handle id container ⟨view, part, sameClass⟩) foreign.1

/-- Another array is clear of the vectors of the enclave. -/
theorem Within.clear_array {handle : Handle} (foreign : heap.Foreign parts .array handle) :
    enclave.Knows heap [.clear .vector handle] := by
  intro fact member
  cases List.mem_singleton.mp member
  have outside := within.outside_of_foreign guarded (by simp) foreign
  cases seen : heap.view? handle with
  | some view =>
      exact guarded.arrays handle view seen (foreign.2 _ (classOf_of_view seen)) outside
  | none =>
      refine ⟨outside, ?_⟩
      intro view target here
      rw [seen] at here
      cases here

/-- Another table is clear of the arrays of the enclave. -/
theorem Within.clear_table {handle : Handle} (foreign : heap.Foreign parts .hashtable handle) :
    enclave.Knows heap [.clear .array handle] := by
  intro fact member
  cases List.mem_singleton.mp member
  have outside := within.outside_of_foreign guarded (by simp) foreign
  cases seen : heap.view? handle with
  | some view =>
      exact guarded.tables handle view seen (foreign.2 _ (classOf_of_view seen)) outside
  | none =>
      refine ⟨outside, ?_⟩
      intro view target here
      rw [seen] at here
      cases here

/-- What is not planted is harmless. -/
theorem Within.harmless {handle target : Handle} {view : View}
    (seen : heap.view? handle = some view)
    (unplanted : ¬ heap.Plants parts handle storageOffset (some target)) :
    enclave.Harmless view target := by
  constructor
  · intro array has
    obtain ⟨shown, part, vector⟩ := has
    apply unplanted
    refine ⟨rfl, target, within.storage target .vector (by simp) ⟨shown, part, vector⟩, rfl, ?_⟩
    left
    constructor
    · rw [classOf_of_view seen, array]
    · rw [classOf_of_view (guarded.parts target shown part), vector]
  · intro table has
    obtain ⟨shown, part, array⟩ := has
    apply unplanted
    refine ⟨rfl, target, within.storage target .array (by simp) ⟨shown, part, array⟩, rfl, ?_⟩
    right
    constructor
    · rw [classOf_of_view seen, table]
    · rw [classOf_of_view (guarded.parts target shown part), array]

end

/-- A program that spares the enclave, given what is known, is tame and keeps it guarded. -/
theorem Spares.keeps {heap : Heap} {α : Type} {program : HeapM α} {known : List Fact}
    (spares : enclave.Spares known program) (knows : enclave.Knows heap known) :
    Tame program ∧ (enclave.Ready heap (program.run heap).2 →
      enclave.Guarded (program.run heap).2) :=
  ⟨spares.tame, fun ready => (spares.spares heap ready knows).1.guarded⟩

/-- A direct write of a reference keeps the enclave guarded, unless it makes a part the storage of
another container. -/
theorem Within.guarded_writeRef {heap : Heap} {parts still : List Handle}
    (within : enclave.Within parts still) {handle : Handle} {offset : Nat} {value : Option Handle}
    (ready : enclave.Ready heap ((Heap.writeRef handle offset value).run heap).2)
    (writable : Writable parts still handle)
    (unplanted : ¬ heap.Plants parts handle offset value) :
    enclave.Guarded ((Heap.writeRef handle offset value).run heap).2 := by
  have tame := tame_writeRef handle offset value
  have live := ready.isLive_root tame
  have nextSound := tame.sound ready.sound ready.bounded
  have writing := ready.sound.writing_ref handle offset value
  generalize (Heap.writeRef handle offset value).run heap = result at writing live nextSound
  cases writing with
  | refused _ => exact ready.guarded
  | @written view next seen _ rewrites =>
      have sane : (view.setRef offset value).Sane :=
        (ready.guarded.sane handle view seen).congr rfl rfl
      have changes : enclave.Changes heap next enclave.Harmless := by
        apply changes_of_rewrites rewrites seen (within.outside writable) rfl sane
        intro target refers
        change Function.update view.ref offset value storageOffset = some target at refers
        by_cases storage : storageOffset = offset
        · subst storage
          rw [Function.update_self] at refers
          subst refers
          have harmless := within.harmless ready.guarded seen unplanted
          exact Or.inl harmless
        · rw [Function.update_of_ne storage] at refers
          exact Or.inr refers
      exact ready.guarded.of_changes changes nextSound live

end Enclave

namespace Heap

variable {heap : Heap} {parts still : List Handle} {α : Type} {operation : HeapM α}

/-- What goes on elsewhere is tame and keeps an enclave guarded as long as its roots last. -/
theorem Elsewhere.keeps (elsewhere : heap.Elsewhere parts still operation) {enclave : Enclave}
    (within : enclave.Within parts still) (guarded : enclave.Guarded heap) :
    Tame operation ∧ (enclave.Ready heap (operation.run heap).2 →
      enclave.Guarded (operation.run heap).2) := by
  have always (spares : enclave.Spares [] operation) := spares.keeps (Enclave.knows_nil heap)
  have array {handle : Handle} (foreign : heap.Foreign parts .array handle) :=
    within.clear_array guarded foreign
  have table {handle : Handle} (foreign : heap.Foreign parts .hashtable handle) :=
    within.clear_table guarded foreign
  have told {id : ClassId} {handle : Handle} : ∀ middle,
      enclave.Knows middle [.clear id handle] → enclave.Clear middle id handle :=
    fun _ knows => knows _ List.mem_cons_self
  cases elsewhere with
  | ask question => exact always (Enclave.Gives.asking question)
  | register name size align trace byteTail =>
      exact always (Enclave.spares_register name size align trace byteTail)
  | allocate id extra => exact always (Enclave.gives_allocate id extra).forget
  | allocateBytes id bytes => exact always (Enclave.gives_allocateBytes id bytes).forget
  | allocInt value => exact always (Enclave.spares_allocInt value)
  | allocFloat bits => exact always (Enclave.spares_allocFloat bits)
  | allocBool value => exact always (Enclave.spares_allocBool value)
  | allocChar value => exact always (Enclave.spares_allocChar value)
  | allocString bytes => exact always (Enclave.gives_allocateBytes .string bytes).forget
  | allocVector length => exact always (Enclave.gives_allocate .vector length).forget
  | cons car cdr => exact always (Enclave.spares_cons car cdr)
  | setCar value writable =>
      exact always (Enclave.spares_writePair (within.outside writable) (by decide))
  | setCdr value writable =>
      exact always (Enclave.spares_writePair (within.outside writable) (by decide))
  | writeRef writable unplanted =>
      exact ⟨tame_writeRef _ _ _, fun ready => within.guarded_writeRef ready writable unplanted⟩
  | writeWord offset value writable =>
      exact always (Enclave.spares_writeWord fun _ _ => within.outside writable)
  | runSet index value writable =>
      exact always (Enclave.spares_runSet fun _ _ => (within.outside writable).not_has .vector)
  | retain handle => exact always (Enclave.spares_retain handle)
  | release handle => exact always (Enclave.spares_release handle)
  | registerRoot source handle => exact always (Enclave.spares_registerRoot source handle)
  | unregisterRoot source handle => exact always (Enclave.spares_unregisterRoot source handle)
  | unregisterSource source => exact always (Enclave.spares_unregisterSource source)
  | addScanner report => exact always (Enclave.spares_addScanner report)
  | setReport id report => exact always (Enclave.spares_setReport id report)
  | removeScanner id => exact always (Enclave.spares_removeScanner id)
  | intern bytes => exact always (Enclave.spares_intern bytes)
  | qualify scope name => exact always (Enclave.spares_qualify scope name)
  | qualifyPath segments => exact always (Enclave.spares_qualifyPath segments)
  | collect => exact always Enclave.spares_collect
  | newArray => exact always (Enclave.gives_withCapacity 0).forget
  | arrayWithCapacity capacity => exact always (Enclave.gives_withCapacity capacity).forget
  | filledArray length => exact always (Enclave.gives_filled length).forget
  | arraySet index value foreign => exact (Enclave.spares_set told).keeps (array foreign)
  | arrayPush value foreign => exact (Enclave.spares_push told).keeps (array foreign)
  | arrayPop foreign => exact (Enclave.spares_pop told).keeps (array foreign)
  | arrayClear foreign => exact (Enclave.spares_clear told).keeps (array foreign)
  | newTable => exact always Enclave.spares_newTable
  | tableWithCapacity capacity => exact always (Enclave.spares_tableWithCapacity capacity)
  | tableInsert key value hash foreign => exact (Enclave.spares_insert told).keeps (table foreign)
  | tableRemove key hash foreign => exact (Enclave.spares_remove told).keeps (table foreign)

end Heap

end CompactingHeap
