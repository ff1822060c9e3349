import CompactingHeap.Proofs.Operations

/-!
# Counts

A heap counts its collections, the objects and bytes that it allocates, copies and reclaims, its
growing containers, and the slabs that it acquires and releases.  A ledger is a relation between
heaps that allocations, collections and growing tables keep.  Every program keeps a ledger,
whatever heap it runs on and whether it succeeds or fails, if it lets no array grow or the ledger
allows for that.  One ledger says that no count is ever taken back.  So a count that fits in a word
at the end has fitted all along.
-/

namespace CompactingHeap

open Heap

/-! ## Slabs -/

namespace SlabAllocator

/-- The second allocator has acquired and released at least as many slabs as the first one. -/
structure Upto (allocator next : SlabAllocator) : Prop where
  acquired : allocator.acquired ≤ next.acquired
  released : allocator.released ≤ next.released

theorem Upto.refl (allocator : SlabAllocator) : allocator.Upto allocator :=
  ⟨Nat.le_refl _, Nat.le_refl _⟩

theorem Upto.trans {allocator middle next : SlabAllocator} (first : allocator.Upto middle)
    (second : middle.Upto next) : allocator.Upto next :=
  ⟨Nat.le_trans first.acquired second.acquired, Nat.le_trans first.released second.released⟩

theorem upto_mapSlab (allocator : SlabAllocator) (size : Nat) :
    allocator.Upto (allocator.mapSlab size).2 := by
  unfold mapSlab
  dsimp only
  split
  · exact ⟨Nat.le_refl _, Nat.le_refl _⟩
  · split
    · exact ⟨Nat.le_refl _, Nat.le_refl _⟩
    · exact ⟨Nat.le_succ _, Nat.le_refl _⟩

theorem upto_acquire (allocator : SlabAllocator) (minBytes : Nat) :
    allocator.Upto (allocator.acquire minBytes).2 := by
  unfold acquire
  dsimp only
  split
  · split
    · exact ⟨Nat.le_succ _, Nat.le_refl _⟩
    · exact allocator.upto_mapSlab _
  · exact allocator.upto_mapSlab _

theorem upto_release (allocator : SlabAllocator) (slab : Slab) :
    allocator.Upto (allocator.release slab) := by
  unfold release
  dsimp only
  split
  · exact ⟨Nat.le_refl _, Nat.le_succ _⟩
  · exact ⟨Nat.le_refl _, Nat.le_succ _⟩

theorem upto_releaseAll (allocator : SlabAllocator) (slabs : List Slab) :
    allocator.Upto (allocator.releaseAll slabs) := by
  induction slabs generalizing allocator with
  | nil => exact Upto.refl allocator
  | cons slab rest ih => exact (allocator.upto_release slab).trans (ih (allocator.release slab))

end SlabAllocator

theorem Space.upto_extend (space : Space) (allocator : SlabAllocator) (layout : Layout) :
    allocator.Upto (space.extend allocator layout).2 := by
  rw [space.extend_snd]
  exact allocator.upto_acquire layout.size

namespace Relocation

theorem upto_move (relocation : Relocation) (address : Address) :
    relocation.allocator.Upto (relocation.move address).2.allocator := by
  unfold move
  split
  · exact SlabAllocator.Upto.refl _
  · next object _ =>
    have reserves : relocation.allocator.Upto (relocation.reserve object.layout).2.allocator := by
      unfold reserve
      split
      · exact SlabAllocator.Upto.refl _
      · have issues := relocation.target.upto_extend relocation.allocator object.layout
        split
        · next ran =>
          rw [ran] at issues
          exact issues
        · next ran =>
          rw [ran] at issues
          exact issues
    split
    · next ran =>
      rw [ran] at reserves
      exact reserves
    · next ran =>
      rw [ran] at reserves
      exact reserves

theorem upto_of_moveAll {relocation last : Relocation} {live : List Address}
    {result : Except HeapError Unit} (ran : relocation.moveAll live = (result, last)) :
    relocation.allocator.Upto last.allocator := by
  induction live generalizing relocation with
  | nil =>
      cases ran
      exact SlabAllocator.Upto.refl _
  | cons address rest ih =>
      have moves := relocation.upto_move address
      unfold moveAll at ran
      split at ran
      · next middle moved =>
        rw [moved] at moves
        exact moves.trans (ih ran)
      · next middle moved =>
        rw [moved] at moves
        cases ran
        exact moves

end Relocation

/-! ## Heaps -/

/-- The second counters have counted at least as far as the first ones.  Live bytes are no count. -/
structure Counters.Upto (counters next : Counters) : Prop where
  collections : counters.collections ≤ next.collections
  objectsAllocated : counters.objectsAllocated ≤ next.objectsAllocated
  bytesAllocated : counters.bytesAllocated ≤ next.bytesAllocated
  bytesCopied : counters.bytesCopied ≤ next.bytesCopied
  objectsReclaimed : counters.objectsReclaimed ≤ next.objectsReclaimed
  arrayReallocations : counters.arrayReallocations ≤ next.arrayReallocations
  tableResizes : counters.tableResizes ≤ next.tableResizes

theorem Counters.Upto.refl (counters : Counters) : counters.Upto counters := by
  constructor <;> exact Nat.le_refl _

theorem Counters.Upto.trans {counters middle next : Counters} (first : counters.Upto middle)
    (second : middle.Upto next) : counters.Upto next where
  collections := Nat.le_trans first.collections second.collections
  objectsAllocated := Nat.le_trans first.objectsAllocated second.objectsAllocated
  bytesAllocated := Nat.le_trans first.bytesAllocated second.bytesAllocated
  bytesCopied := Nat.le_trans first.bytesCopied second.bytesCopied
  objectsReclaimed := Nat.le_trans first.objectsReclaimed second.objectsReclaimed
  arrayReallocations := Nat.le_trans first.arrayReallocations second.arrayReallocations
  tableResizes := Nat.le_trans first.tableResizes second.tableResizes

namespace Heap

/-- The second heap has counted at least as far as the first one. -/
structure Upto (heap next : Heap) : Prop where
  counters : heap.counters.Upto next.counters
  allocator : heap.allocator.Upto next.allocator

theorem Upto.refl (heap : Heap) : heap.Upto heap :=
  ⟨Counters.Upto.refl _, SlabAllocator.Upto.refl _⟩

theorem Upto.trans {heap middle next : Heap} (first : heap.Upto middle)
    (second : middle.Upto next) :
    heap.Upto next :=
  ⟨first.counters.trans second.counters, first.allocator.trans second.allocator⟩

/-- What touches neither counters nor allocator takes back no count. -/
theorem Upto.of_eq {heap next : Heap} (counters : next.counters = heap.counters)
    (allocator : next.allocator = heap.allocator) : heap.Upto next := by
  refine ⟨?_, ?_⟩
  · rw [counters]
    exact Counters.Upto.refl _
  · rw [allocator]
    exact SlabAllocator.Upto.refl _

/-- A collection counts itself, what it copies and what it reclaims, or nothing if it is taken
back. -/
theorem upto_collectNow (heap : Heap) : heap.Upto heap.collectNow.2 := by
  unfold collectNow
  dsimp only
  split
  · next error relocation ran =>
    exact ⟨Counters.Upto.refl _,
      (Relocation.upto_of_moveAll ran).trans (relocation.allocator.upto_releaseAll _)⟩
  · next relocation ran =>
    split
    · next collected finishes =>
      obtain ⟨fixed, updated, swept, fixes, sweeps, rfl⟩ := finishCollection_eq_ok_iff.mp finishes
      refine ⟨?_, (Relocation.upto_of_moveAll ran).trans (relocation.allocator.upto_releaseAll _)⟩
      exact
        { collections := Nat.le_succ _
          objectsAllocated := Nat.le_refl _
          bytesAllocated := Nat.le_refl _
          bytesCopied := Nat.le_add_right _ _
          objectsReclaimed := Nat.le_add_right _ _
          arrayReallocations := Nat.le_refl _
          tableResizes := Nat.le_refl _ }
    · exact Upto.of_eq rfl rfl

end Heap

/-! ## Ledgers -/

/-- A relation between a heap and a later one that is kept where nothing is counted, where slabs are
issued, by collections, and by what allocations and growing tables count. -/
structure Ledger where
  relation : Heap → Heap → Prop
  refl (heap : Heap) : relation heap heap
  trans {heap middle next : Heap} : relation heap middle → relation middle next → relation heap next
  issued {heap next : Heap} : next.counters = heap.counters →
    heap.allocator.Upto next.allocator → relation heap next
  collected (heap : Heap) : relation heap heap.collectNow.2
  allocated {heap next : Heap} (bytes : Nat) :
    next.counters = { heap.counters with
      objectsAllocated := heap.counters.objectsAllocated + 1
      bytesAllocated := heap.counters.bytesAllocated + bytes } →
    next.allocator = heap.allocator → relation heap next
  resized {heap next : Heap} :
    next.counters = { heap.counters with tableResizes := heap.counters.tableResizes + 1 } →
    next.allocator = heap.allocator → relation heap next

/-- Every run of the program keeps the ledger. -/
def Ledger.Keeps (ledger : Ledger) {α : Type} (program : HeapM α) : Prop :=
  ∀ heap : Heap, ledger.relation heap (program.run heap).2

/-- A growing array keeps the ledger. -/
def Ledger.AllowsGrowth (ledger : Ledger) : Prop :=
  ∀ heap : Heap, ledger.relation heap { heap with
    counters := { heap.counters with
      arrayReallocations := heap.counters.arrayReallocations + 1 } }

section

variable {ledger : Ledger}

/-- What touches neither counters nor allocator keeps a ledger. -/
theorem Ledger.of_eq (ledger : Ledger) {heap next : Heap} (counters : next.counters = heap.counters)
    (allocator : next.allocator = heap.allocator) : ledger.relation heap next := by
  apply ledger.issued counters
  rw [allocator]
  exact SlabAllocator.Upto.refl _

namespace Ledger.Keeps

variable {α β : Type}

/-- A program that leaves the heap alone keeps a ledger. -/
theorem of_unchanged {program : HeapM α} (unchanged : ∀ heap : Heap, (program.run heap).2 = heap) :
    ledger.Keeps program := by
  intro heap
  rw [unchanged]
  exact ledger.refl heap

protected theorem pure (value : α) : ledger.Keeps (pure value : HeapM α) :=
  of_unchanged fun _ => rfl

protected theorem throw (error : HeapError) : ledger.Keeps (throw error : HeapM α) :=
  of_unchanged fun _ => rfl

protected theorem get : ledger.Keeps (get : HeapM Heap) :=
  of_unchanged fun _ => rfl

protected theorem ask (question : Heap → Except HeapError α) : ledger.Keeps (HeapM.ask question) :=
  of_unchanged fun heap => by rw [HeapM.run_ask]

protected theorem modify {change : Heap → Heap}
    (related : ∀ heap : Heap, ledger.relation heap (change heap)) :
    ledger.Keeps (modify change : HeapM PUnit) := by
  intro heap
  rw [HeapM.run_modify]
  exact related heap

protected theorem bind {first : HeapM α} {next : α → HeapM β} (keeps : ledger.Keeps first)
    (rest : ∀ value, ledger.Keeps (next value)) : ledger.Keeps (first >>= next) := by
  intro heap
  have before := keeps heap
  rw [HeapM.run_bind]
  rcases ran : first.run heap with ⟨error | value, middle⟩
  · rw [ran] at before
    exact before
  · rw [ran] at before
    exact ledger.trans before (rest value middle)

protected theorem attempt {program : HeapM α} (keeps : ledger.Keeps program) :
    ledger.Keeps (HeapM.attempt program) := by
  intro heap
  rw [HeapM.run_attempt]
  exact keeps heap

protected theorem ite {condition : Prop} [Decidable condition] {first second : HeapM α}
    (whenTrue : ledger.Keeps first) (whenFalse : ledger.Keeps second) :
    ledger.Keeps (if condition then first else second) := by
  split
  · exact whenTrue
  · exact whenFalse

end Ledger.Keeps

namespace Heap

theorem keeps_collect : ledger.Keeps collect :=
  ledger.collected

/-- A change of an object touches no count. -/
theorem keeps_modifyObject (handle : Handle) (f : HeapObject → HeapObject) :
    ledger.Keeps (modify fun heap : Heap => heap.modifyObject handle f) :=
  Ledger.Keeps.modify fun heap => by
    unfold Heap.modifyObject
    split
    · exact ledger.of_eq rfl rfl
    · exact ledger.refl heap

theorem keeps_onHandles {α : Type}
    (operation : HandleTable Address → Except HeapError α × HandleTable Address) :
    ledger.Keeps (onHandles operation) := by
  intro heap
  rw [run_onHandles]
  exact ledger.of_eq rfl rfl

/-! ### Classes, fields, holds and roots -/

theorem keeps_register (name : String) (size align : Nat) (trace : List TraceEntry)
    (byteTail : Bool) : ledger.Keeps (register name size align trace byteTail) := by
  intro heap
  unfold register
  rw [HeapM.run_bind, HeapM.run_get]
  dsimp only
  split
  · exact ledger.of_eq rfl rfl
  · exact ledger.refl heap

theorem keeps_writeRef (handle : Handle) (offset : Nat) (value : Option Handle) :
    ledger.Keeps (writeRef handle offset value) := by
  unfold writeRef
  apply (Ledger.Keeps.ask _).bind
  intro _
  apply (Ledger.Keeps.ask _).bind
  intro target
  exact keeps_modifyObject handle _

theorem keeps_writeWord (handle : Handle) (offset : Nat) (value : UInt64) :
    ledger.Keeps (writeWord handle offset value) := by
  unfold writeWord
  exact (Ledger.Keeps.ask _).bind fun _ => keeps_modifyObject handle _

theorem keeps_runSet (handle : Handle) (index : Nat) (value : Option Handle) :
    ledger.Keeps (runSet handle index value) := by
  unfold runSet
  apply (Ledger.Keeps.ask _).bind
  intro element
  apply (Ledger.Keeps.ask _).bind
  intro target
  exact keeps_modifyObject handle _

theorem keeps_copyRun (source target : Handle) (count : Nat) :
    ledger.Keeps (copyRun source target count) := by
  unfold copyRun
  apply (Ledger.Keeps.ask _).bind
  intro sourceRun
  apply (Ledger.Keeps.ask _).bind
  intro targetRun
  apply Ledger.Keeps.ite
  · exact Ledger.Keeps.throw _
  · exact keeps_modifyObject target _

theorem keeps_writePair (cell : Handle) (offset : Nat) (value : Option Handle) :
    ledger.Keeps (writePair cell offset value) := by
  unfold writePair
  exact (Ledger.Keeps.ask _).bind fun _ => keeps_writeRef cell offset value

theorem keeps_retain (handle : Handle) : ledger.Keeps (retain handle) := by
  unfold retain
  apply Ledger.Keeps.get.bind
  intro heap
  apply Ledger.Keeps.ite
  · exact Ledger.Keeps.pure ()
  · exact keeps_onHandles _

theorem keeps_release (handle : Handle) : ledger.Keeps (release handle) := by
  unfold release
  apply Ledger.Keeps.get.bind
  intro heap
  apply Ledger.Keeps.ite
  · exact Ledger.Keeps.pure ()
  · exact keeps_onHandles _

theorem keeps_releaseAll (handles : List Handle) : ledger.Keeps (releaseAll handles) := by
  induction handles with
  | nil => exact Ledger.Keeps.pure ()
  | cons handle rest ih => exact (keeps_release handle).bind fun _ => ih

theorem keeps_retainAfter (taken handles : List Handle) :
    ledger.Keeps (retainAfter taken handles) := by
  induction handles generalizing taken with
  | nil => exact Ledger.Keeps.pure ()
  | cons handle rest ih =>
      unfold retainAfter
      apply (keeps_retain handle).attempt.bind
      intro outcome
      cases outcome with
      | ok _ => exact ih (taken ++ [handle])
      | error error => exact (keeps_releaseAll taken).bind fun _ => Ledger.Keeps.throw error

theorem keeps_withHeld {α : Type} (handles : List Handle) {body : HeapM α}
    (keeps : ledger.Keeps body) : ledger.Keeps (withHeld handles body) := by
  unfold withHeld
  apply (keeps_retainAfter [] handles).bind
  intro _
  apply keeps.attempt.bind
  intro outcome
  cases outcome with
  | ok value => exact (keeps_releaseAll handles).bind fun _ => Ledger.Keeps.pure value
  | error error => exact (keeps_releaseAll handles).bind fun _ => Ledger.Keeps.throw error

theorem keeps_registerRoot (source : RootSource) (handle : Handle) :
    ledger.Keeps (registerRoot source handle) := by
  unfold registerRoot
  exact (Ledger.Keeps.ask _).bind fun _ => Ledger.Keeps.modify fun _ => ledger.of_eq rfl rfl

theorem keeps_unregisterRoot (source : RootSource) (handle : Handle) :
    ledger.Keeps (unregisterRoot source handle) := by
  intro heap
  unfold unregisterRoot
  rw [HeapM.run_bind, HeapM.run_get]
  dsimp only
  split
  · exact ledger.of_eq rfl rfl
  · exact ledger.refl heap

theorem keeps_removeScanner (id : ScannerId) : ledger.Keeps (removeScanner id) := by
  intro heap
  unfold removeScanner
  rw [HeapM.run_bind, HeapM.run_get]
  dsimp only
  split
  · exact ledger.of_eq rfl rfl
  · exact ledger.refl heap

/-! ### Allocations -/

theorem keeps_bump? (layout : Layout) : ledger.Keeps (bump? layout) := by
  intro heap
  rw [run_bump?]
  split
  · exact ledger.of_eq rfl rfl
  · exact ledger.refl heap

theorem keeps_grow (layout : Layout) : ledger.Keeps (grow layout) := by
  intro heap
  have issues := heap.space.upto_extend heap.allocator layout
  rw [run_grow]
  split
  · next ran =>
    rw [ran] at issues
    exact ledger.issued rfl issues
  · next ran =>
    rw [ran] at issues
    exact ledger.issued rfl issues

theorem keeps_collectForRoom : ledger.Keeps collectForRoom := by
  unfold collectForRoom
  apply keeps_collect.attempt.bind
  intro outcome
  split
  · exact Ledger.Keeps.pure true
  · exact Ledger.Keeps.pure false
  · exact Ledger.Keeps.throw _

theorem keeps_reserve (layout : Layout) : ledger.Keeps (reserve layout) := by
  unfold reserve
  apply (keeps_bump? layout).bind
  intro bumped
  cases bumped with
  | some place => exact Ledger.Keeps.pure place
  | none =>
      apply Ledger.Keeps.get.bind
      intro heap
      apply Ledger.Keeps.ite
      · apply keeps_collectForRoom.bind
        intro worth
        apply Ledger.Keeps.ite
        · apply (keeps_bump? layout).bind
          intro again
          cases again with
          | some place => exact Ledger.Keeps.pure place
          | none => exact keeps_grow layout
        · exact keeps_grow layout
      · exact keeps_grow layout

theorem keeps_settle (place : Place) (object : HeapObject) :
    ledger.Keeps (settle place object) := by
  unfold settle
  apply Ledger.Keeps.get.bind
  intro heap
  apply (keeps_onHandles _).bind
  intro handle
  apply Ledger.Keeps.bind
  · exact Ledger.Keeps.modify fun heap => ledger.allocated _ rfl rfl
  · exact fun _ => Ledger.Keeps.pure handle

theorem keeps_allocate (id : ClassId) (extra : Nat) : ledger.Keeps (allocate id extra) := by
  unfold allocate
  apply (Ledger.Keeps.ask _).bind
  intro descriptor
  apply Ledger.Keeps.ite
  · exact Ledger.Keeps.get.bind fun _ => Ledger.Keeps.throw _
  · split
    · exact Ledger.Keeps.get.bind fun _ => Ledger.Keeps.throw _
    · exact (keeps_reserve _).bind fun place => keeps_settle place _

theorem keeps_allocateBytes (id : ClassId) (bytes : Bytes) :
    ledger.Keeps (allocateBytes id bytes) := by
  unfold allocateBytes
  apply (Ledger.Keeps.ask _).bind
  intro descriptor
  apply Ledger.Keeps.ite
  · apply (keeps_allocate id bytes.length).bind
    intro handle
    exact (keeps_modifyObject handle _).bind fun _ => Ledger.Keeps.pure handle
  · exact Ledger.Keeps.throw _

theorem keeps_allocScalar (id : ClassId) (word : UInt64) : ledger.Keeps (allocScalar id word) := by
  unfold allocScalar
  apply (keeps_allocate id 0).bind
  intro handle
  exact (keeps_modifyObject handle _).bind fun _ => Ledger.Keeps.pure handle

theorem keeps_cons (car cdr : Option Handle) : ledger.Keeps (cons car cdr) := by
  unfold cons
  apply (keeps_withHeld _ (keeps_allocate .cons 0)).bind
  intro cell
  apply (keeps_writeRef cell 0 car).bind
  intro _
  exact (keeps_writeRef cell wordBytes cdr).bind fun _ => Ledger.Keeps.pure cell

theorem keeps_intern (bytes : Bytes) : ledger.Keeps (intern bytes) := by
  unfold intern
  apply Ledger.Keeps.get.bind
  intro heap
  split
  · exact Ledger.Keeps.pure _
  · apply (keeps_allocateBytes .string bytes).bind
    intro handle
    apply Ledger.Keeps.bind
    · exact Ledger.Keeps.modify fun _ => ledger.of_eq rfl rfl
    · exact fun _ => (keeps_onHandles _).bind fun _ => Ledger.Keeps.pure handle

theorem keeps_qualify (scope name : Handle) : ledger.Keeps (qualify scope name) := by
  unfold qualify
  apply Ledger.Keeps.get.bind
  intro heap
  split
  · exact Ledger.Keeps.pure _
  · apply (Ledger.Keeps.ask _).bind
    intro scopeBytes
    apply (Ledger.Keeps.ask _).bind
    intro nameBytes
    apply (keeps_intern _).bind
    intro qualified
    apply Ledger.Keeps.bind
    · exact Ledger.Keeps.modify fun _ => ledger.of_eq rfl rfl
    · exact fun _ => Ledger.Keeps.pure qualified

theorem keeps_qualifyFrom (scope : Handle) (segments : List Bytes) :
    ledger.Keeps (qualifyFrom scope segments) := by
  induction segments generalizing scope with
  | nil => exact Ledger.Keeps.pure scope
  | cons segment rest ih =>
      unfold qualifyFrom
      apply (keeps_intern segment).bind
      intro name
      exact (keeps_qualify scope name).bind ih

theorem keeps_qualifyPath (segments : List Bytes) : ledger.Keeps (qualifyPath segments) := by
  cases segments with
  | nil => exact Ledger.Keeps.throw _
  | cons first rest => exact (keeps_intern first).bind fun scope => keeps_qualifyFrom scope rest

end Heap

/-! ### Arrays -/

namespace RefArray

theorem keeps_adopt (array : RefArray) (backing : Handle) : ledger.Keeps (array.adopt backing) :=
  (keeps_writeRef array.handle backingOffset (some backing)).bind fun _ => keeps_release backing

theorem keeps_orRelease {γ : Type} (handle : Handle) {rest : HeapM γ} (keeps : ledger.Keeps rest) :
    ledger.Keeps (orRelease handle rest) := by
  unfold orRelease
  apply keeps.attempt.bind
  intro outcome
  cases outcome with
  | ok value => exact Ledger.Keeps.pure value
  | error error => exact (keeps_release handle).bind fun _ => Ledger.Keeps.throw error

theorem keeps_construct (capacity : Nat) (handle : Handle) :
    ledger.Keeps (construct capacity handle) := by
  apply Ledger.Keeps.ite
  · exact Ledger.Keeps.pure _
  · apply (keeps_orRelease handle
      (keeps_withHeld [handle] (keeps_allocate .vector capacity))).bind
    intro backing
    apply (keeps_writeWord handle capacityOffset capacity.toUInt64).bind
    intro _
    exact (keeps_adopt ⟨handle⟩ backing).bind fun _ => Ledger.Keeps.pure _

theorem keeps_withCapacity (capacity : Nat) : ledger.Keeps (withCapacity capacity) :=
  (keeps_allocate .array 0).bind (keeps_construct capacity)

theorem keeps_filled (length : Nat) : ledger.Keeps (filled length) := by
  unfold filled
  apply (keeps_withCapacity length).bind
  intro array
  exact (keeps_writeWord array.handle lengthOffset _).bind fun _ => Ledger.Keeps.pure array

theorem keeps_set (array : RefArray) (index : Nat) (value : Option Handle) :
    ledger.Keeps (array.set index value) :=
  (Ledger.Keeps.ask _).bind fun backing => keeps_runSet backing index value

theorem keeps_install (grows : ledger.AllowsGrowth) (array : RefArray) (capacity : UInt64)
    (grown : Handle) : ledger.Keeps (array.install capacity grown) := by
  apply (keeps_writeRef array.handle backingOffset (some grown)).bind
  intro _
  apply (keeps_writeWord array.handle capacityOffset capacity).bind
  intro _
  apply (keeps_release grown).bind
  intro _
  exact Ledger.Keeps.modify grows

theorem keeps_grow (grows : ledger.AllowsGrowth) (array : RefArray) (length : UInt64) :
    ledger.Keeps (array.grow length) := by
  rw [grow_eq]
  apply (Ledger.Keeps.ask _).bind
  intro oldCapacity
  apply (keeps_allocate .vector _).bind
  intro grown
  apply Ledger.Keeps.ite
  · apply (Ledger.Keeps.ask _).bind
    intro old
    apply (keeps_copyRun old grown length.toNat).bind
    intro _
    exact keeps_install grows array _ grown
  · exact keeps_install grows array _ grown

theorem keeps_append (array : RefArray) (length : UInt64) (value : Option Handle) :
    ledger.Keeps (array.append length value) := by
  apply (Ledger.Keeps.ask _).bind
  intro backing
  apply (keeps_runSet backing length.toNat value).bind
  intro _
  exact keeps_writeWord array.handle lengthOffset (length + 1)

theorem keeps_push (grows : ledger.AllowsGrowth) (array : RefArray) (value : Option Handle) :
    ledger.Keeps (array.push value) := by
  rw [push_eq]
  apply (Ledger.Keeps.ask _).bind
  intro length
  apply (Ledger.Keeps.ask _).bind
  intro capacity
  apply Ledger.Keeps.ite
  · exact (keeps_withHeld _ (keeps_grow grows array length)).bind fun _ =>
      array.keeps_append length value
  · exact array.keeps_append length value

theorem keeps_pop (array : RefArray) : ledger.Keeps array.pop := by
  unfold pop
  apply (Ledger.Keeps.ask _).bind
  intro length
  apply Ledger.Keeps.ite
  · exact Ledger.Keeps.throw _
  · apply (Ledger.Keeps.ask _).bind
    intro backing
    apply (Ledger.Keeps.ask _).bind
    intro value
    apply (keeps_runSet backing _ none).bind
    intro _
    exact (keeps_writeWord array.handle lengthOffset _).bind fun _ => Ledger.Keeps.pure value

theorem keeps_eraseFrom (backing : Handle) (index count : Nat) :
    ledger.Keeps (eraseFrom backing index count) := by
  induction count generalizing index with
  | zero => exact Ledger.Keeps.pure ()
  | succ count ih => exact (keeps_runSet backing index none).bind fun _ => ih (index + 1)

theorem keeps_clear (array : RefArray) : ledger.Keeps array.clear := by
  unfold clear
  apply (Ledger.Keeps.ask _).bind
  intro length
  apply Ledger.Keeps.ite
  · apply (Ledger.Keeps.ask _).bind
    intro backing
    apply (keeps_eraseFrom backing 0 length).bind
    intro _
    exact keeps_writeWord array.handle lengthOffset 0
  · exact keeps_writeWord array.handle lengthOffset 0

end RefArray

/-! ### Tables -/

namespace RefTable

theorem keeps_construct (capacity : Nat) (handle : Handle) :
    ledger.Keeps (construct capacity handle) := by
  apply (RefArray.keeps_orRelease handle
    (keeps_withHeld [handle] (RefArray.keeps_filled _))).bind
  intro buckets
  apply (keeps_writeWord handle capacityOffset _).bind
  intro _
  apply (keeps_writeRef handle bucketsOffset (some buckets.handle)).bind
  intro _
  exact (keeps_release buckets.handle).bind fun _ => Ledger.Keeps.pure _

theorem keeps_withCapacity (capacity : Nat) : ledger.Keeps (withCapacity capacity) := by
  rw [withCapacity_eq]
  apply Ledger.Keeps.ite
  · exact Ledger.Keeps.get.bind fun _ => Ledger.Keeps.throw _
  · exact (keeps_allocate .hashtable 0).bind (keeps_construct _)

theorem keeps_fillBucket (buckets : RefArray) (index : UInt64) (key value : Option Handle) :
    ledger.Keeps (fillBucket buckets index key value) :=
  (buckets.keeps_set (keyIndex index) key).bind fun _ =>
    buckets.keeps_set (valueIndex index) value

theorem keeps_reinsertFrom (table : RefTable) (old grown : RefArray) (capacity index : UInt64)
    (count : Nat) (hash : Key → UInt64) :
    ledger.Keeps (table.reinsertFrom old grown capacity index count hash) := by
  induction count generalizing index with
  | zero => exact Ledger.Keeps.pure ()
  | succ count ih =>
      unfold reinsertFrom
      apply (Ledger.Keeps.ask _).bind
      intro key
      cases key with
      | none => exact ih (index + 1)
      | some key =>
          apply (Ledger.Keeps.ask _).bind
          intro value
          apply (Ledger.Keeps.ask _).bind
          intro probed
          cases probed with
          | found _ => exact Ledger.Keeps.throw _
          | vacant slot =>
              exact (keeps_fillBucket grown slot (some key) value).bind fun _ => ih (index + 1)

theorem keeps_resize (table : RefTable) (capacity : UInt64) (hash : Key → UInt64) :
    ledger.Keeps (table.resize capacity hash) := by
  rw [resize_eq]
  apply (Ledger.Keeps.ask _).bind
  intro oldCapacity
  apply (RefArray.keeps_filled _).bind
  intro grown
  apply (Ledger.Keeps.ask _).bind
  intro old
  apply (table.keeps_reinsertFrom old grown capacity 0 oldCapacity.toNat hash).bind
  intro _
  apply (keeps_writeRef table.handle bucketsOffset (some grown.handle)).bind
  intro _
  apply (keeps_writeWord table.handle capacityOffset capacity).bind
  intro _
  apply (keeps_release grown.handle).bind
  intro _
  exact Ledger.Keeps.modify fun heap => ledger.resized rfl rfl

theorem keeps_makeRoom (table : RefTable) (count : UInt64) (key value : Handle)
    (hash : Key → UInt64) : ledger.Keeps (table.makeRoom count key value hash) := by
  unfold makeRoom
  apply (Ledger.Keeps.ask _).bind
  intro capacity
  apply Ledger.Keeps.get.bind
  intro heap
  apply Ledger.Keeps.ite
  · apply Ledger.Keeps.ite
    · exact Ledger.Keeps.throw _
    · exact keeps_withHeld _ (table.keeps_resize _ hash)
  · exact Ledger.Keeps.pure ()

theorem keeps_enter (table : RefTable) (count : UInt64) (key value : Handle)
    (hash : Key → UInt64) : ledger.Keeps (table.enter count key value hash) := by
  apply (Ledger.Keeps.ask _).bind
  intro buckets
  apply (Ledger.Keeps.ask _).bind
  intro capacity
  apply (Ledger.Keeps.ask _).bind
  intro probed
  cases probed with
  | found _ => exact Ledger.Keeps.throw _
  | vacant slot =>
      apply (keeps_fillBucket buckets slot (some key) (some value)).bind
      intro _
      exact (keeps_writeWord table.handle countOffset _).bind fun _ => Ledger.Keeps.pure none

theorem keeps_insert (table : RefTable) (key value : Handle) (hash : Key → UInt64) :
    ledger.Keeps (table.insert key value hash) := by
  apply (Ledger.Keeps.ask _).bind
  intro _
  apply (Ledger.Keeps.ask _).bind
  intro found
  split
  · next buckets index =>
    apply (Ledger.Keeps.ask _).bind
    intro previous
    exact (buckets.keeps_set (valueIndex index) (some value)).bind
      fun _ => Ledger.Keeps.pure previous
  · apply (Ledger.Keeps.ask _).bind
    intro count
    exact (table.keeps_makeRoom count key value hash).bind fun _ =>
      table.keeps_enter count key value hash

theorem keeps_shiftBack (buckets : RefArray) (mask hole next : UInt64) (steps : Nat)
    (hash : Key → UInt64) : ledger.Keeps (shiftBack buckets mask hole next steps hash) := by
  induction steps generalizing hole next with
  | zero => exact Ledger.Keeps.throw _
  | succ steps ih =>
      unfold shiftBack
      apply (Ledger.Keeps.ask _).bind
      intro moving
      cases moving with
      | none => exact Ledger.Keeps.pure hole
      | some moving =>
          apply (Ledger.Keeps.ask _).bind
          intro home
          apply Ledger.Keeps.ite
          · apply (Ledger.Keeps.ask _).bind
            intro value
            exact (keeps_fillBucket buckets hole (some moving) value).bind fun _ => ih next _
          · exact ih hole _

theorem keeps_remove (table : RefTable) (key : Handle) (hash : Key → UInt64) :
    ledger.Keeps (table.remove key hash) := by
  unfold remove
  apply (Ledger.Keeps.ask _).bind
  intro found
  split
  · exact Ledger.Keeps.pure none
  · next buckets index =>
    apply (Ledger.Keeps.ask _).bind
    intro value
    apply (Ledger.Keeps.ask _).bind
    intro capacity
    apply (keeps_shiftBack buckets _ index _ _ hash).bind
    intro hole
    apply (keeps_fillBucket buckets hole none none).bind
    intro _
    apply (Ledger.Keeps.ask _).bind
    intro count
    exact (keeps_writeWord table.handle countOffset _).bind fun _ => Ledger.Keeps.pure value

end RefTable

/-! ### Operations -/

/-- The operation is a push into the array. -/
inductive RefArray.IsPush (array : RefArray) : {α : Type} → HeapM α → Prop
  | push (value : Option Handle) : IsPush array (array.push value)

/-- Every operation keeps a ledger, if no array grows or the ledger allows for that. -/
theorem Operation.keeps {α : Type} {operation : HeapM α} (offered : Operation operation)
    (grows : (∃ array : RefArray, array.IsPush operation) → ledger.AllowsGrowth) :
    ledger.Keeps operation := by
  cases offered with
  | ask question => exact Ledger.Keeps.ask question
  | register name size align trace byteTail => exact keeps_register name size align trace byteTail
  | allocate id extra => exact keeps_allocate id extra
  | allocateBytes id bytes => exact keeps_allocateBytes id bytes
  | allocInt value => exact keeps_allocScalar .int _
  | allocFloat bits => exact keeps_allocScalar .float bits
  | allocBool value => exact keeps_allocScalar .bool _
  | allocChar value => exact keeps_allocScalar .char _
  | allocString bytes => exact keeps_allocateBytes .string bytes
  | allocVector length => exact keeps_allocate .vector length
  | cons car cdr => exact keeps_cons car cdr
  | setCar cell value => exact keeps_writePair cell 0 value
  | setCdr cell value => exact keeps_writePair cell wordBytes value
  | writeRef handle offset value => exact keeps_writeRef handle offset value
  | writeWord handle offset value => exact keeps_writeWord handle offset value
  | runSet handle index value => exact keeps_runSet handle index value
  | retain handle => exact keeps_retain handle
  | release handle => exact keeps_release handle
  | registerRoot source handle => exact keeps_registerRoot source handle
  | unregisterRoot source handle => exact keeps_unregisterRoot source handle
  | unregisterSource source => exact fun _ => ledger.of_eq rfl rfl
  | addScanner report => exact fun _ => ledger.of_eq rfl rfl
  | setReport id report => exact Ledger.Keeps.modify fun _ => ledger.of_eq rfl rfl
  | removeScanner id => exact keeps_removeScanner id
  | intern bytes => exact keeps_intern bytes
  | qualify scope name => exact keeps_qualify scope name
  | qualifyPath segments => exact keeps_qualifyPath segments
  | collect => exact keeps_collect
  | newArray => exact RefArray.keeps_withCapacity 0
  | arrayWithCapacity capacity => exact RefArray.keeps_withCapacity capacity
  | filledArray length => exact RefArray.keeps_filled length
  | arraySet array index value => exact array.keeps_set index value
  | arrayPush array value => exact RefArray.keeps_push (grows ⟨array, .push value⟩) array value
  | arrayPop array => exact array.keeps_pop
  | arrayClear array => exact array.keeps_clear
  | newTable => exact Ledger.Keeps.get.bind fun heap => RefTable.keeps_withCapacity _
  | tableWithCapacity capacity => exact RefTable.keeps_withCapacity capacity
  | tableInsert table key value hash => exact table.keeps_insert key value hash
  | tableRemove table key hash => exact table.keeps_remove key hash

end

/-! ## No count is taken back -/

/-- The ledger of all counts. -/
def Ledger.counts : Ledger where
  relation := Heap.Upto
  refl := Upto.refl
  trans := Upto.trans
  issued {heap next} counters allocator := by
    refine ⟨?_, allocator⟩
    rw [counters]
    exact Counters.Upto.refl _
  collected := upto_collectNow
  allocated {heap next} bytes counters allocator := by
    refine ⟨?_, ?_⟩
    · rw [counters]
      exact
        { Counters.Upto.refl heap.counters with
          objectsAllocated := Nat.le_succ _
          bytesAllocated := Nat.le_add_right _ _ }
    · rw [allocator]
      exact SlabAllocator.Upto.refl _
  resized {heap next} counters allocator := by
    refine ⟨?_, ?_⟩
    · rw [counters]
      exact { Counters.Upto.refl heap.counters with tableResizes := Nat.le_succ _ }
    · rw [allocator]
      exact SlabAllocator.Upto.refl _

end CompactingHeap
