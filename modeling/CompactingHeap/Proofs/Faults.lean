import CompactingHeap.Proofs.Classes
import CompactingHeap.Proofs.WellFormed
import CompactingHeap.RefTable.Basic

/-!
# Answers without faults

A fault is a broken rule: a class that no registry gave out, an address without an object, a slot
that is not what it is taken for, a probe without an end.  In a sound heap no read through a handle
meets one, whatever the handle: what a live handle names is there, and the classes that a read
mentions itself are those that every heap offers.
-/

namespace CompactingHeap

open Heap

/-- The answer is no fault. -/
def NoFault {α : Type} (answer : Except HeapError α) : Prop :=
  ∀ fault, answer ≠ .error (.fault fault)

namespace NoFault

variable {α β : Type}

protected theorem ok (value : α) : NoFault (.ok value : Except HeapError α) :=
  nofun

protected theorem error {error : HeapError} (other : ∀ fault, error ≠ .fault fault) :
    NoFault (.error error : Except HeapError α) :=
  fun fault same => other fault (Except.error.inj same)

/-- A failure that is no fault is none with another type of answers either. -/
protected theorem failed {error : HeapError} (sure : NoFault (.error error : Except HeapError α)) :
    NoFault (.error error : Except HeapError β) :=
  NoFault.error fun fault same => sure fault (congrArg Except.error same)

protected theorem ne {error : HeapError} (sure : NoFault (.error error : Except HeapError α)) :
    ∀ fault, error ≠ .fault fault :=
  fun fault same => sure fault (congrArg Except.error same)

protected theorem bind {first : Except HeapError α} {next : α → Except HeapError β}
    (before : NoFault first) (rest : ∀ value, NoFault (next value)) : NoFault (first >>= next) := by
  cases first with
  | error error => exact before.failed
  | ok value => exact rest value

protected theorem map {answer : Except HeapError α} (sure : NoFault answer) (f : α → β) :
    NoFault (answer.map f) := by
  cases answer with
  | error error => exact sure.failed
  | ok value => exact NoFault.ok (f value)

/-- A check that may fail, but not with a fault. -/
protected theorem check {condition : Prop} [Decidable condition] {value : α} {error : HeapError}
    (other : ∀ fault, error ≠ .fault fault) :
    NoFault (if condition then pure value else throw error : Except HeapError α) := by
  split
  · exact NoFault.ok value
  · exact NoFault.error other

end NoFault

/-! ## Handle tables and classes -/

namespace HandleTable

variable {α : Type}

theorem noFault_find (table : HandleTable α) (handle : Handle) : NoFault (table.find handle) := by
  intro fault found
  have stale := find_eq_error found
  cases stale

theorem noFault_resolve (table : HandleTable α) (handle : Handle) :
    NoFault (table.resolve handle) :=
  (table.noFault_find handle).map Prod.fst

theorem noFault_retain (table : HandleTable α) (handle : Handle) :
    NoFault (table.retain handle).1 := by
  have found := table.noFault_find handle
  unfold retain
  split
  · exact NoFault.ok ()
  · next failed =>
    rw [failed] at found
    exact found.failed

theorem noFault_release (table : HandleTable α) (handle : Handle) :
    NoFault (table.release handle).1 := by
  have found := table.noFault_find handle
  unfold release
  split
  · split
    · exact NoFault.error nofun
    · exact NoFault.ok ()
  · next failed =>
    rw [failed] at found
    exact found.failed

end HandleTable

theorem Registry.noFault_register (registry : Registry) (name : String) (size align : Nat)
    (trace : List TraceEntry) (byteTail : Bool) :
    NoFault (registry.register name size align trace byteTail) := by
  unfold register
  split
  · exact NoFault.error nofun
  · dsimp only
    unfold Descriptor.make
    split
    · exact NoFault.ok _
    · next failed =>
      split at failed
      · cases failed
      · cases failed
        exact NoFault.error nofun

/-! ## Reads -/

namespace Heap

section

variable {heap : Heap} (sound : heap.Sound)

include sound

/-- The address that a live handle names has an object. -/
theorem Sound.noFault_residentOf (handle : Handle) : NoFault (heap.residentOf handle) := by
  have resolves := heap.handles.noFault_resolve handle
  unfold residentOf
  cases resolved : heap.handles.resolve handle with
  | error error =>
      rw [resolved] at resolves
      exact resolves.failed
  | ok address =>
      obtain ⟨holds, named⟩ := HandleTable.find_of_resolve resolved
      obtain ⟨object, found, _⟩ := sound.object_of_find named
      obtain ⟨place, resident⟩ := Space.object?_eq_some_iff.mp found
      dsimp only
      rw [resident]
      exact NoFault.ok _

theorem Sound.noFault_objectOf (handle : Handle) : NoFault (heap.objectOf handle) :=
  (sound.noFault_residentOf handle).map _

theorem Sound.noFault_classOf (handle : Handle) : NoFault (heap.classOf handle) :=
  (sound.noFault_objectOf handle).map _

theorem Sound.noFault_expect (handle : Handle) {id : ClassId} {descriptor : Descriptor}
    (builtin : Registry.initial.classes[id.index]? = some descriptor) :
    NoFault (heap.expect handle id) := by
  unfold expect
  apply (sound.noFault_objectOf handle).bind
  intro object
  split
  · exact NoFault.ok object
  · rw [sound.get_builtin builtin]
    exact NoFault.error nofun

theorem Sound.noFault_withRefField (handle : Handle) (offset : Nat) :
    NoFault (heap.withRefField handle offset) :=
  (sound.noFault_objectOf handle).bind fun _ => NoFault.check nofun

theorem Sound.noFault_withDataWord (handle : Handle) (offset : Nat) :
    NoFault (heap.withDataWord handle offset) :=
  (sound.noFault_objectOf handle).bind fun _ => NoFault.check nofun

theorem Sound.noFault_readRef (handle : Handle) (offset : Nat) :
    NoFault (heap.readRef handle offset) :=
  (sound.noFault_withRefField handle offset).bind fun _ => NoFault.ok _

theorem Sound.noFault_readWord (handle : Handle) (offset : Nat) :
    NoFault (heap.readWord handle offset) :=
  (sound.noFault_withDataWord handle offset).bind fun _ => NoFault.ok _

theorem Sound.noFault_runOf (handle : Handle) : NoFault (heap.runOf handle) := by
  unfold runOf
  apply (sound.noFault_objectOf handle).bind
  intro object
  split
  · exact NoFault.ok _
  · exact NoFault.error nofun

theorem Sound.noFault_runElement (handle : Handle) (index : Nat) :
    NoFault (heap.runElement handle index) :=
  (sound.noFault_runOf handle).bind fun _ => NoFault.check nofun

theorem Sound.noFault_runGet (handle : Handle) (index : Nat) : NoFault (heap.runGet handle index) :=
  (sound.noFault_runElement handle index).bind fun _ => NoFault.ok _

theorem Sound.noFault_bytes (handle : Handle) : NoFault (heap.bytes handle) :=
  (sound.noFault_objectOf handle).bind fun _ => NoFault.check nofun

theorem Sound.noFault_string (handle : Handle) : NoFault (heap.string handle) :=
  (sound.noFault_expect handle rfl).map _

/-- The classes of scalars are among those that every heap offers. -/
theorem Sound.noFault_scalar (handle : Handle) {id : ClassId}
    (scalar : id ∈ [ClassId.int, ClassId.float, ClassId.bool, ClassId.char]) :
    NoFault (heap.scalar handle id) := by
  apply NoFault.map
  simp only [List.mem_cons, List.not_mem_nil, or_false] at scalar
  rcases scalar with rfl | rfl | rfl | rfl
  all_goals exact sound.noFault_expect handle rfl

theorem Sound.noFault_char (handle : Handle) : NoFault (heap.char handle) := by
  unfold char
  apply (sound.noFault_scalar handle (by simp)).bind
  intro word
  dsimp only
  split
  · exact NoFault.ok _
  · exact NoFault.error nofun

theorem Sound.noFault_readPair (cell : Handle) (offset : Nat) :
    NoFault (heap.readPair cell offset) :=
  (sound.noFault_expect cell rfl).bind fun _ => sound.noFault_readRef cell offset

theorem Sound.noFault_internedBytes (handle : Handle) : NoFault (heap.internedBytes handle) :=
  (sound.noFault_string handle).bind fun _ => NoFault.check nofun

omit sound in
theorem noFault_addressOf (value : Option Handle) : NoFault (heap.addressOf value) := by
  cases value with
  | none => exact NoFault.ok none
  | some handle => exact (heap.handles.noFault_resolve handle).map some

end

end Heap

/-! ## Reads of arrays and tables -/

section

variable {heap : Heap} (sound : heap.Sound)

include sound

namespace RefArray

theorem noFault_ofHandle (handle : Handle) : NoFault (ofHandle heap handle) :=
  (sound.noFault_expect handle rfl).bind fun _ => NoFault.ok _

theorem noFault_backing (array : RefArray) : NoFault (array.backing heap) := by
  unfold backing
  apply (sound.noFault_readRef array.handle backingOffset).bind
  intro storage
  cases storage with
  | none => exact NoFault.error nofun
  | some backing => exact NoFault.ok backing

theorem noFault_length (array : RefArray) : NoFault (array.length heap) :=
  (sound.noFault_readWord array.handle lengthOffset).map _

theorem noFault_backingAt (array : RefArray) (index : Nat) :
    NoFault (array.backingAt heap index) := by
  unfold backingAt
  apply (noFault_length sound array).bind
  intro length
  split
  · exact noFault_backing sound array
  · exact NoFault.error nofun

theorem noFault_get (array : RefArray) (index : Nat) : NoFault (array.get heap index) :=
  (noFault_backingAt sound array index).bind fun backing => sound.noFault_runGet backing index

theorem noFault_elementsFrom (backing : Handle) (index count : Nat) :
    NoFault (elementsFrom heap backing index count) := by
  induction count generalizing index with
  | zero => exact NoFault.ok []
  | succ count ih =>
      unfold elementsFrom
      apply (sound.noFault_runGet backing index).bind
      intro element
      exact (ih (index + 1)).bind fun _ => NoFault.ok _

theorem noFault_toList (array : RefArray) : NoFault (array.toList heap) := by
  unfold toList
  apply (noFault_length sound array).bind
  intro length
  split
  · exact NoFault.ok []
  · exact (noFault_backing sound array).bind fun backing =>
      noFault_elementsFrom sound backing 0 length

end RefArray

namespace RefTable

theorem noFault_ofHandle (handle : Handle) : NoFault (ofHandle heap handle) :=
  (sound.noFault_expect handle rfl).bind fun _ => NoFault.ok _

theorem noFault_buckets (table : RefTable) : NoFault (table.buckets heap) := by
  unfold buckets
  apply (sound.noFault_readRef table.handle bucketsOffset).bind
  intro storage
  cases storage with
  | none => exact NoFault.error nofun
  | some handle => exact RefArray.noFault_ofHandle sound handle

theorem noFault_entriesFrom (table : RefTable) (buckets : RefArray) (index : UInt64) (count : Nat) :
    NoFault (table.entriesFrom heap buckets index count) := by
  induction count generalizing index with
  | zero => exact NoFault.ok []
  | succ count ih =>
      unfold entriesFrom
      apply (RefArray.noFault_get sound buckets (keyIndex index)).bind
      intro key
      cases key with
      | none => exact ih (index + 1)
      | some key =>
          apply (RefArray.noFault_get sound buckets (valueIndex index)).bind
          intro value
          cases value with
          | none => exact NoFault.error nofun
          | some value => exact (ih (index + 1)).bind fun _ => NoFault.ok _

theorem noFault_entries (table : RefTable) : NoFault (table.entries heap) := by
  unfold entries
  apply (noFault_buckets sound table).bind
  intro buckets
  apply (sound.noFault_readWord table.handle countOffset).bind
  intro _
  apply NoFault.bind ((sound.noFault_readWord table.handle capacityOffset).map _)
  intro capacity
  exact noFault_entriesFrom sound table buckets 0 capacity

end RefTable

end

end CompactingHeap
