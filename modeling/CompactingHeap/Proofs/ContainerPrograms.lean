import CompactingHeap.Proofs.ValuePrograms
import CompactingHeap.RefTable.Basic

/-!
# Tame operations of arrays and tables

The containers reach the heap through its own operations only, so their programs are tame whatever
handle they are applied to.  The loops of a container are followed by induction on the number of
steps that are left.
-/

namespace CompactingHeap

open Heap

/-- The change of the counters counts something else than collections and objects. -/
structure Counters.Aside (change : Counters → Counters) : Prop where
  collections : ∀ counters, (change counters).collections = counters.collections
  reclaimed : ∀ counters, (change counters).objectsReclaimed = counters.objectsReclaimed
  allocated : ∀ counters, (change counters).objectsAllocated = counters.objectsAllocated

/-- Reallocations of arrays are counted apart. -/
theorem Counters.aside_arrayReallocations : Counters.Aside fun counters =>
    { counters with arrayReallocations := counters.arrayReallocations + 1 } :=
  ⟨fun _ => rfl, fun _ => rfl, fun _ => rfl⟩

/-- Resizes of tables are counted apart. -/
theorem Counters.aside_tableResizes : Counters.Aside fun counters =>
    { counters with tableResizes := counters.tableResizes + 1 } :=
  ⟨fun _ => rfl, fun _ => rfl, fun _ => rfl⟩

/-- Counting something else than collections and objects is quiet. -/
theorem tame_count {change : Counters → Counters} (aside : Counters.Aside change) :
    Tame (modify fun heap => { heap with counters := change heap.counters } : HeapM PUnit) := by
  apply Tame.modify
  intro heap
  exact ⟨rfl, aside.allocated heap.counters, fun _ =>
    Or.inr (Quiet.counted (aside.collections heap.counters) (aside.reclaimed heap.counters))⟩

namespace RefArray

theorem tame_adopt (array : RefArray) (backing : Handle) : Tame (array.adopt backing) :=
  (tame_writeRef array.handle backingOffset (some backing)).bind fun _ => tame_release backing

theorem tame_orRelease {γ : Type} (handle : Handle) {rest : HeapM γ} (tame : Tame rest) :
    Tame (orRelease handle rest) := by
  unfold orRelease
  apply tame.attempt.bind
  intro outcome
  cases outcome with
  | ok value => exact Tame.pure value
  | error error => exact (tame_release handle).bind fun _ => Tame.throw error

/-- The end of the construction of an array: it gets its backing run. -/
def furnish (array : RefArray) (capacity : Nat) (backing : Handle) : HeapM RefArray := do
  Heap.writeWord array.handle capacityOffset capacity.toUInt64
  adopt array backing
  return array

theorem tame_furnish (array : RefArray) (capacity : Nat) (backing : Handle) :
    Tame (array.furnish capacity backing) := by
  apply (tame_writeWord array.handle capacityOffset capacity.toUInt64).bind
  intro _
  exact (tame_adopt array backing).bind fun _ => Tame.pure _

/-- The construction of an array after its object has been allocated. -/
def construct (capacity : Nat) (handle : Handle) : HeapM RefArray :=
  if capacity = 0 then return ⟨handle⟩
  else do
    let backing ← orRelease handle (Heap.withHeld [handle] (Heap.allocVector capacity))
    furnish ⟨handle⟩ capacity backing

theorem tame_construct (capacity : Nat) (handle : Handle) : Tame (construct capacity handle) := by
  apply Tame.ite
  · exact Tame.pure _
  · apply (tame_orRelease handle (tame_withHeld [handle] (tame_allocate .vector capacity))).bind
    intro backing
    exact tame_furnish ⟨handle⟩ capacity backing

theorem withCapacity_eq (capacity : Nat) :
    withCapacity capacity = Heap.allocate .array 0 >>= construct capacity :=
  rfl

theorem tame_withCapacity (capacity : Nat) : Tame (withCapacity capacity) :=
  (tame_allocate .array 0).bind (tame_construct capacity)

theorem tame_filled (length : Nat) : Tame (filled length) := by
  unfold filled
  apply (tame_withCapacity length).bind
  intro array
  exact (tame_writeWord array.handle lengthOffset length.toUInt64).bind fun _ => Tame.pure array

theorem tame_set (array : RefArray) (index : Nat) (value : Option Handle) :
    Tame (array.set index value) :=
  (Tame.ask _).bind fun backing => tame_runSet backing index value

/-- The end of the growth of an array: it gets a new backing run. -/
def install (array : RefArray) (capacity : UInt64) (grown : Handle) : HeapM Unit := do
  Heap.writeRef array.handle backingOffset (some grown)
  Heap.writeWord array.handle capacityOffset capacity
  Heap.release grown
  modify fun heap => { heap with
    counters := { heap.counters with
      arrayReallocations := heap.counters.arrayReallocations + 1 } }

theorem tame_install (array : RefArray) (capacity : UInt64) (grown : Handle) :
    Tame (array.install capacity grown) := by
  apply (tame_writeRef array.handle backingOffset (some grown)).bind
  intro _
  apply (tame_writeWord array.handle capacityOffset capacity).bind
  intro _
  apply (tame_release grown).bind
  intro _
  exact tame_count Counters.aside_arrayReallocations

/-- The second half of the growth of an array: the elements move to the new run. -/
def moveTo (array : RefArray) (length capacity : UInt64) (grown : Handle) : HeapM Unit := do
  if 0 < length then
    let old ← HeapM.ask array.backing
    Heap.copyRun old grown length.toNat
  array.install capacity grown

theorem tame_moveTo (array : RefArray) (length capacity : UInt64) (grown : Handle) :
    Tame (array.moveTo length capacity grown) := by
  apply Tame.ite
  · apply (Tame.ask _).bind
    intro old
    apply (tame_copyRun old grown length.toNat).bind
    intro _
    exact tame_install array capacity grown
  · exact tame_install array capacity grown

theorem grow_eq (array : RefArray) (length : UInt64) :
    array.grow length = HeapM.ask array.capacityWord >>= fun oldCapacity =>
      Heap.allocate .vector (max (oldCapacity * 2) minCapacity).toNat >>=
        array.moveTo length (max (oldCapacity * 2) minCapacity) :=
  rfl

theorem tame_grow (array : RefArray) (length : UInt64) : Tame (array.grow length) := by
  rw [grow_eq]
  apply (Tame.ask _).bind
  intro oldCapacity
  exact (tame_allocate .vector _).bind (array.tame_moveTo length _)

/-- The second half of a push: the value comes behind the elements. -/
def append (array : RefArray) (length : UInt64) (value : Option Handle) : HeapM Unit := do
  let backing ← HeapM.ask array.backing
  Heap.runSet backing length.toNat value
  Heap.writeWord array.handle lengthOffset (length + 1)

theorem tame_append (array : RefArray) (length : UInt64) (value : Option Handle) :
    Tame (array.append length value) := by
  apply (Tame.ask _).bind
  intro backing
  apply (tame_runSet backing length.toNat value).bind
  intro _
  exact tame_writeWord array.handle lengthOffset (length + 1)

theorem push_eq (array : RefArray) (value : Option Handle) :
    array.push value = HeapM.ask array.lengthWord >>= fun length =>
      HeapM.ask array.capacityWord >>= fun capacity =>
        if length = capacity then
          Heap.withHeld (array.handle :: value.toList) (array.grow length) >>= fun _ =>
            array.append length value
        else array.append length value :=
  rfl

theorem tame_push (array : RefArray) (value : Option Handle) : Tame (array.push value) := by
  rw [push_eq]
  apply (Tame.ask _).bind
  intro length
  apply (Tame.ask _).bind
  intro capacity
  apply Tame.ite
  · exact (tame_withHeld _ (array.tame_grow length)).bind fun _ => array.tame_append length value
  · exact array.tame_append length value

theorem tame_pop (array : RefArray) : Tame array.pop := by
  unfold pop
  apply (Tame.ask _).bind
  intro length
  apply Tame.ite
  · exact Tame.throw _
  · apply (Tame.ask _).bind
    intro backing
    apply (Tame.ask _).bind
    intro value
    apply (tame_runSet backing _ none).bind
    intro _
    exact (tame_writeWord array.handle lengthOffset _).bind fun _ => Tame.pure value

theorem tame_eraseFrom (backing : Handle) (index count : Nat) :
    Tame (eraseFrom backing index count) := by
  induction count generalizing index with
  | zero => exact Tame.pure ()
  | succ count ih =>
      unfold eraseFrom
      exact (tame_runSet backing index none).bind fun _ => ih (index + 1)

theorem tame_clear (array : RefArray) : Tame array.clear := by
  unfold clear
  apply (Tame.ask _).bind
  intro length
  apply Tame.ite
  · apply (Tame.ask _).bind
    intro backing
    apply (tame_eraseFrom backing 0 length).bind
    intro _
    exact tame_writeWord array.handle lengthOffset 0
  · exact tame_writeWord array.handle lengthOffset 0

end RefArray

namespace RefTable

/-- The end of the construction of a table: it gets its bucket array. -/
def furnish (table : RefTable) (capacity : Nat) (buckets : RefArray) : HeapM RefTable := do
  Heap.writeWord table.handle capacityOffset capacity.toUInt64
  Heap.writeRef table.handle bucketsOffset (some buckets.handle)
  Heap.release buckets.handle
  return table

theorem tame_furnish (table : RefTable) (capacity : Nat) (buckets : RefArray) :
    Tame (table.furnish capacity buckets) := by
  apply (tame_writeWord table.handle capacityOffset _).bind
  intro _
  apply (tame_writeRef table.handle bucketsOffset (some buckets.handle)).bind
  intro _
  exact (tame_release buckets.handle).bind fun _ => Tame.pure table

/-- The construction of a table after its object has been allocated. -/
def construct (capacity : Nat) (handle : Handle) : HeapM RefTable := do
  let buckets ← RefArray.orRelease handle
    (Heap.withHeld [handle] (RefArray.filled (2 * capacity)))
  furnish ⟨handle⟩ capacity buckets

theorem tame_construct (capacity : Nat) (handle : Handle) : Tame (construct capacity handle) := by
  apply (RefArray.tame_orRelease handle (tame_withHeld [handle] (RefArray.tame_filled _))).bind
  intro buckets
  exact tame_furnish ⟨handle⟩ capacity buckets

theorem withCapacity_eq (capacity : Nat) :
    withCapacity capacity =
      if wordLimit ≤ 2 * nextPowerOfTwo capacity then get >>= fun heap => throw heap.tooLarge
      else Heap.allocate .hashtable 0 >>= construct (nextPowerOfTwo capacity) :=
  rfl

theorem tame_withCapacity (capacity : Nat) : Tame (withCapacity capacity) := by
  rw [withCapacity_eq]
  apply Tame.ite
  · exact Tame.get.bind fun heap => Tame.throw _
  · exact (tame_allocate .hashtable 0).bind (tame_construct _)

theorem tame_new : Tame new :=
  Tame.get.bind fun heap => tame_withCapacity heap.config.tableInitialCapacity

theorem tame_fillBucket (buckets : RefArray) (index : UInt64) (key value : Option Handle) :
    Tame (fillBucket buckets index key value) :=
  (buckets.tame_set (keyIndex index) key).bind fun _ => buckets.tame_set (valueIndex index) value

theorem tame_reinsertFrom (table : RefTable) (old grown : RefArray) (capacity index : UInt64)
    (count : Nat) (hash : Key → UInt64) :
    Tame (table.reinsertFrom old grown capacity index count hash) := by
  induction count generalizing index with
  | zero => exact Tame.pure ()
  | succ count ih =>
      unfold reinsertFrom
      apply (Tame.ask _).bind
      intro key
      cases key with
      | none => exact ih (index + 1)
      | some key =>
          apply (Tame.ask _).bind
          intro value
          apply (Tame.ask _).bind
          intro probed
          cases probed with
          | found _ => exact Tame.throw _
          | vacant slot =>
              apply (tame_fillBucket grown slot (some key) value).bind
              intro _
              exact ih (index + 1)

/-- The end of a resize: the table gets its new bucket array. -/
def install (table : RefTable) (capacity : UInt64) (grown : RefArray) : HeapM Unit := do
  Heap.writeRef table.handle bucketsOffset (some grown.handle)
  Heap.writeWord table.handle capacityOffset capacity
  Heap.release grown.handle
  modify fun heap => { heap with
    counters := { heap.counters with tableResizes := heap.counters.tableResizes + 1 } }

theorem tame_install (table : RefTable) (capacity : UInt64) (grown : RefArray) :
    Tame (table.install capacity grown) := by
  apply (tame_writeRef table.handle bucketsOffset (some grown.handle)).bind
  intro _
  apply (tame_writeWord table.handle capacityOffset capacity).bind
  intro _
  apply (tame_release grown.handle).bind
  intro _
  exact tame_count Counters.aside_tableResizes

/-- The second half of a resize: the entries move to the new buckets. -/
def moveTo (table : RefTable) (oldCapacity capacity : UInt64) (hash : Key → UInt64)
    (grown : RefArray) : HeapM Unit := do
  let old ← HeapM.ask table.buckets
  reinsertFrom table old grown capacity 0 oldCapacity.toNat hash
  table.install capacity grown

theorem tame_moveTo (table : RefTable) (oldCapacity capacity : UInt64) (hash : Key → UInt64)
    (grown : RefArray) : Tame (table.moveTo oldCapacity capacity hash grown) := by
  apply (Tame.ask _).bind
  intro old
  apply (table.tame_reinsertFrom old grown capacity 0 oldCapacity.toNat hash).bind
  intro _
  exact table.tame_install capacity grown

theorem resize_eq (table : RefTable) (capacity : UInt64) (hash : Key → UInt64) :
    table.resize capacity hash = HeapM.ask table.capacityWord >>= fun oldCapacity =>
      RefArray.filled (2 * capacity).toNat >>= table.moveTo oldCapacity capacity hash :=
  rfl

theorem tame_resize (table : RefTable) (capacity : UInt64) (hash : Key → UInt64) :
    Tame (table.resize capacity hash) := by
  rw [resize_eq]
  apply (Tame.ask _).bind
  intro oldCapacity
  exact (RefArray.tame_filled _).bind (table.tame_moveTo oldCapacity capacity hash)

theorem tame_makeRoom (table : RefTable) (count : UInt64) (key value : Handle)
    (hash : Key → UInt64) : Tame (table.makeRoom count key value hash) := by
  unfold makeRoom
  apply (Tame.ask _).bind
  intro capacity
  apply Tame.get.bind
  intro heap
  apply Tame.ite
  · apply Tame.ite
    · exact Tame.throw _
    · exact tame_withHeld _ (table.tame_resize _ hash)
  · exact Tame.pure ()

/-- The second half of an insertion of a new key: it enters the vacant bucket that is found. -/
def enter (table : RefTable) (count : UInt64) (key value : Handle) (hash : Key → UInt64) :
    HeapM (Option Handle) := do
  let buckets ← HeapM.ask table.buckets
  let capacity ← HeapM.ask table.capacityWord
  match ← HeapM.ask fun heap => probe heap buckets capacity key hash with
  | .found _ => throw (.fault (.keyAppeared table.handle))
  | .vacant index =>
      fillBucket buckets index (some key) (some value)
      Heap.writeWord table.handle countOffset (count + 1)
      return none

theorem tame_enter (table : RefTable) (count : UInt64) (key value : Handle) (hash : Key → UInt64) :
    Tame (table.enter count key value hash) := by
  apply (Tame.ask _).bind
  intro buckets
  apply (Tame.ask _).bind
  intro capacity
  apply (Tame.ask _).bind
  intro probed
  cases probed with
  | found _ => exact Tame.throw _
  | vacant slot =>
      apply (tame_fillBucket buckets slot (some key) (some value)).bind
      intro _
      exact (tame_writeWord table.handle countOffset (count + 1)).bind fun _ => Tame.pure none

theorem tame_insert (table : RefTable) (key value : Handle) (hash : Key → UInt64) :
    Tame (table.insert key value hash) := by
  apply (Tame.ask _).bind
  intro _
  apply (Tame.ask _).bind
  intro found
  split
  · next buckets index =>
    apply (Tame.ask _).bind
    intro previous
    exact (buckets.tame_set (valueIndex index) (some value)).bind fun _ => Tame.pure previous
  · apply (Tame.ask _).bind
    intro count
    exact (table.tame_makeRoom count key value hash).bind fun _ =>
      table.tame_enter count key value hash

theorem tame_shiftBack (buckets : RefArray) (mask hole next : UInt64) (steps : Nat)
    (hash : Key → UInt64) : Tame (shiftBack buckets mask hole next steps hash) := by
  induction steps generalizing hole next with
  | zero => exact Tame.throw _
  | succ steps ih =>
      unfold shiftBack
      apply (Tame.ask _).bind
      intro moving
      cases moving with
      | none => exact Tame.pure hole
      | some moving =>
          apply (Tame.ask _).bind
          intro home
          apply Tame.ite
          · apply (Tame.ask _).bind
            intro value
            apply (tame_fillBucket buckets hole (some moving) value).bind
            intro _
            exact ih next _
          · exact ih hole _

theorem tame_remove (table : RefTable) (key : Handle) (hash : Key → UInt64) :
    Tame (table.remove key hash) := by
  unfold remove
  apply (Tame.ask _).bind
  intro found
  split
  · exact Tame.pure none
  · next buckets index =>
    apply (Tame.ask _).bind
    intro value
    apply (Tame.ask _).bind
    intro capacity
    apply (tame_shiftBack buckets _ index _ _ hash).bind
    intro hole
    apply (tame_fillBucket buckets hole none none).bind
    intro _
    apply (Tame.ask _).bind
    intro count
    exact (tame_writeWord table.handle countOffset (count - 1)).bind fun _ => Tame.pure value

end RefTable

end CompactingHeap
