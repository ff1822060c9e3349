import CompactingHeap.Heap.Basic
import CompactingHeap.Proofs.HandleSlots
import CompactingHeap.Proofs.Placement
import CompactingHeap.Proofs.TracedSlots

/-!
# Soundness

A heap between two operations is sound: its parts keep their own invariants, handles and objects
name each other, and every reference leads to an object.  The parts need each other.  A collection
finds its survivors through the references, points the handles at the copies through the owners of
the copies, and can give back the old slabs because everything that lies in them has been copied.
-/

namespace CompactingHeap

namespace Space

/-- Handles and objects name each other, objects are at rest, and references lead to objects. -/
structure Linked (space : Space) (handles : HandleTable Address) : Prop where
  named : ∀ handle address holds, handles.find handle = .ok (address, holds) →
    ∃ object, space.object? address = some object ∧ object.owner = handle.index
  owned : ∀ address object, space.object? address = some object →
    ∃ generation holds, handles.find ⟨object.owner, generation⟩ = .ok (address, holds)
  rest : ∀ address object, space.object? address = some object → object.AtRest
  closed : ∀ address object, space.object? address = some object → ∀ target ∈ object.targets,
    ∃ other, space.object? target = some other

/-- A space without objects is linked to a table without slots. -/
theorem linked_empty (number : Nat) : (empty number).Linked .empty := by
  constructor <;> simp [empty, object?, resident?, HandleTable.find, HandleTable.empty]

/-- Two handles that name one address are equal. -/
theorem Linked.eq_of_address {space : Space} {handles : HandleTable Address}
    (linked : space.Linked handles) {first second : Handle} {address : Address}
    {firstHolds secondHolds : UInt32} (firstFound : handles.find first = .ok (address, firstHolds))
    (secondFound : handles.find second = .ok (address, secondHolds)) : first = second := by
  obtain ⟨object, here, firstOwner⟩ := linked.named first address firstHolds firstFound
  obtain ⟨other, there, secondOwner⟩ := linked.named second address secondHolds secondFound
  rw [here] at there
  cases there
  exact HandleTable.eq_of_find firstFound secondFound (firstOwner.symm.trans secondOwner)

/-- An address of the space lies below the next one. -/
theorem position_lt {space : Space} {address : Address} {object : HeapObject}
    (found : space.object? address = some object) :
    address.space = space.number ∧ address.position < space.residents.size := by
  rcases object?_eq_some_iff.mp found with ⟨place, resident⟩
  unfold resident? at resident
  split at resident
  · next here => exact ⟨here, (Array.getElem?_eq_some_iff.mp resident).1⟩
  · cases resident

/-- There is no object yet at the next address. -/
theorem object?_nextAddress (space : Space) : space.object? space.nextAddress = none := by
  simp [object?, resident?, nextAddress]

/-- Spaces that agree in their slabs and at every address are equal. -/
theorem eq_of_resident? {first second : Space} (number : first.number = second.number)
    (slabs : first.slabs = second.slabs)
    (residents : ∀ address, first.resident? address = second.resident? address) :
    first = second := by
  cases first with
  | mk firstNumber firstSlabs firstResidents =>
      cases second with
      | mk secondNumber secondSlabs secondResidents =>
          cases number
          cases slabs
          congr 1
          apply Array.ext_getElem?
          intro position
          have here := residents ⟨firstNumber, position⟩
          simpa only [resident?, ↓reduceIte] using here

end Space

namespace Heap

/-- The invariant of a heap between operations. -/
structure Sound (heap : Heap) : Prop where
  idle : heap.phase = .idle
  builtin : ∀ (position : Nat) (descriptor : Descriptor),
    Registry.initial.classes[position]? = some descriptor →
      heap.classes.classes[position]? = some descriptor
  accounts : heap.allocator.Accounts heap.space.slabs
  placed : heap.space.Placed
  bounded : heap.handles.slots < 2 ^ 32
  chained : heap.handles.Chained
  linked : heap.space.Linked heap.handles
  rooted : ∀ root ∈ heap.roots.latest, heap.handles.isLive root.handle = true
  interned : ∀ handle ∈ heap.interner.latest, heap.handles.isLive handle = true
  listed : ∀ handle, handle ∈ heap.interner.latest ↔
    ∃ bytes, heap.interner.lookup bytes = some handle

/-- The books of the allocator list the active slabs and no others. -/
theorem Sound.books {heap : Heap} (sound : heap.Sound) :
    heap.allocator.Accounts (heap.space.slabs ++ []) := by
  rw [List.append_nil]
  exact sound.accounts

/-- Settings that have been accepted make slabs of whole pages. -/
theorem slabBytes_of_validate {config : Config} (accepted : config.validate = .ok ()) :
    0 < config.slabBytes ∧ config.slabBytes % pageBytes = 0 := by
  have noFlaw := Config.validate_eq_ok_iff.mp accepted
  unfold Config.flaw? at noFlaw
  dsimp only at noFlaw
  split at noFlaw
  · cases noFlaw
  · next whole =>
    simp only [Bool.or_eq_true, decide_eq_true_eq, bne_iff_ne, ne_eq, not_or, not_not] at whole
    exact ⟨Nat.pos_of_ne_zero whole.1, whole.2⟩

/-- A new heap is sound. -/
theorem Sound.new {system : MemorySystem} {config : Config} {heap : Heap}
    (created : Heap.new system config = .ok heap) : heap.Sound := by
  obtain ⟨accepted, rfl⟩ := new_eq_ok_iff.mp created
  obtain ⟨granular, pages⟩ := slabBytes_of_validate accepted
  constructor
  · rfl
  · intro position descriptor known
    exact known
  · exact SlabAllocator.Accounts.new system config.maxHeapBytes config.slabPool granular pages
  · exact Space.placed_empty 0
  · simp [HandleTable.slots, HandleTable.empty]
  · exact HandleTable.chained_empty
  · exact Space.linked_empty 0
  · simp [RootSet.empty]
  · simp [Interner.empty]
  · intro handle
    simp [Interner.empty, Interner.lookup]

/-- The object that a live handle of a sound heap names. -/
theorem Sound.object_of_find {heap : Heap} (sound : heap.Sound) {handle : Handle}
    {address : Address} {holds : UInt32}
    (found : heap.handles.find handle = .ok (address, holds)) :
    ∃ object, heap.space.object? address = some object ∧ object.owner = handle.index :=
  sound.linked.named handle address holds found

end Heap

end CompactingHeap
