import CompactingHeap.Object
import CompactingHeap.Slab.Allocator

/-!
# Spaces

A space is the memory that objects live in: the slabs that have been handed out so far, and the
objects in the order in which they were placed.  Objects go into the current slab until one does not
fit.  A slab larger than usual is put behind the current one, so that the free tail of the current
slab stays in use.
-/

namespace CompactingHeap

/-- An object of a heap: its references are addresses. -/
abbrev HeapObject := Object Address

/-- An object together with where it starts. -/
structure Resident where
  place : Place
  object : HeapObject

/-- The number of the space, its slabs with the current one first and the earlier ones behind it,
and its objects by position. -/
structure Space where
  number : Nat
  slabs : List Slab
  residents : Array Resident

namespace Space

/-- A space without slabs and objects. -/
def empty (number : Nat) : Space :=
  { number, slabs := [], residents := #[] }

/-- Bytes handed out in all slabs, padding included. -/
def usedBytes (space : Space) : Nat :=
  space.slabs.foldl (fun bytes slab => bytes + slab.used) 0

/-- Bytes of all slabs. -/
def slabBytes (space : Space) : Nat :=
  space.slabs.foldl (fun bytes slab => bytes + slab.capacity) 0

/-- The resident at an address of this space. -/
def resident? (space : Space) (address : Address) : Option Resident :=
  if address.space = space.number then space.residents[address.position]? else none

/-- The object at an address of this space. -/
def object? (space : Space) (address : Address) : Option HeapObject :=
  (space.resident? address).map Resident.object

/-- Change the object at an address of this space. -/
def modify (space : Space) (address : Address) (f : HeapObject → HeapObject) : Space :=
  if address.space = space.number then
    { space with
      residents := space.residents.modify address.position fun resident =>
        { resident with object := f resident.object } }
  else space

theorem object?_eq_some_iff {space : Space} {address : Address} {object : HeapObject} :
    space.object? address = some object ↔
      ∃ place, space.resident? address = some ⟨place, object⟩ := by
  unfold object?
  rw [Option.map_eq_some_iff]
  constructor
  · rintro ⟨⟨place, _⟩, found, rfl⟩
    exact ⟨place, found⟩
  · rintro ⟨place, found⟩
    exact ⟨_, found, rfl⟩

/-- Changing an object shows at its address and leaves its place alone. -/
theorem resident?_modify_self (space : Space) (address : Address) (f : HeapObject → HeapObject) :
    (space.modify address f).resident? address =
      (space.resident? address).map fun resident => ⟨resident.place, f resident.object⟩ := by
  unfold modify resident?
  by_cases here : address.space = space.number
  · simp [here, Array.getElem?_modify]
  · simp [here]

/-- Changing an object does not show at other addresses. -/
theorem resident?_modify_of_ne (space : Space) {address other : Address}
    (f : HeapObject → HeapObject) (different : address ≠ other) :
    (space.modify address f).resident? other = space.resident? other := by
  unfold modify resident?
  by_cases here : address.space = space.number
  · by_cases there : other.space = space.number
    · have apart : address.position ≠ other.position := by
        intro same
        apply different
        cases address
        cases other
        simp_all
      simp [here, there, Array.getElem?_modify, apart]
    · simp [here, there]
  · simp [here]

theorem object?_modify_self (space : Space) (address : Address) (f : HeapObject → HeapObject) :
    (space.modify address f).object? address = (space.object? address).map f := by
  simp only [object?, resident?_modify_self, Option.map_map]
  rfl

theorem object?_modify_of_ne (space : Space) {address other : Address}
    (f : HeapObject → HeapObject) (different : address ≠ other) :
    (space.modify address f).object? other = space.object? other := by
  simp only [object?, resident?_modify_of_ne space f different]

/-- Changing an object moves nothing and takes no room. -/
@[simp]
theorem slabs_modify (space : Space) (address : Address) (f : HeapObject → HeapObject) :
    (space.modify address f).slabs = space.slabs := by
  unfold modify
  split <;> rfl

@[simp]
theorem number_modify (space : Space) (address : Address) (f : HeapObject → HeapObject) :
    (space.modify address f).number = space.number := by
  unfold modify
  split <;> rfl

@[simp]
theorem size_residents_modify (space : Space) (address : Address) (f : HeapObject → HeapObject) :
    (space.modify address f).residents.size = space.residents.size := by
  unfold modify
  split
  · simp
  · rfl

/-- The address that the next object gets. -/
def nextAddress (space : Space) : Address :=
  ⟨space.number, space.residents.size⟩

/-- Put an object at a place that was reserved for it. -/
def add (space : Space) (place : Place) (object : HeapObject) : Space :=
  { space with residents := space.residents.push ⟨place, object⟩ }

/-- A new object resides at the next address, and the others reside where they did. -/
theorem resident?_add (space : Space) (place : Place) (object : HeapObject) (address : Address) :
    (space.add place object).resident? address =
      if address = space.nextAddress then some ⟨place, object⟩ else space.resident? address := by
  split
  · next same =>
    subst address
    simp [resident?, add, nextAddress]
  · next different =>
    unfold resident? add
    by_cases here : address.space = space.number
    · have apart : address.position ≠ space.residents.size := by
        intro same
        apply different
        cases address
        simp_all [nextAddress]
      simp [here, Array.getElem?_push, apart]
    · simp [here]

/-- A new object is found at the address announced for it. -/
theorem object?_add_self (space : Space) (place : Place) (object : HeapObject) :
    (space.add place object).object? space.nextAddress = some object := by
  unfold object?
  rw [resident?_add, if_pos rfl]
  rfl

/-- Adding an object changes none of the objects before it. -/
theorem object?_add_of_ne (space : Space) (place : Place) (object : HeapObject) {address : Address}
    (different : address ≠ space.nextAddress) :
    (space.add place object).object? address = space.object? address := by
  unfold object?
  rw [resident?_add, if_neg different]

/-- Reserve room in the current slab, if there is one and the room is there. -/
def bump? (space : Space) (layout : Layout) : Option (Place × Space) :=
  match space.slabs with
  | [] => none
  | current :: earlier =>
      match current.bump layout.size layout.align with
      | .ok (offset, bumped) =>
          some (⟨current.serial, offset⟩, { space with slabs := bumped :: earlier })
      | .error _ => none

/-- Reserve room in a slab that is new to the space and add the slab: as the current one, or behind
the current one if it is larger than `granularity`. -/
def install (space : Space) (granularity : Nat) (slab : Slab) (layout : Layout) :
    Except HeapError (Place × Space) :=
  match slab.bump layout.size layout.align with
  | .error error => .error error
  | .ok (offset, bumped) =>
      let slabs :=
        match space.slabs with
        | [] => [bumped]
        | current :: earlier =>
            if granularity < slab.capacity then current :: bumped :: earlier
            else bumped :: current :: earlier
      .ok (⟨slab.serial, offset⟩, { space with slabs })

/-- Acquire a slab that holds the layout, install it, and reserve the room in it. -/
def extend (space : Space) (allocator : SlabAllocator) (layout : Layout) :
    Except HeapError (Place × Space) × SlabAllocator :=
  match allocator.acquire layout.size with
  | (.error error, allocator) => (.error error, allocator)
  | (.ok slab, allocator) => (space.install allocator.granularity slab layout, allocator)

end Space

end CompactingHeap
