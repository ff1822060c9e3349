import CompactingHeap.Error

/-!
# The handle table

The table maps handles to the present addresses of their objects and counts the holds on each.  A
slot is live while its object is; when the object is reclaimed the slot becomes vacant, its
generation moves on, and every handle minted for it before is stale.  Vacant slots form a chain
through the slots themselves and are used again most recently vacated first.

An operation gives its outcome and the table that it leaves, which is the old table if it fails.
The table does not look at addresses, so it works for any type of them.
-/

namespace CompactingHeap

/-- The state of a slot.  A vacant one points at the slot vacated before it. -/
inductive Slot (α : Type) where
  | live (address : α) (holds : UInt32)
  | vacant (next : Option UInt32)
deriving Repr

/-- A slot with the generation of its present or next occupant. -/
structure Entry (α : Type) where
  generation : UInt32
  slot : Slot α
deriving Repr

/-- All slots, the head of the chain of vacant ones, and the number of live ones. -/
structure HandleTable (α : Type) where
  entries : Array (Entry α)
  free : Option UInt32
  live : Nat
deriving Repr

namespace HandleTable

variable {α : Type}

/-- The table without slots. -/
def empty : HandleTable α :=
  { entries := #[], free := none, live := 0 }

/-- Slots ever created, live or vacant. -/
def slots (table : HandleTable α) : Nat :=
  table.entries.size

/-- Mint a handle for the object at `address` and hold it once.  It names the slot vacated last, in
the generation that the slot has now, or a new slot. -/
def mint (table : HandleTable α) (address : α) : Except HeapError Handle × HandleTable α :=
  match table.free with
  | none =>
      (.ok ⟨table.entries.size.toUInt32, 0⟩,
        { table with
          entries := table.entries.push ⟨0, .live address 1⟩
          live := table.live + 1 })
  | some index =>
      match table.entries[index.toNat]? with
      | some ⟨generation, .vacant next⟩ =>
          (.ok ⟨index, generation⟩,
            { entries := table.entries.setIfInBounds index.toNat ⟨generation, .live address 1⟩
              free := next
              live := table.live + 1 })
      | _ => (.error (.fault (.occupiedFreeSlot index)), table)

/-- The address and the holds of the object that a handle names. -/
def find (table : HandleTable α) (handle : Handle) : Except HeapError (α × UInt32) :=
  match table.entries[handle.index.toNat]? with
  | some ⟨generation, .live address holds⟩ =>
      if generation = handle.generation then .ok (address, holds)
      else .error (.staleHandle handle)
  | _ => .error (.staleHandle handle)

/-- A handle names an object exactly if its slot is live and of its generation. -/
theorem find_eq_ok_iff {table : HandleTable α} {handle : Handle} {address : α} {holds : UInt32} :
    table.find handle = .ok (address, holds) ↔
      table.entries[handle.index.toNat]? = some ⟨handle.generation, .live address holds⟩ := by
  unfold find
  split
  · next generation address' holds' found =>
    rw [found]
    by_cases same : generation = handle.generation
    · simp [same]
    · simp [same]
  · next other =>
    constructor
    · intro h
      simp at h
    · intro found
      exact absurd found (other _ _ _)

/-- The only failure of a look-up is that the handle is stale. -/
theorem find_eq_error {table : HandleTable α} {handle : Handle} {error : HeapError}
    (h : table.find handle = .error error) : error = .staleHandle handle := by
  unfold find at h
  grind

/-- The address of the object that a handle names. -/
def resolve (table : HandleTable α) (handle : Handle) : Except HeapError α :=
  (table.find handle).map Prod.fst

theorem resolve_eq_ok_iff {table : HandleTable α} {handle : Handle} {address : α} :
    table.resolve handle = .ok address ↔ ∃ holds, table.find handle = .ok (address, holds) := by
  unfold resolve
  cases table.find handle with
  | error error => simp [Except.map]
  | ok found =>
    obtain ⟨a, n⟩ := found
    simp [Except.map]

/-- The number of holds on the object that a handle names. -/
def holds (table : HandleTable α) (handle : Handle) : Except HeapError UInt32 :=
  (table.find handle).map Prod.snd

/-- Does the handle name a live object? -/
def isLive (table : HandleTable α) (handle : Handle) : Bool :=
  (table.resolve handle).isOk

/-- Replace the occupant of the slot that a handle names. -/
def setSlot (table : HandleTable α) (handle : Handle) (address : α) (holds : UInt32) :
    HandleTable α :=
  { table with
    entries := table.entries.setIfInBounds handle.index.toNat
      ⟨handle.generation, .live address holds⟩ }

/-- Replacing the occupant of a live slot shows at its own handle. -/
theorem find_setSlot_self {table : HandleTable α} {handle : Handle} (address : α) (holds : UInt32)
    (live : handle.index.toNat < table.entries.size) :
    (table.setSlot handle address holds).find handle = .ok (address, holds) := by
  rw [find_eq_ok_iff]
  simp [setSlot, live]

/-- Replacing the occupant of a slot does not show at the other slots. -/
theorem find_setSlot_of_ne {table : HandleTable α} {handle other : Handle} (address : α)
    (holds : UInt32) (different : other.index ≠ handle.index) :
    (table.setSlot handle address holds).find other = table.find other := by
  have apart : handle.index.toNat ≠ other.index.toNat := fun same =>
    different (UInt32.toNat.inj same.symm)
  simp [find, setSlot, apart]

/-- Add a hold. -/
def retain (table : HandleTable α) (handle : Handle) : Except HeapError Unit × HandleTable α :=
  match table.find handle with
  | .ok (address, holds) => (.ok (), table.setSlot handle address (holds + 1))
  | .error error => (.error error, table)

/-- Drop a hold.  The object stays valid until a collection finds it unreachable. -/
def release (table : HandleTable α) (handle : Handle) : Except HeapError Unit × HandleTable α :=
  match table.find handle with
  | .ok (address, holds) =>
      if holds = 0 then (.error (.notRooted handle), table)
      else (.ok (), table.setSlot handle address (holds - 1))
  | .error error => (.error error, table)

/-- Record that the object of a live slot has moved. -/
def update (table : HandleTable α) (index : UInt32) (address : α) :
    Except HeapError Unit × HandleTable α :=
  match table.entries[index.toNat]? with
  | some ⟨generation, .live _ holds⟩ =>
      (.ok (),
        { table with
          entries := table.entries.setIfInBounds index.toNat ⟨generation, .live address holds⟩ })
  | _ => (.error (.fault (.vacantSlot index)), table)

/-- Vacate a live slot.  Every handle minted for it so far becomes stale. -/
def recycle (table : HandleTable α) (index : UInt32) : Except HeapError Unit × HandleTable α :=
  match table.entries[index.toNat]? with
  | some ⟨generation, .live ..⟩ =>
      (.ok (),
        { entries := table.entries.setIfInBounds index.toNat ⟨generation + 1, .vacant table.free⟩
          free := some index
          live := table.live - 1 })
  | _ => (.error (.fault (.vacantSlot index)), table)

/-- The handle that names a slot now, if the slot is live. -/
def handleAt? (table : HandleTable α) (index : UInt32) : Option Handle :=
  match table.entries[index.toNat]? with
  | some ⟨generation, .live ..⟩ => some ⟨index, generation⟩
  | _ => none

theorem handleAt?_eq_some_iff {table : HandleTable α} {index : UInt32} {handle : Handle} :
    table.handleAt? index = some handle ↔
      handle.index = index ∧ ∃ address holds, table.find handle = .ok (address, holds) := by
  simp only [find_eq_ok_iff]
  unfold handleAt?
  split
  · next generation address holds found =>
    constructor
    · intro h
      obtain rfl := Option.some.inj h
      exact ⟨rfl, address, holds, found⟩
    · rintro ⟨rfl, a, n, h⟩
      rw [found] at h
      simp at h
      simp [h]
  · next other =>
    simp only [reduceCtorEq, false_iff]
    rintro ⟨rfl, a, n, h⟩
    exact other _ _ _ h

/-- The live slots with their addresses, in slot order. -/
def occupied (table : HandleTable α) : List (UInt32 × α) :=
  table.entries.toList.zipIdx.filterMap fun
    | (⟨_, .live address _⟩, index) => some (index.toUInt32, address)
    | (⟨_, .vacant _⟩, _) => none

/-- The handles with at least one hold, in slot order. -/
def held (table : HandleTable α) : List Handle :=
  table.entries.toList.zipIdx.filterMap fun
    | (⟨generation, .live _ holds⟩, index) =>
        if 0 < holds then some ⟨index.toUInt32, generation⟩ else none
    | (⟨_, .vacant _⟩, _) => none

end HandleTable

end CompactingHeap
