import CompactingHeap.Word

/-!
# Mapped regions

A region is a stretch of whole pages obtained from the system.  It starts at a page and reads as
zero until it is written, and again after its contents have been discarded.  Whether the system
grants a region, and whether it discards the contents of one, is up to the system, so it is a
parameter here.
-/

namespace CompactingHeap

/-- How the system that memory is obtained from answers: whether it grants the request of a number,
counted from zero, for so many bytes, and whether it can discard contents at the release of a
number. -/
structure MemorySystem where
  grants : Nat → Nat → Bool
  discards : Nat → Bool

/-- A system that grants at any time what an address space of 47 bits can hold, and discards
whatever it is told to. -/
def MemorySystem.spacious : MemorySystem :=
  { grants := fun _ size => size < 2 ^ 47, discards := fun _ => true }

/-- Why a region cannot be mapped. -/
inductive MapError where
  | invalidSize (size : Nat)
  | refused (size : Nat)
deriving DecidableEq, Repr

/-- The wording of a failure to map. -/
def MapError.message : MapError → String
  | invalidSize size => s!"mapping size {size} is not a positive multiple of {pageBytes}"
  | refused _ => "Cannot allocate memory (os error 12)"

/-- A mapped region: its length, the byte that it was last filled with, and the single bytes written
since with their offsets, the latest first. -/
structure Region where
  length : Nat
  background : UInt8
  writes : List (Nat × UInt8)

namespace Region

/-- Map a region of `size` zero bytes with the request of the given number. -/
def map (system : MemorySystem) (request size : Nat) : Except MapError Region :=
  if size = 0 || size % pageBytes != 0 then .error (.invalidSize size)
  else if system.grants request size then .ok { length := size, background := 0, writes := [] }
  else .error (.refused size)

/-- Does an offset from the start, which may be negative, lie inside the region? -/
def contains (region : Region) (offset : Int) : Bool :=
  0 ≤ offset && offset < region.length

theorem contains_iff {region : Region} {offset : Int} :
    region.contains offset = true ↔ 0 ≤ offset ∧ offset < region.length := by
  simp [contains]

/-- The byte at an offset. -/
def byteAt (region : Region) (offset : Nat) : UInt8 :=
  match region.writes.find? (·.1 = offset) with
  | some write => write.2
  | none => region.background

/-- Write one byte. -/
def write (region : Region) (offset : Nat) (byte : UInt8) : Region :=
  { region with writes := (offset, byte) :: region.writes }

/-- Write the same byte everywhere. -/
def fill (region : Region) (byte : UInt8) : Region :=
  { region with background := byte, writes := [] }

/-- Give the contents back, so that every byte reads as zero. -/
def discard (region : Region) : Region :=
  region.fill 0

/-- Does every byte of the region equal `byte`?  There is no need to look at each of them where no
other byte has been written. -/
def holds (region : Region) (byte : UInt8) : Bool :=
  (region.background = byte && region.writes.all fun write => write.2 = byte) ||
    Nat.all region.length fun offset _ => region.byteAt offset = byte

@[simp]
theorem byteAt_write_self (region : Region) (offset : Nat) (byte : UInt8) :
    (region.write offset byte).byteAt offset = byte := by
  simp [byteAt, write]

theorem byteAt_write_of_ne (region : Region) {offset other : Nat} (byte : UInt8)
    (different : offset ≠ other) :
    (region.write offset byte).byteAt other = region.byteAt other := by
  simp [byteAt, write, different]

@[simp]
theorem byteAt_fill (region : Region) (byte : UInt8) (offset : Nat) :
    (region.fill byte).byteAt offset = byte :=
  rfl

@[simp]
theorem byteAt_discard (region : Region) (offset : Nat) : region.discard.byteAt offset = 0 :=
  rfl

theorem holds_iff {region : Region} {byte : UInt8} :
    region.holds byte = true ↔ ∀ offset < region.length, region.byteAt offset = byte := by
  have each : (Nat.all region.length fun offset _ => region.byteAt offset = byte) = true ↔
      ∀ offset < region.length, region.byteAt offset = byte := by
    simp only [Nat.all_eq_finRange_all, List.all_eq_true, List.mem_finRange, true_implies,
      decide_eq_true_eq]
    constructor
    · intro h offset inside
      exact h ⟨offset, inside⟩
    · intro h offset
      exact h offset offset.isLt
  unfold holds
  rw [Bool.or_eq_true, each]
  constructor
  · rintro (uniform | every)
    · simp only [Bool.and_eq_true, decide_eq_true_eq, List.all_eq_true] at uniform
      intro offset _
      unfold byteAt
      split
      · next write found => exact uniform.2 write (List.mem_of_find?_eq_some found)
      · exact uniform.1
    · exact every
  · exact Or.inr

@[simp]
theorem holds_discard (region : Region) : region.discard.holds 0 = true := by
  simp [holds_iff]

@[simp]
theorem holds_fill (region : Region) (byte : UInt8) :
    (region.fill byte).holds byte = true := by
  simp [holds_iff]

end Region

end CompactingHeap
