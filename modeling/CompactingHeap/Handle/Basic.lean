import CompactingHeap.Word

/-!
# Handles

A handle names a heap object for as long as the object lives, wherever a collection moves it.  The
index picks a slot of the handle table, and the generation tells the present occupant of that slot
from earlier ones.
-/

namespace CompactingHeap

/-- A stable name of a heap object. -/
structure Handle where
  index : UInt32
  generation : UInt32
deriving DecidableEq, Hashable, Repr

namespace Handle

/-- Pack a handle into one word, the index in the low half and the generation in the high half. -/
def toBits (handle : Handle) : UInt64 :=
  (handle.generation.toUInt64 <<< 32) ||| handle.index.toUInt64

/-- Unpack a handle from one word. -/
def ofBits (bits : UInt64) : Handle :=
  { index := bits.toUInt32, generation := (bits >>> 32).toUInt32 }

theorem toNat_toBits (handle : Handle) :
    handle.toBits.toNat = handle.generation.toNat * 2 ^ 32 + handle.index.toNat := by
  have bound := handle.generation.toNat_lt
  have indexBound := handle.index.toNat_lt
  simp only [toBits, UInt64.toNat_or, UInt64.toNat_shiftLeft, UInt32.toNat_toUInt64]
  rw [show (32 : UInt64).toNat % 64 = 32 from rfl, Nat.shiftLeft_eq, Nat.mod_eq_of_lt (by omega)]
  rw [Nat.mul_comm, Nat.two_pow_add_eq_or_of_lt indexBound]

/-- Unpacking gives back the handle that was packed. -/
@[simp]
theorem ofBits_toBits (handle : Handle) : ofBits handle.toBits = handle := by
  have indexBound := handle.index.toNat_lt
  have bound := handle.generation.toNat_lt
  have packed := toNat_toBits handle
  have index : handle.toBits.toUInt32 = handle.index := by
    apply UInt32.toNat.inj
    rw [UInt64.toNat_toUInt32, packed]
    omega
  have generation : (handle.toBits >>> 32).toUInt32 = handle.generation := by
    apply UInt32.toNat.inj
    rw [UInt64.toNat_toUInt32, UInt64.toNat_shiftRight, packed]
    rw [show (32 : UInt64).toNat % 64 = 32 from rfl, Nat.shiftRight_eq_div_pow]
    omega
  simp [ofBits, index, generation]

/-- Every word is the packing of exactly one handle. -/
@[simp]
theorem toBits_ofBits (bits : UInt64) : (ofBits bits).toBits = bits := by
  apply UInt64.toNat.inj
  rw [toNat_toBits]
  simp only [ofBits, UInt64.toNat_toUInt32, UInt64.toNat_shiftRight]
  rw [show (32 : UInt64).toNat % 64 = 32 from rfl, Nat.shiftRight_eq_div_pow]
  have := bits.toNat_lt
  omega
/-- Handles are written as the index and the generation. -/
def text (handle : Handle) : String :=
  s!"#{handle.index}v{handle.generation}"

instance : ToString Handle := ⟨text⟩

end Handle

end CompactingHeap
