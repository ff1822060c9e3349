/-!
# Addresses

A space holds objects in the order in which they were placed, and every space has a number of its
own.  An address is the number of a space and a position in it, so addresses of different spaces
never coincide.  Where the object at an address lies in memory is said by its place: the serial
number of a slab and an offset into it.  Every slab starts at a page.
-/

namespace CompactingHeap

/-- The name of an object inside the heap, good until the object is moved. -/
structure Address where
  space : Nat
  position : Nat
deriving DecidableEq, Repr

/-- Addresses are written as the position and the space. -/
def Address.text (address : Address) : String :=
  s!"position {address.position} of space {address.space}"

instance : ToString Address := ⟨Address.text⟩

/-- Where an object starts: the serial number of a slab, and an offset from the start of the
slab. -/
structure Place where
  slab : Nat
  offset : Nat
deriving DecidableEq, Repr

end CompactingHeap
