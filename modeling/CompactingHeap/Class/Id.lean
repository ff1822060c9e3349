/-!
# Class identifiers

Classes are numbered in the order in which they are registered.  The first nine are built in.
-/

namespace CompactingHeap

/-- Where a number of 32 bits is asked for, a natural number gives its lowest 32 bits. -/
instance instCoeNatUInt32 : Coe Nat UInt32 := ⟨Nat.toUInt32⟩

/-- The number of a class in its registry. -/
structure ClassId where
  number : UInt32
deriving DecidableEq, Hashable, Repr

namespace ClassId

/-- The position of a class in its registry. -/
def index (id : ClassId) : Nat :=
  id.number.toNat

def int : ClassId := ⟨0⟩
def float : ClassId := ⟨1⟩
def bool : ClassId := ⟨2⟩
def char : ClassId := ⟨3⟩
def cons : ClassId := ⟨4⟩
def string : ClassId := ⟨5⟩
def vector : ClassId := ⟨6⟩
def array : ClassId := ⟨7⟩
def hashtable : ClassId := ⟨8⟩

/-- Class identifiers are written with their number in brackets. -/
def text (id : ClassId) : String :=
  s!"ClassId({id.index})"

instance : ToString ClassId := ⟨text⟩

end ClassId

end CompactingHeap
