import CompactingHeap.Handle.Basic
import Std.Data.TreeMap.Basic
import Std.Data.TreeMap.Lemmas

/-!
# The interner

The interner remembers which handle is the canonical string for which bytes, and which pairs of
interned names were composed into which qualified name.  The strings themselves lie on the heap.
-/

namespace CompactingHeap

/-- The contents of a string or of a byte tail. -/
abbrev Bytes := List UInt8

/-- Replace a stretch of bytes from a position on, as far as the bytes reach. -/
def Bytes.overwrite (bytes : Bytes) (start : Nat) (values : Bytes) : Bytes :=
  bytes.take start ++ (values.take (bytes.length - start) ++ bytes.drop (start + values.length))

/-- Overwriting does not change the number of bytes. -/
@[simp]
theorem Bytes.length_overwrite (bytes : Bytes) (start : Nat) (values : Bytes) :
    (bytes.overwrite start values).length = bytes.length := by
  simp only [overwrite, List.length_append, List.length_take, List.length_drop]
  omega

/-- A qualified name with the namespace and the name that it was composed from. -/
structure Composition where
  scope : Handle
  name : Handle
  qualified : Handle
deriving DecidableEq, Repr

/-- The canonical strings by their bytes, their handles in the order of interning, and the
compositions; the latter two are kept latest first. -/
structure Interner where
  strings : Std.TreeMap Bytes Handle
  latest : List Handle
  compositions : List Composition

namespace Interner

/-- Nothing is interned. -/
def empty : Interner :=
  { strings := ∅, latest := [], compositions := [] }

/-- The canonical handle of a byte string. -/
def lookup (interner : Interner) (bytes : Bytes) : Option Handle :=
  interner.strings[bytes]?

/-- Make `handle` the canonical string for `bytes`. -/
def insert (interner : Interner) (bytes : Bytes) (handle : Handle) : Interner :=
  { interner with
    strings := interner.strings.insert bytes handle
    latest := handle :: interner.latest }

@[simp]
theorem lookup_insert_self (interner : Interner) (bytes : Bytes) (handle : Handle) :
    (interner.insert bytes handle).lookup bytes = some handle := by
  simp [lookup, insert]

theorem lookup_insert_of_ne (interner : Interner) {bytes other : Bytes} (handle : Handle)
    (different : bytes ≠ other) :
    (interner.insert bytes handle).lookup other = interner.lookup other := by
  simp [lookup, insert, Std.TreeMap.getElem?_insert, different]

/-- The qualified name last composed from a namespace and a name. -/
def qualified (interner : Interner) (scope name : Handle) : Option Handle :=
  (interner.compositions.find? fun c => c.scope = scope && c.name = name).map
    Composition.qualified

/-- Remember that a namespace and a name compose to a qualified name. -/
def insertQualified (interner : Interner) (scope name qualified : Handle) : Interner :=
  { interner with compositions := ⟨scope, name, qualified⟩ :: interner.compositions }

/-- The namespace and the name that a qualified name was first composed from. -/
def components (interner : Interner) (qualified : Handle) : Option (Handle × Handle) :=
  (interner.compositions.findRev? (·.qualified = qualified)).map fun c => (c.scope, c.name)

@[simp]
theorem qualified_insertQualified_self (interner : Interner) (scope name qualified : Handle) :
    (interner.insertQualified scope name qualified).qualified scope name = some qualified := by
  simp [Interner.qualified, insertQualified]

/-- The first composition of a qualified name is the one that counts. -/
theorem components_insertQualified (interner : Interner) (scope name qualified other : Handle) :
    (interner.insertQualified scope name qualified).components other =
      (interner.components other).or (if qualified = other then some (scope, name) else none) := by
  unfold components insertQualified
  rw [List.findRev?_eq_find?_reverse, List.findRev?_eq_find?_reverse, List.reverse_cons,
    List.find?_append]
  cases interner.compositions.reverse.find? (·.qualified = other) with
  | some composition => simp
  | none =>
      by_cases same : qualified = other
      · simp [same]
      · simp [same]

/-- Every interned handle, in intern order. -/
def handles (interner : Interner) : List Handle :=
  interner.latest.reverse

/-- The number of interned strings. -/
def size (interner : Interner) : Nat :=
  interner.latest.length

@[simp]
theorem handles_insert (interner : Interner) (bytes : Bytes) (handle : Handle) :
    (interner.insert bytes handle).handles = interner.handles ++ [handle] := by
  simp [handles, insert]

@[simp]
theorem size_insert (interner : Interner) (bytes : Bytes) (handle : Handle) :
    (interner.insert bytes handle).size = interner.size + 1 :=
  rfl

end Interner

end CompactingHeap
