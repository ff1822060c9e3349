import CompactingHeap.Heap.Values

/-!
# Interned strings and qualified names

Interning gives one handle for each byte string, for ever.  A qualified name is the interned string
of a namespace, a dot, and a name, where both parts are interned themselves.
-/

namespace CompactingHeap

namespace Heap

/-- The canonical string for the given bytes. -/
def intern (bytes : Bytes) : HeapM Handle := do
  match (← get).interner.lookup bytes with
  | some handle => return handle
  | none =>
      let handle ← allocString bytes
      modify fun heap => { heap with interner := heap.interner.insert bytes handle }
      onHandles fun handles => handles.release handle
      return handle

/-- The canonical string for the given bytes, if they have been interned. -/
def lookupInterned (heap : Heap) (bytes : Bytes) : Option Handle :=
  heap.interner.lookup bytes

/-- The number of interned strings. -/
def internedCount (heap : Heap) : Nat :=
  heap.interner.size

/-- The bytes of an interned string. -/
def internedBytes (heap : Heap) (handle : Handle) : Except HeapError Bytes := do
  let bytes ← heap.string handle
  if heap.interner.lookup bytes = some handle then return bytes
  else throw (.wrongType "interned core.String" "uninterned core.String")

/-- The byte between the parts of a qualified name. -/
def dot : UInt8 := 46

/-- The interned name of `name` in the namespace `scope`. -/
def qualify (scope name : Handle) : HeapM Handle := do
  match (← get).interner.qualified scope name with
  | some qualified => return qualified
  | none =>
      let scopeBytes ← HeapM.ask fun heap => heap.internedBytes scope
      let nameBytes ← HeapM.ask fun heap => heap.internedBytes name
      let qualified ← intern (scopeBytes ++ dot :: nameBytes)
      modify fun heap =>
        { heap with interner := heap.interner.insertQualified scope name qualified }
      return qualified

/-- Intern the given segments in order and qualify each by what stands before it. -/
def qualifyFrom (scope : Handle) : List Bytes → HeapM Handle
  | [] => return scope
  | segment :: rest => do
      let name ← intern segment
      let qualified ← qualify scope name
      qualifyFrom qualified rest

/-- The qualified name of a path of at least one segment. -/
def qualifyPath : List Bytes → HeapM Handle
  | [] => throw (.notFound "empty qualified path")
  | first :: rest => do
      let scope ← intern first
      qualifyFrom scope rest

/-- The namespace and the name that a qualified name was first composed from. -/
def components (heap : Heap) (qualified : Handle) : Option (Handle × Handle) :=
  heap.interner.components qualified

end Heap

end CompactingHeap
