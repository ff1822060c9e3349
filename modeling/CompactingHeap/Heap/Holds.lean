import CompactingHeap.Heap.Fields

/-!
# Holds and roots

A hold keeps an object alive until it is given back.  Interned strings live for ever, so holding or
releasing one changes nothing.  Roots keep objects alive on behalf of a source until they are
unregistered, and scanners report further handles at every collection.
-/

namespace CompactingHeap

namespace Heap

/-- The bytes of a string. -/
def string (heap : Heap) (handle : Handle) : Except HeapError Bytes :=
  (heap.expect handle .string).map Object.tail

/-- Is the handle the canonical string for its bytes? -/
def isInterned (heap : Heap) (handle : Handle) : Bool :=
  match heap.string handle with
  | .ok bytes => heap.interner.lookup bytes = some handle
  | .error _ => false

/-- The number of holds on an object. -/
def holds (heap : Heap) (handle : Handle) : Except HeapError UInt32 :=
  heap.handles.holds handle

/-- Add a hold on an object. -/
def retain (handle : Handle) : HeapM Unit := do
  if (← get).isInterned handle then return ()
  else onHandles fun handles => handles.retain handle

/-- Drop a hold on an object.  It is reclaimed by the next collection that cannot reach it. -/
def release (handle : Handle) : HeapM Unit := do
  if (← get).isInterned handle then return ()
  else onHandles fun handles => handles.release handle

/-- Drop one hold on each of several objects, in order, up to the first failure. -/
def releaseAll : List Handle → HeapM Unit
  | [] => return ()
  | handle :: rest => do
      release handle
      releaseAll rest

/-- Add a hold on each of several objects.  If one of them is stale, the holds taken before it,
those on `taken` first, are given back. -/
def retainAfter (taken : List Handle) : List Handle → HeapM Unit
  | [] => return ()
  | handle :: rest => do
      match ← HeapM.attempt (retain handle) with
      | .ok () => retainAfter (taken ++ [handle]) rest
      | .error error =>
          releaseAll taken
          throw error

/-- Add a hold on each of several objects, or on none if one of them is stale. -/
def retainAll (handles : List Handle) : HeapM Unit :=
  retainAfter [] handles

/-- Run a program while several objects are held, so that it cannot lose them.  The holds are given
back whether it succeeds or fails. -/
def withHeld {α : Type} (handles : List Handle) (body : HeapM α) : HeapM α := do
  retainAll handles
  match ← HeapM.attempt body with
  | .ok value =>
      releaseAll handles
      return value
  | .error error =>
      releaseAll handles
      throw error

/-- Register a live object as a root. -/
def registerRoot (source : RootSource) (handle : Handle) : HeapM Unit := do
  let _ ← HeapM.ask fun heap => heap.handles.resolve handle
  modify fun heap => { heap with roots := heap.roots.register source handle }

/-- Remove the most recent registration of a handle by a source. -/
def unregisterRoot (source : RootSource) (handle : Handle) : HeapM Unit := do
  let heap ← get
  match heap.roots.unregister source handle with
  | some roots => set { heap with roots }
  | none => throw (.notRooted handle)

/-- Remove everything that a source registered, and tell how many registrations went. -/
def unregisterSource (source : RootSource) : HeapM Nat := do
  let heap ← get
  let (count, roots) := heap.roots.unregisterSource source
  set { heap with roots }
  return count

/-- Install a scanner that reports the given handles. -/
def addScanner (report : List Handle) : HeapM ScannerId := do
  let heap ← get
  let (id, roots) := heap.roots.addScanner report
  set { heap with roots }
  return id

/-- From now on a scanner reports the given handles. -/
def setReport (id : ScannerId) (report : List Handle) : HeapM Unit :=
  modify fun heap => { heap with roots := heap.roots.setReport id report }

/-- Remove a scanner, and tell whether it was still installed. -/
def removeScanner (id : ScannerId) : HeapM Bool := do
  let heap ← get
  match heap.roots.removeScanner id with
  | some roots =>
      set { heap with roots }
      return true
  | none => return false

/-- Is the object kept alive by something other than a reference? -/
def isRooted (heap : Heap) (handle : Handle) : Bool :=
  heap.roots.contains handle ||
    (match heap.holds handle with
     | .ok holds => 0 < holds
     | .error _ => false) ||
    heap.isInterned handle

end Heap

end CompactingHeap
