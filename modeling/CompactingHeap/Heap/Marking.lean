import CompactingHeap.Heap.Basic

/-!
# Marking

The first stage of a collection finds every object that can be reached from the roots.  It sets the
mark of each object when it first meets it, and keeps the addresses in the order of discovery.  That
list is at the same time the queue of objects whose references are still to be followed, so the
objects are discovered breadth first.
-/

namespace CompactingHeap

/-- The space with the marks set so far, and the addresses of the marked objects in the order in
which they were discovered. -/
structure Marking where
  space : Space
  live : Array Address

namespace Marking

/-- Meet an address: mark its object and queue it, unless that has been done before. -/
def visit (marking : Marking) (address : Address) : Marking :=
  match marking.space.object? address with
  | none => marking
  | some object =>
      if object.isMarked then marking
      else
        { space := marking.space.modify address Object.mark
          live := marking.live.push address }

/-- Meet several addresses in order. -/
def visitAll (marking : Marking) (addresses : List Address) : Marking :=
  addresses.foldl visit marking

/-- The references that the object at an address holds. -/
def targetsOf (space : Space) (address : Address) : List Address :=
  match space.object? address with
  | some object => object.targets
  | none => []

/-- Follow the references of the queued objects from a position of the queue on, at most as many
objects as the first argument says. -/
def follow : Nat → Nat → Marking → Marking
  | 0, _, marking => marking
  | steps + 1, position, marking =>
      match marking.live[position]? with
      | none => marking
      | some address =>
          follow steps (position + 1) (marking.visitAll (targetsOf marking.space address))

/-- Mark everything reachable from the given addresses.  Every object is queued once, so there are
enough steps for all of them. -/
def ofRoots (space : Space) (roots : List Address) : Marking :=
  follow space.residents.size 0 (visitAll { space, live := #[] } roots)

/-- The total size of the marked objects. -/
def liveBytes (marking : Marking) : Nat :=
  (marking.live.toList.filterMap marking.space.object?).foldl
    (fun bytes object => bytes + object.layout.size) 0

end Marking

namespace Heap

/-- The handles that keep objects alive: registered roots, scanner reports, held handles and
interned strings, in this order. -/
def rootHandles (heap : Heap) : List Handle :=
  heap.roots.enumerate ++ heap.handles.held ++ heap.interner.handles

/-- The addresses of the root handles.  Stale handles are skipped. -/
def rootAddresses (heap : Heap) : List Address :=
  heap.rootHandles.filterMap fun handle => (heap.handles.resolve handle).toOption

/-- Mark everything reachable from the roots. -/
def mark (heap : Heap) : Marking :=
  Marking.ofRoots heap.space heap.rootAddresses

end Heap

end CompactingHeap
