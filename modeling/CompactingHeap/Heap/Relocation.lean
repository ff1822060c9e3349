import CompactingHeap.Heap.Marking

/-!
# Relocation

The second stage of a collection copies the marked objects, in the order of discovery, into a new
space and leaves a forwarding address in every old copy.  The slabs of the new space are acquired
while the old ones are still in use.  If that fails, everything is taken back: marks and forwarding
addresses are cleared and the new slabs are released.  Otherwise every reference of every copy and
every handle is pointed at the copies.
-/

namespace CompactingHeap

/-- The old space with the forwarding addresses set so far, the new space, and the allocator that
the slabs of the new space come from. -/
structure Relocation where
  allocator : SlabAllocator
  source : Space
  target : Space

namespace Relocation

/-- Nothing has been copied yet. -/
def begin (allocator : SlabAllocator) (source : Space) : Relocation :=
  { allocator, source, target := .empty (source.number + 1) }

/-- Reserve room for a layout in the new space. -/
def reserve (relocation : Relocation) (layout : Layout) :
    Except HeapError Place × Relocation :=
  match relocation.target.bump? layout with
  | some (place, target) => (.ok place, { relocation with target })
  | none =>
      match relocation.target.extend relocation.allocator layout with
      | (.ok (place, target), allocator) => (.ok place, { relocation with target, allocator })
      | (.error error, allocator) => (.error error, { relocation with allocator })

/-- Copy the object at an address of the old space and forward it to the copy. -/
def move (relocation : Relocation) (address : Address) : Except HeapError Unit × Relocation :=
  match relocation.source.object? address with
  | none => (.error (.fault (.missingObject address)), relocation)
  | some object =>
      match relocation.reserve object.layout with
      | (.error error, relocation) => (.error error, relocation)
      | (.ok place, relocation) =>
          let copyAddress := relocation.target.nextAddress
          (.ok (),
            { relocation with
              target := relocation.target.add place (object.copyWith relocatedFlag)
              source := relocation.source.modify address fun old =>
                { old with forward := some copyAddress } })

/-- Copy the objects at several addresses in order, up to the first failure. -/
def moveAll (relocation : Relocation) : List Address → Except HeapError Unit × Relocation
  | [] => (.ok (), relocation)
  | address :: rest =>
      match relocation.move address with
      | (.ok (), relocation) => relocation.moveAll rest
      | (.error error, relocation) => (.error error, relocation)

/-- Take everything back: the old space without marks and forwarding addresses on the given objects,
and the allocator with the new slabs released, the earliest first. -/
def rollBack (relocation : Relocation) (live : List Address) : Space × SlabAllocator :=
  (live.foldl (fun space address => space.modify address Object.unmark) relocation.source,
    relocation.allocator.releaseAll relocation.target.slabs.reverse)

end Relocation

namespace Space

/-- Where the object at an address of an old space was copied to. -/
def forwardOf (source : Space) (address : Address) : Option Address :=
  (source.object? address).bind Object.forward

/-- Point the references of the copies of the given objects of an old space at copies, and the
handles that own the copies at them. -/
def fixUp (source target : Space) (handles : HandleTable Address) :
    List Address → Except HeapError (Space × HandleTable Address)
  | [] => .ok (target, handles)
  | address :: rest =>
      match source.forwardOf address with
      | none => .error (.fault (.missingObject address))
      | some copyAddress =>
          match (target.object? copyAddress).map Object.owner with
          | none => .error (.fault (.missingObject copyAddress))
          | some owner =>
              match handles.update owner copyAddress with
              | (.error error, _) => .error error
              | (.ok (), handles) =>
                  source.fixUp
                    (target.modify copyAddress fun copy => copy.redirect source.forwardOf)
                    handles rest

/-- Fixing up redirects one copy and its handle, and then the others. -/
theorem fixUp_cons_eq_ok {source target fixed : Space} {handles updated : HandleTable Address}
    {address : Address} {rest : List Address}
    (fixes : source.fixUp target handles (address :: rest) = .ok (fixed, updated)) :
    ∃ copyAddress owner first, source.forwardOf address = some copyAddress ∧
      (target.object? copyAddress).map Object.owner = some owner ∧
      handles.update owner copyAddress = (.ok (), first) ∧
      source.fixUp (target.modify copyAddress fun copy => copy.redirect source.forwardOf) first
        rest = .ok (fixed, updated) := by
  unfold fixUp at fixes
  split at fixes
  · cases fixes
  · next copyAddress forwarded =>
    split at fixes
    · cases fixes
    · next owner owned =>
      split at fixes
      · cases fixes
      · next first ran => exact ⟨copyAddress, owner, first, forwarded, owned, ran, fixes⟩

end Space

end CompactingHeap
