import CompactingHeap.Heap.Relocation

/-!
# Collection

A collection marks what is reachable, relocates it, and sweeps: the handles of objects that were not
copied become stale and the old slabs are given back.  It runs to completion in one step.  If the
survivors find no room it is abandoned, and apart from the allocator's books nothing has changed.
-/

namespace CompactingHeap

/-- Is there a copy made by the present collection at an address? -/
def Space.isCopy (space : Space) (address : Address) : Bool :=
  match space.object? address with
  | some object => object.flags &&& relocatedFlag != 0
  | none => false

/-- Clear the flags of the objects at several addresses. -/
def Space.clearFlags (space : Space) (addresses : List Address) : Space :=
  addresses.foldl (fun space address => space.modify address fun copy => { copy with flags := 0 })
    space

namespace HandleTable

/-- The live slots whose objects were left behind, in slot order. -/
def leftBehind (handles : HandleTable Address) (space : Space) : List UInt32 :=
  (handles.occupied.filter fun slot => !space.isCopy slot.2).map Prod.fst

/-- Vacate slots in order. -/
def recycleAll (handles : HandleTable Address) :
    List UInt32 → Except HeapError (HandleTable Address)
  | [] => .ok handles
  | index :: rest =>
      match handles.recycle index with
      | (.ok (), handles) => handles.recycleAll rest
      | (.error error, _) => .error error

end HandleTable

namespace Heap

/-- The end of a collection: the copies of the live objects replace the old space. -/
def finishCollection (heap : Heap) (relocation : Relocation) (live : List Address)
    (liveBytes : Nat) : Except HeapError Heap := do
  let (target, handles) ← relocation.source.fixUp relocation.target heap.handles live
  let dead := handles.leftBehind target
  let swept ← handles.recycleAll dead
  return { heap with
    allocator := relocation.allocator.releaseAll heap.space.slabs.reverse
    space := target.clearFlags (handles.occupied.map Prod.snd)
    handles := swept
    phase := .idle
    threshold := heap.config.thresholdAfter liveBytes
    counters := { heap.counters with
      collections := heap.counters.collections + 1
      bytesCopied := heap.counters.bytesCopied + liveBytes
      objectsReclaimed := heap.counters.objectsReclaimed + dead.length
      liveBytes := liveBytes } }

/-- A collection ends well if the references are fixed up and the slots left behind vacated. -/
theorem finishCollection_eq_ok_iff {heap finish : Heap} {relocation : Relocation}
    {live : List Address} {liveBytes : Nat} :
    heap.finishCollection relocation live liveBytes = .ok finish ↔
      ∃ target handles swept,
        relocation.source.fixUp relocation.target heap.handles live = .ok (target, handles) ∧
        handles.recycleAll (handles.leftBehind target) = .ok swept ∧
        { heap with
          allocator := relocation.allocator.releaseAll heap.space.slabs.reverse
          space := target.clearFlags (handles.occupied.map Prod.snd)
          handles := swept
          phase := .idle
          threshold := heap.config.thresholdAfter liveBytes
          counters := { heap.counters with
            collections := heap.counters.collections + 1
            bytesCopied := heap.counters.bytesCopied + liveBytes
            objectsReclaimed := heap.counters.objectsReclaimed + (handles.leftBehind target).length
            liveBytes := liveBytes } } = finish := by
  unfold finishCollection
  constructor
  · intro finishes
    dsimp only [bind, Except.bind] at finishes
    split at finishes
    · cases finishes
    · next fixed fixes =>
      split at finishes
      · cases finishes
      · next swept sweeps =>
        cases finishes
        exact ⟨fixed.1, fixed.2, swept, fixes, sweeps, rfl⟩
  · rintro ⟨target, handles, swept, fixes, sweeps, rfl⟩
    rw [fixes]
    dsimp only [bind, Except.bind]
    rw [sweeps]
    rfl

/-- Run a full collection. -/
def collectNow (heap : Heap) : Except HeapError Unit × Heap :=
  let heap := { heap with phase := .marking }
  let marking := heap.mark
  let live := marking.live.toList
  let liveBytes := marking.liveBytes
  let heap := { heap with space := marking.space, phase := .relocating }
  match (Relocation.begin heap.allocator heap.space).moveAll live with
  | (.error error, relocation) =>
      let (space, allocator) := relocation.rollBack live
      (.error error, { heap with space, allocator, phase := .idle })
  | (.ok (), relocation) =>
      let heap := { heap with phase := .sweeping }
      match heap.finishCollection relocation live liveBytes with
      | .ok collected => (.ok (), collected)
      | .error error => (.error error, heap)

/-- Run a full collection as a program. -/
def collect : HeapM Unit :=
  ExceptT.mk fun heap => heap.collectNow

end Heap

end CompactingHeap
