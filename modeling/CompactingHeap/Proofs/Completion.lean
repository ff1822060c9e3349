import CompactingHeap.Proofs.Collection
import CompactingHeap.Proofs.Moves

/-!
# The stages of a completed collection

A collection that completes has gone through its stages without a failure: the survivors have been
moved, their copies fixed up, and the slots left behind vacated.  What it leaves is told by the
states between the stages.  The copies lie where they were moved to, in the slabs of the new space,
and the slabs of the old space are given back.
-/

namespace CompactingHeap

namespace Space

/-- Where the objects of a space lie, in the order in which they were placed. -/
def places (space : Space) : List Place :=
  space.residents.toList.map Resident.place

/-- Changing an object moves nothing. -/
@[simp]
theorem places_modify (space : Space) (address : Address) (f : HeapObject → HeapObject) :
    (space.modify address f).places = space.places := by
  unfold modify
  split
  · apply List.ext_getElem?
    intro position
    simp only [places, List.getElem?_map, Array.getElem?_toList, Array.getElem?_modify]
    split
    · rw [Option.map_map]
      rfl
    · rfl
  · rfl

@[simp]
theorem places_add (space : Space) (place : Place) (object : HeapObject) :
    (space.add place object).places = space.places ++ [place] := by
  simp [places, add]

/-- Fixing up moves no copy. -/
theorem laidOut_fixUp {source target fixed : Space} {handles updated : HandleTable Address}
    {live : List Address} (fixes : source.fixUp target handles live = .ok (fixed, updated)) :
    fixed.slabs = target.slabs ∧ fixed.places = target.places ∧
      ∀ address, fixed.footprint? address = target.footprint? address := by
  induction live generalizing target handles with
  | nil =>
      cases fixes
      exact ⟨rfl, rfl, fun _ => rfl⟩
  | cons address rest ih =>
      obtain ⟨_, _, first, _, _, _, fixes⟩ := fixUp_cons_eq_ok fixes
      obtain ⟨slabs, places, footprints⟩ := ih fixes
      refine ⟨slabs.trans (slabs_modify _ _ _), places.trans (places_modify _ _ _), ?_⟩
      intro other
      rw [footprints]
      exact footprint?_modify _ _ (Object.layout_redirect · _) other

theorem places_clearFlags (space : Space) (addresses : List Address) :
    (space.clearFlags addresses).places = space.places := by
  unfold clearFlags
  induction addresses generalizing space with
  | nil => rfl
  | cons address rest ih => rw [List.foldl_cons, ih, places_modify]

/-- Clearing flags moves no object. -/
theorem footprint?_clearFlags (space : Space) (addresses : List Address) (address : Address) :
    (space.clearFlags addresses).footprint? address = space.footprint? address := by
  unfold footprint?
  rw [resident?_clearFlags]
  cases space.resident? address <;> split <;> rfl

end Space

namespace Heap

/-- The states between the stages of a collection that completes: all survivors have been moved,
then the copies have been fixed up with the handles, and then the slots left behind have been
vacated. -/
structure Completes (start finish : Heap) (relocation : Relocation) (fixed : Space)
    (updated : HandleTable Address) : Prop where
  moved : (Relocation.begin start.allocator start.mark.space).moveAll start.mark.live.toList =
    (.ok (), relocation)
  fixedUp : relocation.source.fixUp relocation.target start.handles start.mark.live.toList =
    .ok (fixed, updated)
  swept : updated.recycleAll (updated.leftBehind fixed) = .ok finish.handles
  space : finish.space = fixed.clearFlags (updated.occupied.map Prod.snd)
  allocator : finish.allocator = relocation.allocator.releaseAll start.mark.space.slabs.reverse
  counters : finish.counters = { start.counters with
    collections := start.counters.collections + 1
    bytesCopied := start.counters.bytesCopied + start.mark.liveBytes
    objectsReclaimed := start.counters.objectsReclaimed + (updated.leftBehind fixed).length
    liveBytes := start.mark.liveBytes }

/-- A collection that completes goes through all stages. -/
theorem completes_of_ok {start finish : Heap} (ran : start.collectNow = (.ok (), finish)) :
    ∃ relocation fixed updated, start.Completes finish relocation fixed updated := by
  have sameMark : ({ start with phase := .marking } : Heap).mark = start.mark := rfl
  unfold collectNow at ran
  dsimp only at ran
  rw [sameMark] at ran
  split at ran
  · cases ran
  · next relocation moves =>
    split at ran
    · next collected finishes =>
      cases ran
      obtain ⟨fixed, updated, swept, fixes, sweeps, rfl⟩ := finishCollection_eq_ok_iff.mp finishes
      exact ⟨relocation, fixed, updated, moves, fixes, sweeps, rfl, rfl, rfl⟩
    · cases ran

section
variable {start finish : Heap} {relocation : Relocation} {fixed : Space}
  {updated : HandleTable Address}
  (completes : start.Completes finish relocation fixed updated)
include completes

/-- The slabs afterwards are those that the copies were put into. -/
theorem Completes.slabs : finish.space.slabs = relocation.target.slabs := by
  rw [completes.space]
  exact (Space.slabs_foldl_modify _ _ _).trans (Space.laidOut_fixUp completes.fixedUp).1

/-- The objects lie where their copies were put. -/
theorem Completes.footprint? (address : Address) :
    finish.space.footprint? address = relocation.target.footprint? address := by
  rw [completes.space, Space.footprint?_clearFlags]
  exact (Space.laidOut_fixUp completes.fixedUp).2.2 address

/-- The objects lie in the order in which their copies were put down. -/
theorem Completes.places : finish.space.places = relocation.target.places := by
  rw [completes.space, Space.places_clearFlags]
  exact (Space.laidOut_fixUp completes.fixedUp).2.1

end

/-- What holds when the relocation of the survivors begins, and is preserved by every move, holds
when they have all been moved; and if one of them cannot be moved, it holds just before that. -/
theorem Sound.moveAll_induction {heap : Heap} (sound : heap.Sound)
    {motive : List Address → Relocation → Prop}
    (begins : motive [] (Relocation.begin heap.allocator heap.mark.space))
    (step : ∀ relocation moved address object,
      Relocation.Moved heap.mark.space heap.allocator relocation moved →
      heap.mark.space.object? address = some object → motive moved relocation →
      ∀ next, relocation.Moves address object (.ok (), next) → motive (moved ++ [address]) next) :
    (∀ last, (Relocation.begin heap.allocator heap.mark.space).moveAll heap.mark.live.toList =
        (.ok (), last) → motive heap.mark.live.toList last) ∧
      ∀ error last, (Relocation.begin heap.allocator heap.mark.space).moveAll
        heap.mark.live.toList = (.error error, last) →
          Relocation.Stops heap.mark.space heap.allocator heap.mark.live.toList motive error
            last := by
  obtain ⟨traces, _⟩ := sound.mark
  have distinct : ([] ++ heap.mark.live.toList).Nodup := traces.distinct
  exact (Relocation.moved_begin sound.accounts_mark).moveAll_induction distinct
    traces.present_marked begins step

/-- Where the relocation has got through, it has moved all survivors. -/
theorem Sound.moved_of_ok {heap : Heap} (sound : heap.Sound) {relocation : Relocation}
    (ran : (Relocation.begin heap.allocator heap.mark.space).moveAll heap.mark.live.toList =
      (.ok (), relocation)) :
    relocation.Moved heap.mark.space heap.allocator heap.mark.live.toList := by
  have outcome := sound.relocates
  rw [ran] at outcome
  rcases outcome with ⟨_, moved⟩ | ⟨_, _, failed, _⟩
  · exact moved
  · cases failed

/-- A collection that fails has failed to move a survivor, and what it leaves is the heap with the
allocator that the relocation gives back. -/
theorem Sound.fails_of_error {heap next : Heap} (sound : heap.Sound) {error : HeapError}
    (ran : heap.collectNow = (.error error, next)) :
    ∃ relocation, (Relocation.begin heap.allocator heap.mark.space).moveAll
        heap.mark.live.toList = (.error error, relocation) ∧
      next = { heap with allocator := (relocation.rollBack heap.mark.live.toList).2 } := by
  obtain ⟨traces, reached⟩ := sound.mark
  have outcome := sound.relocates
  have sameMark : ({ heap with phase := .marking } : Heap).mark = heap.mark := rfl
  unfold Heap.collectNow at ran
  dsimp only at ran
  rw [sameMark] at ran
  split at ran
  · next other relocation moves =>
    cases ran
    rw [moves] at outcome
    rcases outcome with ⟨done, _⟩ | ⟨size, moved, failed, within, sofar⟩
    · cases done
    · refine ⟨relocation, moves, ?_⟩
      rw [sofar.rollBack_space traces sound.linked.rest within, ← sound.idle]
  · next relocation moves =>
    rw [moves] at outcome
    rcases outcome with ⟨_, moved⟩ | ⟨_, _, failed, _⟩
    · obtain ⟨finish, finishes, _⟩ :=
        sound.finish traces moved reached .sweeping heap.mark.liveBytes
      dsimp only at finishes ran
      rw [finishes] at ran
      cases ran
    · cases failed

end Heap

end CompactingHeap
