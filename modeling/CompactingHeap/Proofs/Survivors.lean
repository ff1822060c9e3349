import Mathlib.Algebra.GroupWithZero.Nat
import CompactingHeap.Proofs.Completion
import CompactingHeap.Proofs.Reclamation
import CompactingHeap.Proofs.Transparency

/-!
# Survivors

The objects that a collection marks are told by their handles, in the order in which they are
discovered.  These are the handles that are kept, each once, and the live ones after the
collection, so the bytes that the collection counts as live are the bytes of all objects
afterwards.
-/

namespace CompactingHeap

/-- The layouts of the objects at several addresses. -/
def Space.layoutsAt (space : Space) (addresses : List Address) : List Layout :=
  (addresses.filterMap space.object?).map Object.layout

/-- The bytes that a marking counts are those of the marked objects. -/
theorem Marking.liveBytes_eq (marking : Marking) :
    marking.liveBytes = ((marking.space.layoutsAt marking.live.toList).map Layout.size).sum := by
  unfold liveBytes Space.layoutsAt
  rw [List.map_map, List.sum_eq_foldl, List.foldl_map]
  rfl

namespace Heap

/-- The layout of the object that a handle names. -/
def layoutOf (heap : Heap) (handle : Handle) : Except HeapError Layout :=
  (heap.objectOf handle).map Object.layout

/-- The bytes that the object of a handle takes, none if the handle is stale. -/
def sizeAt (heap : Heap) (handle : Handle) : Nat :=
  match heap.layoutOf handle with
  | .ok layout => layout.size
  | .error _ => 0

/-- The handles of the objects that a collection marks, in the order in which they are
discovered. -/
def survivors (heap : Heap) : List Handle :=
  heap.mark.live.toList.filterMap heap.handleOf?

section
variable {heap : Heap} (sound : heap.Sound)
include sound

/-- Every marked object has a handle. -/
theorem Sound.exists_handleOf? {address : Address} (member : address ∈ heap.mark.live.toList) :
    ∃ object handle holds, heap.space.object? address = some object ∧
      heap.handles.find handle = .ok (address, holds) ∧ heap.handleOf? address = some handle := by
  obtain ⟨object, found⟩ := sound.mark.1.present address member
  obtain ⟨generation, holds, owned⟩ := sound.linked.owned address object found
  exact ⟨object, _, holds, found, owned, sound.handleOf?_eq_some_iff.mpr ⟨holds, owned⟩⟩

/-- The survivors correspond to the marked objects one by one. -/
theorem Sound.survivors_eq (position : Nat) :
    heap.survivors[position]? = heap.mark.live.toList[position]?.bind heap.handleOf? := by
  have handled : ∀ address ∈ heap.mark.live.toList, (heap.handleOf? address).isSome := by
    intro address member
    obtain ⟨_, handle, _, _, _, named⟩ := sound.exists_handleOf? member
    rw [named]
    rfl
  unfold survivors
  generalize heap.mark.live.toList = live at handled
  induction live generalizing position with
  | nil => simp
  | cons address rest ih =>
      obtain ⟨handle, named⟩ := Option.isSome_iff_exists.mp (handled address List.mem_cons_self)
      rw [List.filterMap_cons_some named]
      cases position with
      | zero => simp [named]
      | succ position =>
          simpa using ih position fun other member =>
            handled other (List.mem_cons_of_mem address member)

/-- The survivors are the handles that name marked objects. -/
theorem Sound.mem_survivors_iff_mark {handle : Handle} :
    handle ∈ heap.survivors ↔ ∃ address holds,
      heap.handles.find handle = .ok (address, holds) ∧ address ∈ heap.mark.live.toList := by
  unfold survivors
  rw [List.mem_filterMap]
  constructor
  · rintro ⟨address, member, named⟩
    obtain ⟨holds, found⟩ := sound.handleOf?_eq_some_iff.mp named
    exact ⟨address, holds, found, member⟩
  · rintro ⟨address, holds, found, member⟩
    exact ⟨address, member, sound.handleOf?_eq_some_iff.mpr ⟨holds, found⟩⟩

/-- The survivors are the kept handles. -/
theorem Sound.mem_survivors_iff {handle : Handle} :
    handle ∈ heap.survivors ↔ heap.Kept handle := by
  rw [sound.mem_survivors_iff_mark]
  constructor
  · rintro ⟨address, holds, found, member⟩
    exact sound.kept_of_reaches ((sound.mark.2 address).mp member) found
  · intro kept
    obtain ⟨address, holds, found, reaches⟩ := sound.reached_of_kept kept
    exact ⟨address, holds, found, (sound.mark.2 address).mpr reaches⟩

/-- No handle survives twice. -/
theorem Sound.nodup_survivors : heap.survivors.Nodup := by
  apply sound.mark.1.distinct.filterMap
  intro first second handle here there
  obtain ⟨_, firstFound⟩ := sound.handleOf?_eq_some_iff.mp here
  obtain ⟨_, secondFound⟩ := sound.handleOf?_eq_some_iff.mp there
  rw [firstFound] at secondFound
  cases secondFound
  rfl

/-- The layouts of the marked objects are those of the survivors. -/
theorem Sound.layoutsAt_mark :
    heap.mark.space.layoutsAt heap.mark.live.toList =
      heap.survivors.filterMap fun handle => (heap.layoutOf handle).toOption := by
  obtain ⟨traces, _⟩ := sound.mark
  have layouts : ∀ address ∈ heap.mark.live.toList, ∃ object handle,
      heap.mark.space.object? address = some object ∧ heap.handleOf? address = some handle ∧
        (heap.layoutOf handle).toOption = some object.layout := by
    intro address member
    obtain ⟨object, handle, holds, here, found, named⟩ := sound.exists_handleOf? member
    refine ⟨object.mark, handle, ?_, named, ?_⟩
    · rw [traces.object?, if_pos member, here, Option.map_some]
    · unfold layoutOf
      rw [objectOf_eq_ok_iff.mpr ⟨address, HandleTable.resolve_of_find found, here⟩]
      rfl
  unfold Space.layoutsAt survivors
  generalize heap.mark.live.toList = live at layouts
  induction live with
  | nil => rfl
  | cons address rest ih =>
      obtain ⟨object, handle, here, named, same⟩ := layouts address List.mem_cons_self
      rw [List.filterMap_cons_some here, List.filterMap_cons_some named, List.map_cons,
        ih fun other member => layouts other (List.mem_cons_of_mem address member)]
      exact (List.filterMap_cons_some (f := fun handle => (heap.layoutOf handle).toOption)
        same).symm

omit sound in
/-- Stale handles take no bytes. -/
theorem sum_sizeAt (heap : Heap) (handles : List Handle) :
    (handles.map heap.sizeAt).sum =
      ((handles.filterMap fun handle => (heap.layoutOf handle).toOption).map Layout.size).sum := by
  induction handles with
  | nil => rfl
  | cons handle rest ih =>
      rw [List.map_cons, List.sum_cons, ih, List.filterMap_cons]
      unfold sizeAt
      cases heap.layoutOf handle with
      | ok layout => rfl
      | error error => exact Nat.zero_add _

/-- The bytes that a marking counts are those of the survivors. -/
theorem Sound.liveBytes_mark : heap.mark.liveBytes = (heap.survivors.map heap.sizeAt).sum := by
  rw [Marking.liveBytes_eq, sound.layoutsAt_mark, sum_sizeAt]

end

section
variable {start finish : Heap} (sound : start.Sound)
  (ran : start.collectNow = (.ok (), finish))
include sound ran

/-- The survivors are the live handles after the collection. -/
theorem Sound.survivors_perm : start.survivors.Perm finish.handles.liveHandles := by
  have compacts := sound.compacts_mark ran
  have bounded : finish.handles.slots ≤ 2 ^ 32 := by
    rw [compacts.slots]
    exact Nat.le_of_lt sound.bounded
  apply (List.perm_ext_iff_of_nodup sound.nodup_survivors
    (HandleTable.nodup_liveHandles bounded)).mpr
  intro handle
  rw [sound.mem_survivors_iff_mark, HandleTable.mem_liveHandles_iff bounded, compacts.isLive_iff]

/-- A survivor keeps its layout. -/
theorem Sound.layoutOf_survivor {handle : Handle} (survives : handle ∈ start.survivors) :
    finish.layoutOf handle = start.layoutOf handle := by
  have compacts := sound.compacts_mark ran
  have alive := compacts.isLive_iff.mpr (sound.mem_survivors_iff_mark.mp survives)
  obtain ⟨address, object, _, _, before, after⟩ := compacts.objectOf sound alive
  unfold layoutOf
  rw [before, after]
  simp only [Except.map, Object.layout_redirect]

omit sound in
/-- The live bytes of a completed collection are those that the marking counts. -/
theorem liveBytes_of_collectNow : finish.stats.liveBytes = start.mark.liveBytes := by
  obtain ⟨relocation, fixed, updated, completes⟩ := completes_of_ok ran
  exact congrArg Counters.liveBytes completes.counters

/-- The live bytes of a completed collection are those of all objects that are live afterwards. -/
theorem Sound.liveBytes_collected :
    finish.counters.liveBytes = (finish.handles.liveHandles.map finish.sizeAt).sum := by
  rw [show finish.counters.liveBytes = start.mark.liveBytes from liveBytes_of_collectNow ran,
    sound.liveBytes_mark, ← ((sound.survivors_perm ran).map finish.sizeAt).sum_nat]
  congr 1
  apply List.map_congr_left
  intro handle survives
  unfold sizeAt
  rw [sound.layoutOf_survivor ran survives]

end

end Heap

end CompactingHeap
