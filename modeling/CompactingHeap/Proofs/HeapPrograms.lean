import CompactingHeap.Proofs.Programs
import CompactingHeap.Proofs.Reading

/-!
# Tame operations of a heap

Registration, field access, holds and roots are tame.  Where a program writes a reference it has
resolved a live handle before, so the reference leads to an object; where it writes a word it has
checked that the word is plain data, so the length of a run stays as it is.
-/

namespace CompactingHeap

namespace Heap

theorem tame_register (name : String) (size align : Nat) (trace : List TraceEntry)
    (byteTail : Bool) : Tame (register name size align trace byteTail) := by
  apply Tame.of_steps
  intro heap
  unfold register
  rw [HeapM.run_bind, HeapM.run_get]
  dsimp only
  cases registers : heap.classes.register name size align trace byteTail with
  | error error => exact Steps.refl heap
  | ok registered => exact ⟨rfl, rfl, fun _ => Or.inr (Quiet.registered registers)⟩

/-! ## Fields -/

/-- Changing an object through its handle changes the object at the address that the handle
names. -/
theorem modifyObject_eq (heap : Heap) (handle : Handle) (f : HeapObject → HeapObject) :
    heap.modifyObject handle f = heap ∨
      ∃ address, heap.handles.resolve handle = .ok address ∧
        heap.modifyObject handle f = { heap with space := heap.space.modify address f } := by
  unfold modifyObject
  cases found : heap.handles.resolve handle with
  | error error => exact Or.inl rfl
  | ok address => exact Or.inr ⟨address, rfl, rfl⟩

theorem handles_modifyObject (heap : Heap) (handle : Handle) (f : HeapObject → HeapObject) :
    (heap.modifyObject handle f).handles = heap.handles := by
  rcases heap.modifyObject_eq handle f with same | ⟨address, _, same⟩
  · rw [same]
  · rw [same]

/-- Changing an object through its handle is a step, if changing it at its address is quiet. -/
theorem steps_modifyObject {heap : Heap} {handle : Handle} {f : HeapObject → HeapObject}
    (quiet : heap.Sound → ∀ address, heap.handles.resolve handle = .ok address →
      Quiet heap { heap with space := heap.space.modify address f }) :
    heap.Steps (heap.modifyObject handle f) := by
  constructor
  · rw [handles_modifyObject]
  · rcases heap.modifyObject_eq handle f with same | ⟨_, _, same⟩
    · rw [same]
    · rw [same]
  · intro sound
    rcases heap.modifyObject_eq handle f with same | ⟨address, resolved, same⟩
    · exact Or.inl same
    · rw [same]
      exact Or.inr (quiet sound address resolved)

/-- A checked write of a reference is tame, whatever the check and the offset. -/
theorem tame_writeSlot {γ : Type} (check : Heap → Except HeapError γ) (offset : γ → Nat)
    (handle : γ → Handle) (value : Option Handle) :
    Tame (do
      let checked ← HeapM.ask check
      let target ← HeapM.ask fun heap => heap.addressOf value
      modify fun heap =>
        heap.modifyObject (handle checked)
          fun object => object.setSlot (offset checked) target) := by
  apply Tame.of_steps
  intro heap
  rw [HeapM.run_bind, HeapM.run_ask]
  cases check heap with
  | error error => exact Steps.refl heap
  | ok checked =>
      dsimp only
      rw [HeapM.run_bind, HeapM.run_ask]
      cases found : heap.addressOf value with
      | error error => exact Steps.refl heap
      | ok target =>
          dsimp only
          rw [HeapM.run_modify]
          apply steps_modifyObject
          intro sound address _
          apply @Quiet.slotsWritten heap address [(offset checked, target)]
          intro other element member
          cases List.mem_singleton.mp member
          exact sound.addressOf_present found rfl

theorem tame_writeRef (handle : Handle) (offset : Nat) (value : Option Handle) :
    Tame (writeRef handle offset value) :=
  tame_writeSlot (fun heap => heap.withRefField handle offset) (fun _ => offset) (fun _ => handle)
    value

theorem tame_runSet (handle : Handle) (index : Nat) (value : Option Handle) :
    Tame (runSet handle index value) :=
  tame_writeSlot (fun heap => heap.runElement handle index) (fun checked => checked.2)
    (fun _ => handle) value

/-- Writing a word that is not the length of the run of its object is a step. -/
theorem steps_setWord {heap : Heap} {handle : Handle} {offset : Nat}
    (apart : ∀ object run, heap.objectOf handle = .ok object →
      object.descriptor.runOffset? = some run → offset / wordBytes ≠ run / wordBytes)
    (value : UInt64) :
    heap.Steps (heap.modifyObject handle fun object => object.setWord offset value) := by
  apply steps_modifyObject
  intro _ address resolved
  apply Quiet.wordWritten
  intro object run found
  exact apart object run (objectOf_eq_ok_iff.mpr ⟨address, resolved, found⟩)

theorem tame_writeWord (handle : Handle) (offset : Nat) (value : UInt64) :
    Tame (writeWord handle offset value) := by
  apply Tame.of_steps
  intro heap
  unfold writeWord
  rw [HeapM.run_bind, HeapM.run_ask]
  cases checked : heap.withDataWord handle offset with
  | error error => exact Steps.refl heap
  | ok object =>
      dsimp only
      rw [HeapM.run_modify]
      rcases withDataWord_eq_ok_iff.mp checked with ⟨found, plain⟩
      apply steps_setWord
      intro other run named here
      rw [found] at named
      cases named
      exact Descriptor.isDataWord_apart_from_run plain here

/-- Copying elements of a run is a step. -/
theorem steps_copyRun {heap : Heap} {source : Handle} {sourceObject : HeapObject}
    {sourceOffset count : Nat} (sourceRun : heap.runOf source = .ok (sourceObject, sourceOffset))
    (inside : count ≤ sourceObject.runLength) (target : Handle) (targetOffset : Nat) :
    heap.Steps (heap.modifyObject target fun object =>
      (List.range count).foldl
        (fun copy index => copy.setSlot (runSlot targetOffset index)
          (sourceObject.slot (runSlot sourceOffset index)))
        object) := by
  let writes := (List.range count).map fun index =>
    (runSlot targetOffset index, sourceObject.slot (runSlot sourceOffset index))
  have asWrites : (fun object : HeapObject => (List.range count).foldl
      (fun copy index => copy.setSlot (runSlot targetOffset index)
        (sourceObject.slot (runSlot sourceOffset index))) object) =
      fun object => writes.foldl (fun written write => written.setSlot write.1 write.2) object := by
    funext object
    simp only [writes, List.foldl_map]
  rw [asWrites]
  apply steps_modifyObject
  intro sound address _
  apply Quiet.slotsWritten
  intro offset element member
  rcases runOf_eq_ok_iff.mp sourceRun with ⟨found, run⟩
  rcases objectOf_eq_ok_iff.mp found with ⟨sourceAddress, _, here⟩
  rcases List.mem_map.mp member with ⟨index, below, written⟩
  have small := List.mem_range.mp below
  exact sound.linked.closed sourceAddress sourceObject here element
    (mem_targets_of_element run (Nat.lt_of_lt_of_le small inside) (congrArg Prod.snd written))

theorem tame_copyRun (source target : Handle) (count : Nat) :
    Tame (copyRun source target count) := by
  apply Tame.of_steps
  intro heap
  unfold copyRun
  rw [HeapM.run_bind, HeapM.run_ask]
  cases sourceRun : heap.runOf source with
  | error error => exact Steps.refl heap
  | ok from' =>
      dsimp only
      rw [HeapM.run_bind, HeapM.run_ask]
      cases heap.runOf target with
      | error error => exact Steps.refl heap
      | ok into =>
          dsimp only
          split
          · exact Steps.refl heap
          · next enough =>
            have inside : count ≤ from'.1.runLength := by
              omega
            exact steps_copyRun sourceRun inside target into.2

/-! ## Holds and roots -/

theorem tame_onHandles_retain (handle : Handle) :
    Tame (onHandles fun handles => handles.retain handle) := by
  apply Tame.of_steps
  intro heap
  rw [run_onHandles]
  rcases ran : heap.handles.retain handle with ⟨error | _, handles⟩
  · unfold HandleTable.retain at ran
    split at ran <;> cases ran
    exact Steps.refl heap
  · constructor
    · obtain ⟨address, holds, _, rfl⟩ := HandleTable.retain_eq_ok ran
      exact HandleTable.slots_setSlot _ _ _ _
    · rfl
    · exact fun _ => Or.inr (Quiet.retained ran)

theorem tame_onHandles_release (handle : Handle) :
    Tame (onHandles fun handles => handles.release handle) := by
  apply Tame.of_steps
  intro heap
  rw [run_onHandles]
  rcases ran : heap.handles.release handle with ⟨error | _, handles⟩
  · rw [HandleTable.release_eq_error ran]
    exact Steps.refl heap
  · constructor
    · obtain ⟨address, holds, _, _, rfl⟩ := HandleTable.release_eq_ok ran
      exact HandleTable.slots_setSlot _ _ _ _
    · rfl
    · exact fun _ => Or.inr (Quiet.released ran)

theorem tame_retain (handle : Handle) : Tame (retain handle) := by
  unfold retain
  apply Tame.get.bind
  intro heap
  exact (Tame.pure ()).ite (tame_onHandles_retain handle)

theorem tame_release (handle : Handle) : Tame (release handle) := by
  unfold release
  apply Tame.get.bind
  intro heap
  exact (Tame.pure ()).ite (tame_onHandles_release handle)

theorem tame_releaseAll (handles : List Handle) : Tame (releaseAll handles) := by
  induction handles with
  | nil => exact Tame.pure ()
  | cons handle rest ih => exact (tame_release handle).bind fun _ => ih

theorem tame_retainAfter (taken handles : List Handle) : Tame (retainAfter taken handles) := by
  induction handles generalizing taken with
  | nil => exact Tame.pure ()
  | cons handle rest ih =>
      unfold retainAfter
      apply (tame_retain handle).attempt.bind
      intro outcome
      cases outcome with
      | ok value => exact ih (taken ++ [handle])
      | error error => exact (tame_releaseAll taken).bind fun _ => Tame.throw error

/-- Holding objects while a tame program runs is tame. -/
theorem tame_withHeld {γ : Type} (handles : List Handle) {body : HeapM γ} (tame : Tame body) :
    Tame (withHeld handles body) := by
  unfold withHeld
  apply (tame_retainAfter [] handles).bind
  intro _
  apply tame.attempt.bind
  intro outcome
  cases outcome with
  | ok value => exact (tame_releaseAll handles).bind fun _ => Tame.pure value
  | error error => exact (tame_releaseAll handles).bind fun _ => Tame.throw error

theorem tame_registerRoot (source : RootSource) (handle : Handle) :
    Tame (registerRoot source handle) := by
  apply Tame.of_steps
  intro heap
  unfold registerRoot
  rw [HeapM.run_bind, HeapM.run_ask]
  cases found : heap.handles.resolve handle with
  | error error => exact Steps.refl heap
  | ok address =>
      have live : heap.handles.isLive handle = true := by
        unfold HandleTable.isLive
        rw [found]
        rfl
      refine ⟨rfl, rfl, fun _ => Or.inr (Quiet.rooted ?_)⟩
      intro root member
      rcases List.mem_cons.mp member with rfl | old
      · exact Or.inr live
      · exact Or.inl old

/-- Changing the roots without adding registrations is a step. -/
theorem steps_roots {heap : Heap} {roots : RootSet}
    (old : ∀ root ∈ roots.latest, root ∈ heap.roots.latest) : heap.Steps { heap with roots } :=
  ⟨rfl, rfl, fun _ => Or.inr (Quiet.rooted fun root member => Or.inl (old root member))⟩

theorem tame_unregisterRoot (source : RootSource) (handle : Handle) :
    Tame (unregisterRoot source handle) := by
  apply Tame.of_steps
  intro heap
  unfold unregisterRoot
  rw [HeapM.run_bind, HeapM.run_get]
  dsimp only
  cases removed : heap.roots.unregister source handle with
  | none => exact Steps.refl heap
  | some roots =>
      apply steps_roots
      intro root member
      unfold RootSet.unregister at removed
      dsimp only at removed
      split at removed
      · cases removed
        exact List.mem_of_mem_erase member
      · cases removed

theorem tame_unregisterSource (source : RootSource) : Tame (unregisterSource source) := by
  apply Tame.of_steps
  intro heap
  apply steps_roots
  intro root member
  exact (List.mem_filter.mp member).1

theorem tame_addScanner (report : List Handle) : Tame (addScanner report) :=
  Tame.of_steps fun _ => steps_roots fun _ member => member

theorem tame_setReport (id : ScannerId) (report : List Handle) : Tame (setReport id report) :=
  Tame.of_steps fun _ => steps_roots fun _ member => member

theorem tame_removeScanner (id : ScannerId) : Tame (removeScanner id) := by
  apply Tame.of_steps
  intro heap
  unfold removeScanner
  rw [HeapM.run_bind, HeapM.run_get]
  dsimp only
  cases removed : heap.roots.removeScanner id with
  | none => exact Steps.refl heap
  | some roots =>
      apply steps_roots
      intro root member
      unfold RootSet.removeScanner at removed
      split at removed
      · cases removed
        exact member
      · cases removed

end Heap

end CompactingHeap
