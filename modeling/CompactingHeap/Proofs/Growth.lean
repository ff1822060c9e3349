import CompactingHeap.Proofs.Course

/-!
# The handle table never shrinks

No operation takes handle slots away, and only an allocation adds one.  So if there are fewer than
`2 ^ 32` slots at the end of a course, then there were all along.
-/

namespace CompactingHeap

namespace HandleTable

theorem slots_recycle {table next : HandleTable Address} {index : UInt32}
    (recycles : table.recycle index = (.ok (), next)) : next.slots = table.slots := by
  unfold recycle at recycles
  split at recycles
  · cases recycles
    simp [slots]
  · cases recycles

theorem slots_recycleAll {table next : HandleTable Address} {dead : List UInt32}
    (recycles : table.recycleAll dead = .ok next) : next.slots = table.slots := by
  induction dead generalizing table with
  | nil =>
      cases recycles
      rfl
  | cons index rest ih =>
      unfold recycleAll at recycles
      split at recycles
      · next first ran => exact (ih recycles).trans (slots_recycle ran)
      · cases recycles

theorem slots_update {table next : HandleTable Address} {index : UInt32} {address : Address}
    (updates : table.update index address = (.ok (), next)) : next.slots = table.slots := by
  unfold update at updates
  split at updates
  · cases updates
    simp [slots]
  · cases updates

end HandleTable

theorem Space.slots_fixUp {source target fixed : Space} {handles updated : HandleTable Address}
    {live : List Address} (fixes : source.fixUp target handles live = .ok (fixed, updated)) :
    updated.slots = handles.slots := by
  induction live generalizing target handles with
  | nil =>
      cases fixes
      rfl
  | cons address rest ih =>
      obtain ⟨_, _, first, _, _, ran, fixes⟩ := Space.fixUp_cons_eq_ok fixes
      exact (ih fixes).trans (HandleTable.slots_update ran)

namespace Heap

/-- A collection makes no new slots and takes none away. -/
theorem slots_collectNow (heap : Heap) : heap.collectNow.2.handles.slots = heap.handles.slots := by
  unfold collectNow
  dsimp only
  split
  · rfl
  · next relocation ran =>
    split
    · next collected finishes =>
      obtain ⟨fixed, updated, swept, fixes, sweeps, rfl⟩ := finishCollection_eq_ok_iff.mp finishes
      exact (HandleTable.slots_recycleAll sweeps).trans (Space.slots_fixUp fixes)
    · rfl

/-- Finding room does not touch the handles. -/
theorem FindsRoom.handles {heap roomy : Heap} {layout : Layout} {place : Place}
    (finds : heap.FindsRoom layout place roomy) : roomy.handles = heap.handles := by
  cases finds with
  | bumped ran =>
      obtain ⟨_, _, rfl⟩ := run_bump?_eq_some ran
      rfl
  | grown ran =>
      obtain ⟨_, _, _, rfl⟩ := run_grow_eq_ok ran
      rfl

theorem slots_le_settle (place : Place) (object : HeapObject) (heap : Heap) :
    heap.handles.slots ≤ ((settle place object).run heap).2.handles.slots := by
  have grows := heap.handles.slots_le_mint heap.space.nextAddress
  rw [run_settle]
  rcases mints : heap.handles.mint heap.space.nextAddress with ⟨_ | handle, handles⟩
  · rw [mints] at grows
    exact grows
  · rw [mints] at grows
    exact grows

/-- A quiet step takes no slots away. -/
theorem Quiet.slots_le {heap next : Heap} (quiet : Quiet heap next) :
    heap.handles.slots ≤ next.handles.slots := by
  cases quiet with
  | allocated finds ran =>
      have grows := slots_le_settle _ _ _ |>.trans_eq (congrArg (fun r => r.2.handles.slots) ran)
      rwa [finds.handles] at grows
  | refused laidOut ran =>
      obtain ⟨_, _, rfl⟩ := run_grow_eq_error ran
      exact Nat.le_refl _
  | abandoned ran =>
      have same := heap.slots_collectNow
      rw [ran] at same
      exact Nat.le_of_eq same.symm
  | retained ran =>
      obtain ⟨address, holds, _, rfl⟩ := HandleTable.retain_eq_ok ran
      exact Nat.le_of_eq (HandleTable.slots_setSlot _ _ _ _).symm
  | released ran =>
      obtain ⟨address, holds, _, _, rfl⟩ := HandleTable.release_eq_ok ran
      exact Nat.le_of_eq (HandleTable.slots_setSlot _ _ _ _).symm
  | _ => exact Nat.le_refl _

/-- A course takes no slots away. -/
theorem Course.slots_le {heap last : Heap} {log : List (Heap × Heap)}
    (course : Course heap log last) : heap.handles.slots ≤ last.handles.slots := by
  induction course with
  | done heap => exact Nat.le_refl _
  | quiet step rest ih => exact Nat.le_trans step.slots_le ih
  | @collected heap next last log ran rest ih =>
      have same := heap.slots_collectNow
      rw [ran] at same
      exact Nat.le_trans (Nat.le_of_eq same.symm) ih

end Heap

end CompactingHeap
