import CompactingHeap.Proofs.Arrays

/-!
# Arrays that own their runs

An array owns its backing run if no other array has it for its own.  An array that has been made
owns its run, and so does one that has grown or has been written.  A push that fails leaves the
list as it was.
-/

namespace CompactingHeap

open Heap

namespace Heap

/-- The array shows the list, and no other array or table has its parts for storage. -/
structure Owns (heap : Heap) (array : RefArray) (elements : List (Option Handle)) (capacity : Nat)
    (storage : Option Handle) : Prop where
  lists : heap.Lists array elements capacity storage
  apart : heap.Apart (Lists.parts array storage)

variable {heap next : Heap} {array : RefArray} {elements others : List (Option Handle)}
  {capacity more : Nat} {storage : Option Handle}

/-- Only a field of the class shows as a reference. -/
theorem ref_eq_none {handle : Handle} {view : View} (seen : heap.view? handle = some view)
    {offset : Nat} (other : .ref offset ∉ view.descriptor.trace) : view.ref offset = none := by
  rcases view?_eq_some_iff.mp seen with ⟨object, _, rfl⟩
  rw [Object.ref_view]
  exact if_neg other

namespace Owns

section

variable (owns : heap.Owns array elements capacity storage)

include owns

/-- An array that is written still owns its run. -/
theorem written (sound : heap.Sound) (alters : heap.Alters next (Lists.parts array storage))
    (lists : next.Lists array others capacity storage) :
    next.Owns array others capacity storage := by
  refine ⟨lists, owns.apart.alters sound alters (fun _ member => member) ?_⟩
  intro handle part char
  rw [owns.lists.classOf_part part] at char
  split at char <;> cases char

/-- An array still owns its run where everything is left alone. -/
theorem left (leaves : heap.Leaves next [] []) (live : next.isLive array.handle = true) :
    next.Owns array elements capacity storage := by
  have lists := owns.lists.of_leaves leaves (by simp) live
  refine ⟨lists, owns.apart.replaces leaves ?_⟩
  constructor
  · simp
  · simp
  · exact fun handle part => Or.inr part
  · intro handle part _
    rw [lists.classOf_part part, owns.lists.classOf_part part]
  · exact fun handle part unlisted => absurd part unlisted
  · exact fun handle part view seen => lists.sane part seen

/-- An array that has moved to a new run owns it. -/
theorem grown {grown : Handle} (leaves : heap.Leaves next [grown] [array.handle])
    (lists : next.Lists array elements more (some grown)) :
    next.Owns array elements more (some grown) := by
  refine ⟨lists, owns.apart.replaces leaves ?_⟩
  constructor
  · simp [Lists.parts]
  · simp [Lists.parts]
  · intro handle part
    rcases List.mem_cons.mp part with rfl | new
    · exact Or.inr List.mem_cons_self
    · exact Or.inl new
  · intro handle part old
    rcases List.mem_cons.mp part with rfl | new
    · rw [lists.record.classOf, owns.lists.record.classOf]
    · exact absurd new old
  · intro handle part unlisted view target seen refers
    -- what is given up is the old run, which has no field
    rcases List.mem_cons.mp part with rfl | stored
    · exact absurd List.mem_cons_self unlisted
    · obtain ⟨shown, there, vector, _⟩ :=
        (owns.lists.backed handle (Option.mem_toList.mp stored)).shown
      rw [seen] at there
      cases there
      have bare : TraceEntry.ref storageOffset ∉ view.descriptor.trace := by
        rw [vector]
        decide
      have none := ref_eq_none seen bare
      rw [none] at refers
      cases refers
  · exact fun handle part view seen => lists.sane part seen

end

/-- A new array owns its run. -/
theorem of_made (apart : heap.Apart []) (made : heap.Made next array elements capacity storage) :
    next.Owns array elements capacity storage :=
  ⟨made.lists, apart.of_new made.leaves fun _ part _ seen => made.lists.sane part seen⟩

end Owns

/-! ## Pushing -/

/-- The error says what is wrong: memory has run out, or the value is stale. -/
def Blames (heap : Heap) (value : Option Handle) (error : HeapError) : Prop :=
  heap.Present value ∧ error.IsOutOfMemory ∨
    ∃ handle, value = some handle ∧ heap.isLive handle = false ∧ error = .staleHandle handle

/-- What a push leaves that fails: the list is as it was.  If memory runs out or the value is
stale, then the capacity is as it was, too.  Nothing else goes wrong, unless a count of holds comes
to its bound. -/
structure Unpushed (heap next : Heap) (array : RefArray) (elements : List (Option Handle))
    (capacity : Nat) (value : Option Handle) (error : HeapError) : Prop where
  sound : next.Sound
  owns : ∃ more storage, next.Owns array elements more storage ∧
    (error.IsOutOfMemory ∨ ¬ heap.Present value → more = capacity)
  reason : heap.Holdable (array.handle :: value.toList) → heap.Blames value error

/-- A push puts the value behind the elements, or it fails.  The holds balance, unless a count
comes to its bound. -/
inductive Pushes (heap : Heap) (array : RefArray) (elements : List (Option Handle))
    (capacity : Nat) (value : Option Handle) : Except HeapError PUnit × Heap → Prop
  | pushed {more : Nat} {storage : Option Handle} {next : Heap} :
      next.Sound → next.Owns array (elements ++ [value]) more storage →
        (heap.Holdable (array.handle :: value.toList) → heap.Steady next []) →
        Pushes heap array elements capacity value (.ok ⟨⟩, next)
  | failed {error : HeapError} {next : Heap} :
      heap.Unpushed next array elements capacity value error →
        (heap.Holdable (array.handle :: value.toList) → heap.Undone next) →
        Pushes heap array elements capacity value (.error error, next)

/-- An array that is written where it is leaves everything steady. -/
theorem Lists.steady (lists : heap.Lists array elements capacity storage) (sound : heap.Sound)
    (alters : heap.Alters next (Lists.parts array storage))
    (written : next.Lists array others capacity storage) : heap.Steady next [] := by
  apply alters.steady sound
  intro handle part
  refine ⟨_, ?_, lists.classOf_part part, written.classOf_part part⟩
  split <;> decide

/-- A push where there is room. -/
theorem Owns.append (owns : heap.Owns array elements capacity storage) (sound : heap.Sound)
    (room : elements.length < capacity) (value : Option Handle) :
    heap.Pushes array elements capacity value
      ((array.append elements.length.toUInt64 value).run heap) := by
  by_cases present : heap.Present value
  · obtain ⟨next, ran, alters, lists⟩ := owns.lists.append sound room present
    rw [ran]
    exact Pushes.pushed (alters.sound sound) (owns.written sound alters lists)
      fun _ => owns.lists.steady sound alters lists
  · cases value with
    | none => exact absurd (by simp [Present]) present
    | some handle =>
        have stale : heap.isLive handle = false := by
          simpa [Present] using present
        rw [owns.lists.append_stale sound room stale]
        exact Pushes.failed ⟨sound, ⟨capacity, storage, owns, fun _ => rfl⟩,
          fun _ => Or.inr ⟨handle, rfl, stale, rfl⟩⟩ fun _ => Undone.refl sound

/-- A full array grows while it is held together with the value that is pushed. -/
inductive GrowsHeld (heap : Heap) (array : RefArray) (elements : List (Option Handle))
    (capacity : Nat) (value : Option Handle) : Except HeapError PUnit × Heap → Prop
  | grown {more : Nat} {storage : Option Handle} {next : Heap} :
      next.Present value → next.Owns array elements more storage → elements.length < more →
        (heap.Holdable (array.handle :: value.toList) → heap.Steady next []) →
        GrowsHeld heap array elements capacity value (.ok ⟨⟩, next)
  | failed {error : HeapError} {next : Heap} :
      heap.Unpushed next array elements capacity value error →
        (heap.Holdable (array.handle :: value.toList) → heap.Undone next) →
        GrowsHeld heap array elements capacity value (.error error, next)

/-- An array owns its run while objects are held. -/
theorem Owns.held {handles : List Handle} (owns : heap.Owns array elements capacity storage)
    {held : Heap} (holding : heap.Held held handles) :
    held.Owns array elements capacity storage := by
  have recounts := holding.adds.recounts
  exact owns.left recounts.leaves (by rw [recounts.isLive]; exact owns.lists.record.isLive)

/-- Growing is steady. -/
theorem Grows.steady {outcome : Except HeapError PUnit × Heap}
    (grows : heap.Grows array elements capacity outcome) : heap.Steady outcome.2 [] := by
  cases grows with
  | grown _ _ _ _ steady => exact steady
  | refused _ _ steady => exact steady

/-- An array that has been grown while objects were held owns its run when they have been given
back. -/
theorem Owns.afterGrowing {held after : Heap} {handles : List Handle}
    {result : Except HeapError PUnit} (owns : heap.Owns array elements capacity storage)
    (holding : heap.Held held handles) (grows : held.Grows array elements capacity (result, after))
    (lasts : after.isLive array.handle = true) (recounts : after.Recounts next) :
    ∃ stored, next.Owns array elements (if result.isOk then max (capacity * 2) 4 else capacity)
      stored := by
  have lives : next.isLive array.handle = true := (recounts.isLive array.handle).trans lasts
  cases grows with
  | grown _ _ leaves lists _ =>
      exact ⟨_, ((owns.held holding).grown leaves lists).left recounts.leaves lives⟩
  | refused _ leaves _ =>
      exact ⟨_, ((owns.held holding).left leaves lasts).left recounts.leaves lives⟩

/-- If the value is stale, nothing happens to the array. -/
theorem Owns.growHeld_stale {value : Option Handle}
    (owns : heap.Owns array elements capacity storage) (sound : heap.Sound) (nextSound : next.Sound)
    {error : HeapError} (ran : (withHeld (array.handle :: value.toList)
      (array.grow elements.length.toUInt64)).run heap = (.error error, next))
    {stale : Handle} (member : stale ∈ array.handle :: value.toList)
    (dead : heap.isLive stale = false) (recounts : heap.Recounts next) :
    heap.GrowsHeld array elements capacity value (.error error, next) := by
  have living := owns.lists.record.isLive
  have refuses (room : heap.Holdable (array.handle :: value.toList)) :=
    withHeld_of_stale (array.grow elements.length.toUInt64) member dead room
  apply GrowsHeld.failed
  · refine ⟨nextSound, ⟨capacity, storage, ?_, fun _ => rfl⟩, ?_⟩
    · exact owns.left recounts.leaves (by rw [recounts.isLive]; exact living)
    · intro room
      obtain ⟨other, member, dead, _, refused, _⟩ := refuses room
      rw [ran] at refused
      cases refused
      rcases List.mem_cons.mp member with rfl | listed
      · rw [living] at dead
        cases dead
      · exact Or.inr ⟨other, Option.mem_toList.mp listed, dead, rfl⟩
  · intro room
    obtain ⟨_, _, _, _, refused, unchanged⟩ := refuses room
    rw [ran] at refused
    cases refused
    exact unchanged.undone sound nextSound

section

variable {roots : List Handle} (value : Option Handle)
  (stays : heap.Holdable (array.handle :: value.toList) ∨ array.handle ∈ roots)

include stays

/-- What growing does while the array and the value are held.  The array lasts. -/
theorem Owns.grows_held (owns : heap.Owns array elements capacity storage)
    (assured : heap.Assured ((withHeld (array.handle :: value.toList)
      (array.grow elements.length.toUInt64)).run heap).2 roots)
    {held after : Heap} {result : Except HeapError PUnit}
    (holding : heap.Held held (array.handle :: value.toList))
    (runs : (array.grow elements.length.toUInt64).run held = (result, after)) :
    held.Grows array elements capacity (result, after) ∧ after.isLive array.handle = true := by
  have tame := array.tame_grow elements.length.toUInt64
  have inner := holding.assured tame assured runs
  have heldStays : held.Grasped array.handle ∨ array.handle ∈ roots :=
    stays.imp_left fun room => holding.grasped room array.handle List.mem_cons_self
  have lists := (owns.held holding).lists
  have grows : held.Grows array elements capacity (result, after) := by
    rw [← runs]
    apply lists.grow heldStays
    rw [runs]
    exact inner
  exact ⟨grows,
    inner.isLive_of_steady tame runs lists.record.isLive heldStays grows.steady (by simp)⟩

/-- If a hold cannot be given back after growing, then a count has come to its bound. -/
theorem Owns.growHeld_unreleased (owns : heap.Owns array elements capacity storage)
    (assured : heap.Assured ((withHeld (array.handle :: value.toList)
      (array.grow elements.length.toUInt64)).run heap).2 roots)
    {held after : Heap} {result : Except HeapError PUnit} {error : HeapError}
    (holding : heap.Held held (array.handle :: value.toList))
    (runs : (array.grow elements.length.toUInt64).run held = (result, after))
    (ran : (withHeld (array.handle :: value.toList)
      (array.grow elements.length.toUInt64)).run heap = (.error error, next))
    (nextSound : next.Sound) (recounts : after.Recounts next)
    (failed : (releaseAll (array.handle :: value.toList)).run after = (.error error, next)) :
    heap.GrowsHeld array elements capacity value (.error error, next) := by
  have grows {held after : Heap} {result : Except HeapError PUnit}
      (holding : heap.Held held (array.handle :: value.toList))
      (runs : (array.grow elements.length.toUInt64).run held = (result, after)) :=
    owns.grows_held value stays assured holding runs
  obtain ⟨grown, lasts⟩ := grows holding runs
  obtain ⟨stored, owned⟩ := owns.afterGrowing holding grown lasts recounts
  have bound : ¬ heap.Holdable (array.handle :: value.toList) := by
    apply assured.sound.not_holdable_of_unreleased holding.live assured.bounded
      (fun _ _ _ holding runs => (grows holding runs).1.steady) _ ran failed
    intro held error after holding runs
    cases (grows holding runs).1 with
    | refused => exact ⟨_, _, rfl⟩
  have other : ¬ (error.IsOutOfMemory ∨ ¬ heap.Present value) := by
    rw [not_or, not_not]
    refine ⟨releaseAll_memory failed, ?_⟩
    rintro handle rfl
    exact holding.live handle (by simp)
  exact GrowsHeld.failed
    ⟨nextSound, ⟨_, stored, owned, fun cause => absurd cause other⟩, fun room => absurd room bound⟩
    fun room => absurd room bound

theorem Owns.growHeld (owns : heap.Owns array elements capacity storage)
    (full : elements.length = capacity)
    (assured : heap.Assured ((withHeld (array.handle :: value.toList)
      (array.grow elements.length.toUInt64)).run heap).2 roots) :
    heap.GrowsHeld array elements capacity value
      ((withHeld (array.handle :: value.toList)
        (array.grow elements.length.toUInt64)).run heap) := by
  have grows {held after : Heap} {result : Except HeapError PUnit}
      (holding : heap.Held held (array.handle :: value.toList))
      (runs : (array.grow elements.length.toUInt64).run held = (result, after)) :=
    owns.grows_held value stays assured holding runs
  have nextSound := (assured.after (tame_withHeld _ (array.tame_grow elements.length.toUInt64))).1
  have holding := assured.sound.run_withHeld _ _ assured.bounded
  rcases ran : (withHeld (array.handle :: value.toList)
    (array.grow elements.length.toUInt64)).run heap with ⟨outcome, next⟩
  rw [ran] at holding nextSound
  cases holding with
  | unheld member dead recounts =>
      exact owns.growHeld_stale assured.sound nextSound ran member dead recounts
  | @ran held after _ _ holding runs _ alive drops _ =>
      obtain ⟨grown, lasts⟩ := grows holding runs
      have recounts := drops.recounts
      obtain ⟨stored, owned⟩ := owns.afterGrowing holding grown lasts recounts
      have steady (room : heap.Holdable (array.handle :: value.toList)) : heap.Steady next [] :=
        assured.sound.steady_withHeld holding.live assured.bounded
          (fun _ _ _ holding runs => (grows holding runs).1.steady) room ran
      cases grown with
      | grown _ _ _ _ _ =>
          apply GrowsHeld.grown _ owned _ steady
          · rintro handle rfl
            rw [recounts.isLive]
            exact alive handle (by simp)
          · change elements.length < max (capacity * 2) 4
            omega
      | refused _ leaves during =>
          have present : heap.Present value := by
            rintro handle rfl
            exact holding.live handle (by simp)
          exact GrowsHeld.failed
            ⟨nextSound, ⟨capacity, stored, owned, fun _ => rfl⟩,
              fun _ => Or.inl ⟨present, _, _, rfl⟩⟩
            fun room => holding.undone ⟨during, [], by simp, leaves⟩ recounts (steady room)
  | unreleased holding runs _ recounts failed =>
      exact owns.growHeld_unreleased value stays assured holding runs ran nextSound recounts failed

/-- What a push does to an array that owns its run. -/
theorem Owns.push (owns : heap.Owns array elements capacity storage)
    (assured : heap.Assured ((array.push value).run heap).2 roots) :
    heap.Pushes array elements capacity value ((array.push value).run heap) := by
  rw [RefArray.push_eq, HeapM.run_bind, HeapM.run_ask, owns.lists.lengthWord] at assured ⊢
  dsimp only at assured ⊢
  rw [HeapM.run_bind, HeapM.run_ask, owns.lists.capacityWord] at assured ⊢
  dsimp only at assured ⊢
  have same : elements.length.toUInt64 = capacity.toUInt64 ↔ elements.length = capacity := by
    rw [← UInt64.toNat_inj, toNat_toUInt64 owns.lists.small_length, toNat_toUInt64 owns.lists.small]
  by_cases full : elements.length = capacity
  · rw [if_pos (same.mpr full)] at assured ⊢
    have stages := assured.stages (tame_withHeld _ (array.tame_grow elements.length.toUInt64))
      fun _ => array.tame_append elements.length.toUInt64 value
    have grows := owns.growHeld value stays full
    generalize (withHeld (array.handle :: value.toList) (array.grow elements.length.toUInt64) >>=
      fun _ => array.append elements.length.toUInt64 value).run heap = result at stages ⊢
    cases stages with
    | stopped ran assuredFirst =>
        rw [ran] at grows
        cases grows assuredFirst with
        | failed unpushed undone => exact Pushes.failed unpushed undone
    | @went _ middle ran assuredFirst assuredRest =>
        rw [ran] at grows
        cases grows assuredFirst with
        | grown present grown room steady =>
            obtain ⟨next, appended, alters, lists⟩ :=
              grown.lists.append assuredRest.sound room present
            rw [appended]
            exact Pushes.pushed (alters.sound assuredRest.sound)
              (grown.written assuredRest.sound alters lists) fun room =>
                (steady room).trans (grown.lists.steady assuredRest.sound alters lists)
  · rw [if_neg (mt same.mp full)] at assured ⊢
    exact owns.append assured.sound
      (Nat.lt_of_le_of_ne owns.lists.fits full) value

end

end Heap

end CompactingHeap
