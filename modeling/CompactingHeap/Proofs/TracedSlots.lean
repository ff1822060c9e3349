import CompactingHeap.Class.Accepted
import CompactingHeap.Object
import Mathlib.Data.List.Nodup

/-!
# Traced slots

The traced slots of an object are distinct words, so a pass over them visits every reference exactly
once.  In particular redirecting an object sends each of its references through the map once and
changes nothing else.
-/

namespace CompactingHeap

namespace Descriptor

/-- The traced slots are the single references and the elements of the run. -/
theorem mem_slotOffsets_iff {descriptor : Descriptor} {runLength offset : Nat} :
    offset ∈ descriptor.slotOffsets runLength ↔
      .ref offset ∈ descriptor.trace ∨
        ∃ run index, .run run ∈ descriptor.trace ∧ index < runLength ∧
          offset = run + wordBytes * (index + 1) := by
  simp only [slotOffsets, List.mem_flatMap]
  constructor
  · rintro ⟨entry, member, here⟩
    cases entry with
    | ref other =>
        rw [List.mem_singleton] at here
        exact Or.inl (here ▸ member)
    | run run =>
        simp only [List.mem_map, List.mem_range] at here
        rcases here with ⟨index, inside, same⟩
        exact Or.inr ⟨run, index, member, inside, same.symm⟩
  · rintro (member | ⟨run, index, member, inside, same⟩)
    · exact ⟨.ref offset, member, List.mem_singleton.mpr rfl⟩
    · refine ⟨.run run, member, ?_⟩
      simp only [List.mem_map, List.mem_range]
      exact ⟨index, inside, same.symm⟩

/-- The slots of one traced place. -/
def entrySlots (runLength : Nat) : TraceEntry → List Nat
  | .ref offset => [offset]
  | .run offset => (List.range runLength).map fun index => offset + wordBytes * (index + 1)

theorem slotOffsets_eq_flatMap (descriptor : Descriptor) (runLength : Nat) :
    descriptor.slotOffsets runLength = descriptor.trace.flatMap (entrySlots runLength) :=
  rfl

/-- The slots of one traced place are distinct words. -/
theorem nodup_entrySlots (runLength : Nat) (entry : TraceEntry) :
    ((entrySlots runLength entry).map (· / wordBytes)).Nodup := by
  cases entry with
  | ref offset => exact List.nodup_singleton _
  | run offset =>
      simp only [entrySlots, List.map_map]
      apply List.Nodup.map_on _ List.nodup_range
      intro first _ second _ same
      simp only [Function.comp_apply, wordBytes] at same
      omega

/-- Different traced places have no word in common. -/
theorem disjoint_entrySlots (descriptor : Descriptor) (runLength : Nat) {first second : TraceEntry}
    (firstMember : first ∈ descriptor.trace) (secondMember : second ∈ descriptor.trace)
    (different : first.offset ≠ second.offset) :
    List.Disjoint ((entrySlots runLength first).map (· / wordBytes))
      ((entrySlots runLength second).map (· / wordBytes)) := by
  have firstAligned := descriptor.offset_aligned firstMember
  have secondAligned := descriptor.offset_aligned secondMember
  have firstInside := descriptor.offset_inside firstMember
  have secondInside := descriptor.offset_inside secondMember
  intro position inFirst inSecond
  simp only [List.mem_map] at inFirst inSecond
  rcases inFirst with ⟨firstSlot, firstHere, rfl⟩
  rcases inSecond with ⟨secondSlot, secondHere, same⟩
  -- A run starts behind the fixed part, so it can only meet another run, and there is just one.
  cases first with
  | ref firstOffset =>
      cases second with
      | ref secondOffset =>
          simp only [entrySlots, List.mem_singleton] at firstHere secondHere
          simp only [TraceEntry.offset, wordBytes] at *
          omega
      | run secondOffset =>
          have last := descriptor.run_last secondMember
          simp only [entrySlots, List.mem_singleton, List.mem_map, List.mem_range] at *
          rcases secondHere with ⟨index, _, rfl⟩
          simp only [TraceEntry.offset, wordBytes] at *
          omega
  | run firstOffset =>
      have firstLast := descriptor.run_last firstMember
      cases second with
      | ref secondOffset =>
          simp only [entrySlots, List.mem_singleton, List.mem_map, List.mem_range] at *
          rcases firstHere with ⟨index, _, rfl⟩
          simp only [TraceEntry.offset, wordBytes] at *
          omega
      | run secondOffset =>
          have secondLast := descriptor.run_last secondMember
          simp only [TraceEntry.offset, wordBytes] at *
          omega

/-- No two traced slots lie in the same word. -/
theorem nodup_slotOffsets (descriptor : Descriptor) (runLength : Nat) :
    ((descriptor.slotOffsets runLength).map (· / wordBytes)).Nodup := by
  rw [slotOffsets_eq_flatMap, List.map_flatMap, List.nodup_flatMap]
  constructor
  · intro entry _
    exact nodup_entrySlots runLength entry
  · have distinct : descriptor.trace.Pairwise fun first second => first.offset ≠ second.offset :=
      List.pairwise_map.mp descriptor.offsets_nodup
    refine distinct.imp_of_mem ?_
    intro first second firstMember secondMember different
    exact descriptor.disjoint_entrySlots runLength firstMember secondMember different

/-- A word of plain data is not the length word of the run. -/
theorem isDataWord_apart_from_run {descriptor : Descriptor} {offset run : Nat}
    (plain : descriptor.isDataWord offset = true) (found : descriptor.runOffset? = some run) :
    offset / wordBytes ≠ run / wordBytes := by
  have member := runOffset?_eq_some_iff.mp found
  have aligned := descriptor.offset_aligned member
  simp only [isDataWord, Bool.and_eq_true, decide_eq_true_eq, Bool.not_eq_true',
    List.any_eq_false] at plain
  have different : run ≠ offset := plain.2 (.run run) member
  simp only [TraceEntry.offset, wordBytes] at *
  omega

end Descriptor

namespace Object

variable {α : Type}

/-- An object at rest carries nothing that a collection leaves behind, and the length word of its
run, if it has one, agrees with the number of its tail elements. -/
structure AtRest (object : Object α) : Prop where
  flags : object.flags = 0
  forward : object.forward = none
  length : ∀ offset, object.descriptor.runOffset? = some offset →
    (object.word offset).toNat = object.extra.toNat

/-- Only the word of an offset matters for its slot. -/
theorem slot_congr (object : Object α) {offset other : Nat}
    (same : offset / wordBytes = other / wordBytes) : object.slot offset = object.slot other := by
  simp only [slot, same]

/-- After a slot has been replaced every slot reads as before, as the new target, or as absent. -/
theorem slot_setSlot_cases (object : Object α) (offset other : Nat) (target : Option α) :
    (object.setSlot offset target).slot other = object.slot other ∨
      (object.setSlot offset target).slot other = target := by
  by_cases same : offset / wordBytes = other / wordBytes
  · by_cases inside : offset / wordBytes < object.descriptor.slotCount object.extra.toNat
    · right
      rw [← slot_congr _ same]
      exact object.slot_setSlot_self target inside
    · left
      have outside : object.slots.size ≤ offset / wordBytes := by
        rw [object.slots_size]
        exact Nat.le_of_not_lt inside
      simp [slot, setSlot, Array.setIfInBounds_eq_of_size_le outside]
  · exact Or.inl (object.slot_setSlot_of_ne target same)

/-- Sending one slot through a map acts on that slot, whether the object has it or not. -/
theorem slot_setSlot_bind_self (object : Object α) (offset : Nat) (f : α → Option α) :
    (object.setSlot offset ((object.slot offset).bind f)).slot offset =
      (object.slot offset).bind f := by
  by_cases inside : offset / wordBytes < object.descriptor.slotCount object.extra.toNat
  · exact object.slot_setSlot_self _ inside
  · have outside : object.slots.size ≤ offset / wordBytes := by
      rw [object.slots_size]
      exact Nat.le_of_not_lt inside
    have absent : object.slot offset = none := by
      simp [slot, Array.getD_eq_getD_getElem?, Array.getElem?_eq_none outside]
    rw [absent]
    simp [slot, setSlot, Array.getD_eq_getD_getElem?, outside]

/-- A pass over slots in distinct words sends the slots in those words through the map, each once,
and leaves the others alone. -/
theorem slot_foldl_redirect (f : α → Option α) (object : Object α) (offsets : List Nat)
    (distinct : (offsets.map (· / wordBytes)).Nodup) (offset : Nat) :
    (offsets.foldl (fun o at' => o.setSlot at' ((o.slot at').bind f)) object).slot offset =
      if offset / wordBytes ∈ offsets.map (· / wordBytes) then (object.slot offset).bind f
      else object.slot offset := by
  induction offsets generalizing object with
  | nil => simp
  | cons first rest ih =>
      rw [List.map_cons, List.nodup_cons] at distinct
      rw [List.foldl_cons, ih _ distinct.2]
      by_cases here : first / wordBytes = offset / wordBytes
      · have later : offset / wordBytes ∉ rest.map (· / wordBytes) := here ▸ distinct.1
        rw [if_neg later, if_pos (by simp [here]), ← slot_congr _ here, ← slot_congr object here]
        exact object.slot_setSlot_bind_self first f
      · rw [object.slot_setSlot_of_ne _ here]
        have member : offset / wordBytes ∈ (first :: rest).map (· / wordBytes) ↔
            offset / wordBytes ∈ rest.map (· / wordBytes) := by
          simp [Ne.symm here]
        simp only [member]

theorem foldl_redirect_eq (f : α → Option α) (object : Object α) (offsets : List Nat) :
    ∃ slots slots_size,
      offsets.foldl (fun o at' => o.setSlot at' ((o.slot at').bind f)) object =
        { object with slots := slots, slots_size := slots_size } := by
  induction offsets generalizing object with
  | nil => exact ⟨object.slots, object.slots_size, rfl⟩
  | cons first rest ih =>
      obtain ⟨slots, slots_size, same⟩ := ih (object.setSlot first ((object.slot first).bind f))
      exact ⟨slots, slots_size, same⟩

/-- Redirecting an object replaces its slots and nothing else. -/
theorem redirect_eq (object : Object α) (f : α → Option α) :
    ∃ slots slots_size,
      object.redirect f = { object with slots := slots, slots_size := slots_size } :=
  foldl_redirect_eq f object object.slotOffsets

/-- Replacing a slot does not look at the header. -/
theorem foldl_redirect_header (f : α → Option α) (object : Object α) (offsets : List Nat)
    (flags : UInt32) (forward : Option α) :
    offsets.foldl (fun o at' => o.setSlot at' ((o.slot at').bind f))
        { object with flags, forward } =
      { offsets.foldl (fun o at' => o.setSlot at' ((o.slot at').bind f)) object with
        flags, forward } := by
  induction offsets generalizing object with
  | nil => rfl
  | cons first rest ih => exact ih (object.setSlot first ((object.slot first).bind f))

/-- Redirecting an object does not look at its header. -/
theorem redirect_header (object : Object α) (f : α → Option α) (flags : UInt32)
    (forward : Option α) :
    Object.redirect { object with flags, forward } f = { object.redirect f with flags, forward } :=
  foldl_redirect_header f object object.slotOffsets flags forward

/-- Redirecting an object sends the reference in each traced slot through the map. -/
theorem slot_redirect (object : Object α) (f : α → Option α) {offset : Nat}
    (traced : offset ∈ object.slotOffsets) :
    (object.redirect f).slot offset = (object.slot offset).bind f := by
  unfold redirect
  rw [slot_foldl_redirect f object object.slotOffsets
    (object.descriptor.nodup_slotOffsets object.runLength), if_pos (List.mem_map_of_mem traced)]

@[simp]
theorem descriptor_redirect (object : Object α) (f : α → Option α) :
    (object.redirect f).descriptor = object.descriptor := by
  obtain ⟨_, _, same⟩ := object.redirect_eq f
  rw [same]

@[simp]
theorem extra_redirect (object : Object α) (f : α → Option α) :
    (object.redirect f).extra = object.extra := by
  obtain ⟨_, _, same⟩ := object.redirect_eq f
  rw [same]

@[simp]
theorem layout_redirect (object : Object α) (f : α → Option α) :
    (object.redirect f).layout = object.layout := by
  obtain ⟨_, _, same⟩ := object.redirect_eq f
  rw [same]

@[simp]
theorem owner_redirect (object : Object α) (f : α → Option α) :
    (object.redirect f).owner = object.owner := by
  obtain ⟨_, _, same⟩ := object.redirect_eq f
  rw [same]

@[simp]
theorem flags_redirect (object : Object α) (f : α → Option α) :
    (object.redirect f).flags = object.flags := by
  obtain ⟨_, _, same⟩ := object.redirect_eq f
  rw [same]

@[simp]
theorem forward_redirect (object : Object α) (f : α → Option α) :
    (object.redirect f).forward = object.forward := by
  obtain ⟨_, _, same⟩ := object.redirect_eq f
  rw [same]

@[simp]
theorem words_redirect (object : Object α) (f : α → Option α) :
    (object.redirect f).words = object.words := by
  obtain ⟨_, _, same⟩ := object.redirect_eq f
  rw [same]

@[simp]
theorem tail_redirect (object : Object α) (f : α → Option α) :
    (object.redirect f).tail = object.tail := by
  obtain ⟨_, _, same⟩ := object.redirect_eq f
  rw [same]

@[simp]
theorem word_redirect (object : Object α) (f : α → Option α) (offset : Nat) :
    (object.redirect f).word offset = object.word offset := by
  simp only [word, words_redirect]

@[simp]
theorem runLength_redirect (object : Object α) (f : α → Option α) :
    (object.redirect f).runLength = object.runLength := by
  simp only [runLength, descriptor_redirect, word_redirect]

@[simp]
theorem slotOffsets_redirect (object : Object α) (f : α → Option α) :
    (object.redirect f).slotOffsets = object.slotOffsets := by
  simp only [slotOffsets, descriptor_redirect, runLength_redirect]

/-- The references of a redirected object are the images of the old ones. -/
theorem targets_redirect (object : Object α) (f : α → Option α) :
    (object.redirect f).targets = object.targets.filterMap f := by
  unfold targets
  rw [slotOffsets_redirect, List.filterMap_filterMap]
  apply List.filterMap_congr
  intro offset traced
  exact object.slot_redirect f traced

theorem mem_targets_iff {object : Object α} {target : α} :
    target ∈ object.targets ↔ ∃ offset ∈ object.slotOffsets, object.slot offset = some target := by
  simp only [targets, List.mem_filterMap]

/-- Replacing a slot brings in no reference but the new one. -/
theorem mem_targets_setSlot {object : Object α} {offset : Nat} {target : Option α} {found : α}
    (member : found ∈ (object.setSlot offset target).targets) :
    found ∈ object.targets ∨ target = some found := by
  rcases mem_targets_iff.mp member with ⟨other, traced, here⟩
  rcases object.slot_setSlot_cases offset other target with same | same
  · exact Or.inl (mem_targets_iff.mpr ⟨other, traced, same ▸ here⟩)
  · exact Or.inr (same ▸ here)

/-- Writing plain data does not change the length of the run. -/
theorem runLength_setWord (object : Object α) {offset : Nat} (value : UInt64)
    (apart : ∀ run, object.descriptor.runOffset? = some run →
      offset / wordBytes ≠ run / wordBytes) :
    (object.setWord offset value).runLength = object.runLength := by
  have sameClass : (object.setWord offset value).descriptor = object.descriptor := rfl
  unfold runLength
  rw [sameClass]
  cases found : object.descriptor.runOffset? with
  | none => rfl
  | some run =>
      dsimp only
      rw [object.word_setWord_of_ne value (apart run found)]

/-- An object at rest stays at rest when plain data is written. -/
theorem AtRest.setWord {object : Object α} (rest : object.AtRest) {offset : Nat} (value : UInt64)
    (apart : ∀ run, object.descriptor.runOffset? = some run →
      offset / wordBytes ≠ run / wordBytes) :
    (object.setWord offset value).AtRest := by
  refine ⟨rest.flags, rest.forward, ?_⟩
  intro run found
  rw [object.word_setWord_of_ne value (apart run found)]
  exact rest.length run found

/-- An object at rest stays at rest when its references are redirected. -/
theorem AtRest.redirect {object : Object α} (rest : object.AtRest) (f : α → Option α) :
    (object.redirect f).AtRest := by
  constructor
  · rw [flags_redirect]
    exact rest.flags
  · rw [forward_redirect]
    exact rest.forward
  · intro offset found
    rw [descriptor_redirect] at found
    rw [word_redirect, extra_redirect]
    exact rest.length offset found

theorem descriptor_fresh (descriptor : Descriptor) (extra : UInt32) (layout : Layout)
    (laidOut : Layout.of? descriptor extra.toNat = some layout) :
    (fresh descriptor extra layout laidOut : Object α).descriptor = descriptor := by
  unfold fresh
  dsimp only
  split <;> rfl

theorem layout_fresh (descriptor : Descriptor) (extra : UInt32) (layout : Layout)
    (laidOut : Layout.of? descriptor extra.toNat = some layout) :
    (fresh descriptor extra layout laidOut : Object α).layout = layout := by
  unfold fresh
  dsimp only
  split <;> rfl

/-- A fresh object has no references. -/
theorem targets_fresh (descriptor : Descriptor) (extra : UInt32) (layout : Layout)
    (laidOut : Layout.of? descriptor extra.toNat = some layout) :
    (fresh descriptor extra layout laidOut : Object α).targets = [] := by
  have absent :
      ∀ offset, (fresh descriptor extra layout laidOut : Object α).slot offset = none := by
    intro offset
    unfold fresh
    dsimp only
    split
    · rw [slot_setWord, slot_blank]
    · rw [slot_blank]
  apply List.filterMap_eq_nil_iff.mpr
  intro offset _
  exact absent offset

/-- A fresh object is at rest. -/
theorem atRest_fresh (descriptor : Descriptor) (extra : UInt32) (layout : Layout)
    (laidOut : Layout.of? descriptor extra.toNat = some layout) :
    (fresh descriptor extra layout laidOut : Object α).AtRest := by
  cases run : descriptor.runOffset? with
  | none =>
      have same : (fresh descriptor extra layout laidOut : Object α) =
          blank descriptor extra layout laidOut := by
        unfold fresh
        rw [run]
      rw [same]
      refine ⟨rfl, rfl, ?_⟩
      intro offset found
      change descriptor.runOffset? = some offset at found
      rw [run] at found
      cases found
  | some run' =>
      have same : (fresh descriptor extra layout laidOut : Object α) =
          (blank descriptor extra layout laidOut).setWord run' extra.toUInt64 := by
        unfold fresh
        rw [run]
      rw [same]
      refine ⟨rfl, rfl, ?_⟩
      intro offset found
      change descriptor.runOffset? = some offset at found
      rw [run] at found
      cases found
      have last := descriptor.run_last (Descriptor.runOffset?_eq_some_iff.mp run)
      have inside : run' / wordBytes <
          (blank descriptor extra layout laidOut : Object α).descriptor.wordCount := by
        change run' / wordBytes < descriptor.wordCount
        simp only [Descriptor.wordCount, wordBytes] at *
        omega
      rw [word_setWord_self _ _ inside]
      exact UInt32.toNat_toUInt64 extra

/-- An object at rest stays at rest when its byte tail is written. -/
theorem AtRest.setTail {object : Object α} (rest : object.AtRest) (bytes : Bytes) :
    (object.setTail bytes).AtRest := by
  unfold Object.setTail
  split
  · exact ⟨rest.flags, rest.forward, rest.length⟩
  · exact rest

end Object

end CompactingHeap
