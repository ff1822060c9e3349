import CompactingHeap.Proofs.Views

/-!
# What a write does

A write through a handle changes the view of one object, in one place, and leaves all other views
alone.  It is refused, and changes nothing, where the class of the object does not have the place,
or where the new reference is stale.
-/

namespace CompactingHeap

/-! ## Changing an object -/

namespace View

/-- A view with another reference at an offset. -/
def setRef (view : View) (offset : Nat) (target : Option Handle) : View :=
  { view with ref := Function.update view.ref offset target }

@[simp]
theorem ref_setRef_self (view : View) (offset : Nat) (target : Option Handle) :
    (view.setRef offset target).ref offset = target := by
  unfold setRef
  exact Function.update_self offset target view.ref

/-- A view with another word at an offset. -/
def setWord (view : View) (offset : Nat) (value : UInt64) : View :=
  { view with
    word := fun other => if other / wordBytes = offset / wordBytes then value else view.word other }

/-- A view with another run. -/
def setRun (view : View) (run : List (Option Handle)) : View :=
  { view with run := run }

/-- A view with another byte tail, if it has the right length. -/
def setTail (view : View) (bytes : Bytes) : View :=
  if bytes.length = view.tail.length then { view with tail := bytes } else view

end View

namespace Object

variable {α : Type} (object : Object α) (name : α → Option Handle)

/-- The slot of a field is there, and no other traced slot shares it. -/
theorem field_inside {offset : Nat} (field : .ref offset ∈ object.descriptor.trace) :
    offset / wordBytes < object.descriptor.slotCount object.extra.toNat := by
  have aligned := object.descriptor.offset_aligned field
  have inside := object.descriptor.offset_inside field
  simp only [Descriptor.slotCount, TraceEntry.offset, wordBytes] at *
  omega

theorem field_apart {offset other : Nat} (field : .ref offset ∈ object.descriptor.trace)
    (another : .ref other ∈ object.descriptor.trace) (different : other ≠ offset) :
    offset / wordBytes ≠ other / wordBytes := by
  have aligned := object.descriptor.offset_aligned field
  have alignedToo := object.descriptor.offset_aligned another
  simp only [TraceEntry.offset, wordBytes] at *
  omega

theorem field_apart_run {offset run : Nat} (field : .ref offset ∈ object.descriptor.trace)
    (found : object.descriptor.runOffset? = some run) (index : Nat) :
    offset / wordBytes ≠ Heap.runSlot run index / wordBytes := by
  have inside := object.descriptor.offset_inside field
  have last := object.descriptor.run_last (Descriptor.runOffset?_eq_some_iff.mp found)
  simp only [TraceEntry.offset, Heap.runSlot, wordBytes] at *
  omega

/-- The slots of the run are there. -/
theorem element_inside (rest : object.AtRest) {run index : Nat}
    (found : object.descriptor.runOffset? = some run) (inside : index < object.runLength) :
    Heap.runSlot run index / wordBytes < object.descriptor.slotCount object.extra.toNat := by
  have member := Descriptor.runOffset?_eq_some_iff.mp found
  have aligned := object.descriptor.offset_aligned member
  have last := object.descriptor.run_last member
  have references := Descriptor.tail_eq_references_iff.mpr ⟨run, found⟩
  have length : object.runLength = object.extra.toNat := by
    unfold runLength
    rw [found]
    exact rest.length run found
  simp only [Descriptor.slotCount, if_pos references, TraceEntry.offset, Heap.runSlot,
    wordBytes] at *
  omega

theorem element_apart {run : Nat} (found : object.descriptor.runOffset? = some run)
    {index other : Nat} (different : other ≠ index) :
    Heap.runSlot run index / wordBytes ≠ Heap.runSlot run other / wordBytes := by
  have aligned := object.descriptor.offset_aligned (Descriptor.runOffset?_eq_some_iff.mp found)
  simp only [TraceEntry.offset, Heap.runSlot, wordBytes] at *
  omega

/-- Writing a field shows in that field only. -/
theorem view_setSlot_field {offset : Nat} (field : .ref offset ∈ object.descriptor.trace)
    (target : Option α) :
    (object.setSlot offset target).view name =
      (object.view name).setRef offset (target.bind name) := by
  apply View.ext
  · rfl
  · rfl
  · rfl
  · rfl
  · funext other
    have sameClass : (object.setSlot offset target).descriptor = object.descriptor := rfl
    simp only [View.setRef, ref_view, sameClass]
    by_cases here : other = offset
    · subst here
      rw [Function.update_self, if_pos field, slot_setSlot_self _ _ (object.field_inside field)]
    · rw [Function.update_of_ne here, ref_view]
      split
      · next another =>
        rw [slot_setSlot_of_ne _ _ (object.field_apart field another here)]
      · rfl
  · change (object.setSlot offset target).elements name = object.elements name
    unfold elements
    have sameClass : (object.setSlot offset target).descriptor = object.descriptor := rfl
    rw [sameClass, runLength_setSlot]
    cases found : object.descriptor.runOffset? with
    | none => rfl
    | some run =>
        apply List.map_congr_left
        intro index _
        rw [slot_setSlot_of_ne _ _ (object.field_apart_run field found index)]

/-- Writing an element of the run shows in that element only. -/
theorem view_setSlot_element (rest : object.AtRest) {run index : Nat}
    (found : object.descriptor.runOffset? = some run) (inside : index < object.runLength)
    (target : Option α) :
    (object.setSlot (Heap.runSlot run index) target).view name =
      (object.view name).setRun ((object.elements name).set index (target.bind name)) := by
  have sameClass : (object.setSlot (Heap.runSlot run index) target).descriptor =
      object.descriptor := rfl
  apply View.ext
  · rfl
  · rfl
  · rfl
  · rfl
  · funext other
    change _ = (object.view name).ref other
    simp only [ref_view, sameClass]
    split
    · next field =>
      rw [slot_setSlot_of_ne _ _ (Ne.symm (object.field_apart_run field found index))]
    · rfl
  · change (object.setSlot (Heap.runSlot run index) target).elements name =
      (object.elements name).set index (target.bind name)
    apply List.ext_getElem?
    intro other
    by_cases within : other < object.runLength
    · rw [getElem?_elements (by rw [sameClass]; exact found) name
        (by rw [runLength_setSlot]; exact within), List.getElem?_set]
      by_cases here : index = other
      · subst here
        rw [if_pos rfl, if_pos (by rw [length_elements]; exact within),
          slot_setSlot_self _ _ (object.element_inside rest found inside)]
      · rw [if_neg here, getElem?_elements found name within,
          slot_setSlot_of_ne _ _ (object.element_apart found (Ne.symm here))]
    · have beyond := Nat.le_of_not_lt within
      rw [List.getElem?_eq_none, List.getElem?_eq_none]
      · rw [List.length_set, length_elements]
        exact beyond
      · rw [length_elements, runLength_setSlot]
        exact beyond

/-- Writing slots does not change who owns the object. -/
theorem owner_copied (offset : Nat → Nat) (targets : Nat → Option α) (indices : List Nat) :
    (indices.foldl (fun copy index => copy.setSlot (offset index) (targets index)) object).owner =
      object.owner := by
  induction indices generalizing object with
  | nil => rfl
  | cons index rest ih => exact ih (object.setSlot (offset index) (targets index))

/-- Writing the first elements of the run one after the other. -/
theorem view_copied (rest : object.AtRest) {run : Nat}
    (found : object.descriptor.runOffset? = some run) (targets : Nat → Option α)
    {elements : List (Option Handle)} {count : Nat} (within : count ≤ object.runLength)
    (same : ∀ index < count, elements[index]? = some ((targets index).bind name)) :
    ((List.range count).foldl (fun copy index =>
        copy.setSlot (Heap.runSlot run index) (targets index)) object).view name =
      (object.view name).setRun (elements.take count ++ (object.elements name).drop count) := by
  induction count with
  | zero => rfl
  | succ count ih =>
      have before := ih (Nat.le_of_succ_le within) fun index inside =>
        same index (Nat.lt_succ_of_lt inside)
      obtain ⟨copy, copied⟩ : ∃ copy, (List.range count).foldl
          (fun copy index => copy.setSlot (Heap.runSlot run index) (targets index)) object = copy :=
        ⟨_, rfl⟩
      have header : copy.AtRest ∧ copy.descriptor = object.descriptor ∧
          copy.runLength = object.runLength := by
        obtain ⟨_, _, slots⟩ := Heap.foldl_setSlot_eq object
          ((List.range count).map fun index => (Heap.runSlot run index, targets index))
        rw [List.foldl_map, copied] at slots
        rw [slots]
        exact ⟨⟨rest.flags, rest.forward, rest.length⟩, rfl, rfl⟩
      rw [copied] at before
      rw [List.range_succ, List.foldl_append, copied, List.foldl_cons, List.foldl_nil,
        copy.view_setSlot_element name header.1 (by rw [header.2.1]; exact found)
          (by rw [header.2.2]; exact within), before]
      have elementsNow : copy.elements name =
          elements.take count ++ (object.elements name).drop count := congrArg View.run before
      have taken : (elements.take count).length = count := by
        rw [List.length_take, Nat.min_eq_left]
        by_contra short
        have last := same count (Nat.lt_succ_self count)
        rw [List.getElem?_eq_none (by omega)] at last
        cases last
      have here := same count (Nat.lt_succ_self count)
      have inside : count < (object.elements name).length := by
        rw [length_elements]
        exact within
      change (object.view name).setRun _ = _
      rw [elementsNow, List.set_append_right _ _ (Nat.le_of_eq taken), taken, Nat.sub_self,
        List.drop_eq_getElem_cons inside, List.set_cons_zero, List.take_add_one, here,
        Option.toList_some, List.append_assoc, List.singleton_append]

/-- Writing plain data shows in that word only. -/
theorem view_setWord {offset : Nat} (inside : offset / wordBytes < object.descriptor.wordCount)
    (apart : ∀ run, object.descriptor.runOffset? = some run →
      offset / wordBytes ≠ run / wordBytes) (value : UInt64) :
    (object.setWord offset value).view name = (object.view name).setWord offset value := by
  apply View.ext
  · rfl
  · rfl
  · funext other
    change (object.setWord offset value).word other =
      if other / wordBytes = offset / wordBytes then value else object.word other
    split
    · next here =>
      have read := object.word_setWord_self value inside
      unfold word at read ⊢
      rw [here]
      exact read
    · next elsewhere => exact object.word_setWord_of_ne value (Ne.symm elsewhere)
  · rfl
  · rfl
  · change (object.setWord offset value).elements name = object.elements name
    have sameClass : (object.setWord offset value).descriptor = object.descriptor := rfl
    unfold elements
    rw [sameClass, object.runLength_setWord value apart]
    rfl

/-- Writing the byte tail shows in the tail only. -/
theorem view_setTail (bytes : Bytes) :
    (object.setTail bytes).view name = (object.view name).setTail bytes := by
  unfold Object.setTail View.setTail
  rw [tail_view]
  split
  · rfl
  · rfl

end Object

/-- A word of plain data lies in the fixed part. -/
theorem Descriptor.isDataWord_inside {descriptor : Descriptor} {offset : Nat}
    (plain : descriptor.isDataWord offset = true) :
    offset / wordBytes < descriptor.wordCount := by
  simp only [Descriptor.isDataWord, Bool.and_eq_true, decide_eq_true_eq] at plain
  simp only [Descriptor.wordCount, wordBytes] at *
  omega

namespace Heap

/-- One heap differs from another in the view of a single object. -/
structure Rewrites (heap next : Heap) (handle : Handle) (view : View) : Prop where
  rest : next = { heap with space := next.space }
  view? : next.view? = Function.update heap.view? handle (some view)

/-- Changing an object, but not its owner, leaves every address the handle of its object. -/
theorem handleOf?_modify {heap : Heap} {address : Address} {object : HeapObject}
    (here : heap.space.object? address = some object) {f : HeapObject → HeapObject}
    (owner : ∀ object, (f object).owner = object.owner) :
    ({ heap with space := heap.space.modify address f } : Heap).handleOf? = heap.handleOf? := by
  funext other
  unfold handleOf?
  dsimp only
  by_cases same : address = other
  · subst same
    rw [Space.object?_modify_self, here, Option.map_some, Option.bind_some, Option.bind_some,
      owner]
  · rw [Space.object?_modify_of_ne _ _ same]

/-- Changing an object, but not its owner, changes the view of that object. -/
theorem Sound.modifyObject {heap : Heap} (sound : heap.Sound) {handle : Handle}
    {object : HeapObject} (found : heap.objectOf handle = .ok object)
    {f : HeapObject → HeapObject} (owner : ∀ object, (f object).owner = object.owner) :
    heap.Rewrites (heap.modifyObject handle f) handle ((f object).view heap.handleOf?) := by
  rcases objectOf_eq_ok_iff.mp found with ⟨address, resolved, here⟩
  have changed : heap.modifyObject handle f =
      { heap with space := heap.space.modify address f } := by
    unfold Heap.modifyObject
    rw [resolved]
  rw [changed]
  have names := handleOf?_modify here owner
  refine ⟨rfl, ?_⟩
  funext other
  by_cases same : other = handle
  · subst same
    rw [Function.update_self]
    apply view?_eq_some_iff.mpr
    refine ⟨f object, objectOf_eq_ok_iff.mpr ⟨address, resolved, ?_⟩, by rw [names]⟩
    dsimp only
    rw [Space.object?_modify_self, here, Option.map_some]
  · rw [Function.update_of_ne same]
    have elsewhere : ∀ home, heap.handles.resolve other = .ok home → address ≠ home := by
      rintro home there rfl
      obtain ⟨_, first⟩ := HandleTable.find_of_resolve there
      obtain ⟨_, second⟩ := HandleTable.find_of_resolve resolved
      exact same (sound.linked.eq_of_address first second)
    apply Option.ext
    intro view
    simp only [view?_eq_some_iff, objectOf_eq_ok_iff, names]
    constructor
    · rintro ⟨changed, ⟨home, there, present⟩, shown⟩
      rw [Space.object?_modify_of_ne _ _ (elsewhere home there)] at present
      exact ⟨changed, ⟨home, there, present⟩, shown⟩
    · rintro ⟨old, ⟨home, there, present⟩, shown⟩
      refine ⟨old, ⟨home, there, ?_⟩, shown⟩
      rw [Space.object?_modify_of_ne _ _ (elsewhere home there)]
      exact present

/-! ## Checked writes -/

/-- A write through a handle changes the view of the object if the view allows it, and is refused
otherwise. -/
inductive Writing (heap : Heap) (handle : Handle) (allowed : View → Prop) (change : View → View) :
    Except HeapError PUnit × Heap → Prop
  | written {view : View} {next : Heap} :
      heap.view? handle = some view → allowed view → heap.Rewrites next handle (change view) →
        Writing heap handle allowed change (.ok ⟨⟩, next)
  | refused {error : HeapError} :
      (∀ view, heap.view? handle = some view → ¬ allowed view) →
        Writing heap handle allowed change (.error error, heap)

/-- A write that the view allows succeeds. -/
theorem Writing.exists_next {heap : Heap} {handle : Handle} {allowed : View → Prop}
    {change : View → View} {result : Except HeapError PUnit × Heap}
    (writing : heap.Writing handle allowed change result) {view : View}
    (seen : heap.view? handle = some view) (allows : allowed view) :
    ∃ next, result = (.ok ⟨⟩, next) ∧ heap.Rewrites next handle (change view) := by
  cases writing with
  | @written other next here _ rewrites =>
      rw [seen] at here
      cases here
      exact ⟨next, rfl, rewrites⟩
  | refused unallowed => exact absurd allows (unallowed view seen)

/-- An optional reference that is live, or absent. -/
def Present (heap : Heap) (value : Option Handle) : Prop :=
  ∀ handle, value = some handle → heap.isLive handle = true

/-- A reference that is present is read back as it was written. -/
theorem Sound.bind_addressOf {heap : Heap} (sound : heap.Sound) {value : Option Handle}
    {target : Option Address} (found : heap.addressOf value = .ok target) :
    heap.Present value ∧ target.bind heap.handleOf? = value := by
  cases value with
  | none =>
      cases found
      exact ⟨by simp [Present], rfl⟩
  | some handle =>
      change (heap.handles.resolve handle).map some = .ok target at found
      cases resolved : heap.handles.resolve handle with
      | error error =>
          rw [resolved] at found
          cases found
      | ok address =>
          rw [resolved] at found
          cases found
          refine ⟨?_, ?_⟩
          · rintro other same
            cases same
            exact isLive_of_resolve resolved
          · exact sound.handleOf?_eq_some_iff.mpr (HandleTable.find_of_resolve resolved)

theorem addressOf_of_present {heap : Heap} {value : Option Handle}
    (present : heap.Present value) : ∃ target, heap.addressOf value = .ok target := by
  cases value with
  | none => exact ⟨none, rfl⟩
  | some handle =>
      rcases HandleTable.isLive_iff.mp (present handle rfl) with ⟨address, holds, found⟩
      refine ⟨some address, ?_⟩
      change (heap.handles.resolve handle).map some = _
      rw [HandleTable.resolve_of_find found]
      rfl

/-- A stale reference is refused by name. -/
theorem Sound.addressOf_of_stale {heap : Heap} (sound : heap.Sound) {handle : Handle}
    (stale : heap.isLive handle = false) :
    heap.addressOf (some handle) = .error (.staleHandle handle) := by
  change (heap.handles.resolve handle).map some = _
  rw [sound.resolve_stale (sound.isLive_eq_false_iff.mp stale)]
  rfl

/-- Writing a reference at an offset. -/
theorem Sound.writing_ref {heap : Heap} (sound : heap.Sound) (handle : Handle) (offset : Nat)
    (value : Option Handle) :
    heap.Writing handle (fun view => view.descriptor.isRefField offset = true ∧ heap.Present value)
      (fun view => view.setRef offset value) ((writeRef handle offset value).run heap) := by
  unfold writeRef
  rw [HeapM.run_bind, HeapM.run_ask]
  cases checked : heap.withRefField handle offset with
  | error error =>
      apply Writing.refused
      rintro view seen ⟨field, _⟩
      rcases view?_eq_some_iff.mp seen with ⟨object, found, rfl⟩
      have passes := withRefField_eq_ok_iff.mpr ⟨found, Descriptor.isRefField_iff.mp field⟩
      rw [checked] at passes
      cases passes
  | ok object =>
      rcases withRefField_eq_ok_iff.mp checked with ⟨found, field⟩
      dsimp only
      rw [HeapM.run_bind, HeapM.run_ask]
      cases known : heap.addressOf value with
      | error error =>
          apply Writing.refused
          rintro view seen ⟨_, present⟩
          obtain ⟨target, resolved⟩ := addressOf_of_present present
          rw [known] at resolved
          cases resolved
      | ok target =>
          obtain ⟨present, named⟩ := sound.bind_addressOf known
          have rewrites := sound.modifyObject found
            (f := fun object => object.setSlot offset target) fun _ => rfl
          rw [object.view_setSlot_field _ field, named] at rewrites
          exact Writing.written (view?_eq_some_iff.mpr ⟨object, found, rfl⟩)
            ⟨Descriptor.isRefField_iff.mpr field, present⟩ rewrites

/-- Writing an element of a run. -/
theorem Sound.writing_element {heap : Heap} (sound : heap.Sound) (handle : Handle) (index : Nat)
    (value : Option Handle) :
    heap.Writing handle (fun view => view.descriptor.runOffset?.isSome = true ∧
        index < view.run.length ∧ heap.Present value)
      (fun view => view.setRun (view.run.set index value))
      ((runSet handle index value).run heap) := by
  unfold runSet
  rw [HeapM.run_bind, HeapM.run_ask]
  cases checked : heap.runElement handle index with
  | error error =>
      apply Writing.refused
      rintro view seen ⟨run, inside, _⟩
      rcases view?_eq_some_iff.mp seen with ⟨object, found, rfl⟩
      rw [Object.run_view, Object.length_elements] at inside
      obtain ⟨offset, here⟩ := Option.isSome_iff_exists.mp run
      have passes := runElement_eq_ok_iff.mpr
        ⟨offset, runOf_eq_ok_iff.mpr ⟨found, here⟩, inside, rfl⟩
      rw [checked] at passes
      cases passes
  | ok element =>
      obtain ⟨object, slot⟩ := element
      rcases runElement_eq_ok_iff.mp checked with ⟨offset, run, inside, rfl⟩
      rcases runOf_eq_ok_iff.mp run with ⟨found, here⟩
      dsimp only
      rw [HeapM.run_bind, HeapM.run_ask]
      cases known : heap.addressOf value with
      | error error =>
          apply Writing.refused
          rintro view seen ⟨_, _, present⟩
          obtain ⟨target, resolved⟩ := addressOf_of_present present
          rw [known] at resolved
          cases resolved
      | ok target =>
          obtain ⟨present, named⟩ := sound.bind_addressOf known
          rcases objectOf_eq_ok_iff.mp found with ⟨address, _, there⟩
          have rest := sound.linked.rest address object there
          have rewrites := sound.modifyObject found
            (f := fun object => object.setSlot (runSlot offset index) target) fun _ => rfl
          rw [object.view_setSlot_element _ rest here inside, named] at rewrites
          refine Writing.written (view?_eq_some_iff.mpr ⟨object, found, rfl⟩) ⟨?_, ?_, present⟩
            rewrites
          · rw [Object.descriptor_view, here]
            rfl
          · rw [Object.run_view, Object.length_elements]
            exact inside

/-- The elements of the run of an object, none if the object has no run or the handle is stale. -/
def elementsOf (heap : Heap) (handle : Handle) : List (Option Handle) :=
  match heap.view? handle with
  | some view => view.run
  | none => []

theorem elementsOf_of_view {heap : Heap} {handle : Handle} {view : View}
    (seen : heap.view? handle = some view) : heap.elementsOf handle = view.run := by
  unfold elementsOf
  rw [seen]

/-- The object has a run. -/
def HasRun (heap : Heap) (handle : Handle) : Prop :=
  ∃ view, heap.view? handle = some view ∧ view.descriptor.runOffset?.isSome = true

/-- An object that has a run gives it. -/
theorem exists_runOf_of_view {heap : Heap} {handle : Handle} {view : View}
    (seen : heap.view? handle = some view) (run : view.descriptor.runOffset?.isSome = true) :
    ∃ element, heap.runOf handle = .ok element := by
  rcases view?_eq_some_iff.mp seen with ⟨object, found, rfl⟩
  obtain ⟨offset, here⟩ := Option.isSome_iff_exists.mp run
  exact ⟨_, runOf_eq_ok_iff.mpr ⟨found, here⟩⟩

/-- An object that does not give its run has none. -/
theorem no_run_of_error {heap : Heap} {handle : Handle} {error : HeapError}
    (refused : heap.runOf handle = .error error) {view : View}
    (seen : heap.view? handle = some view) : ¬ view.descriptor.runOffset?.isSome = true := by
  intro run
  obtain ⟨_, passes⟩ := exists_runOf_of_view seen run
  rw [refused] at passes
  cases passes

/-- Copying elements within the bounds of two runs rewrites the target. -/
theorem Sound.rewrites_copied {heap : Heap} (sound : heap.Sound) {target : Handle}
    {source object : HeapObject} {sourceOffset offset count : Nat}
    (sourceHere : source.descriptor.runOffset? = some sourceOffset)
    (found : heap.objectOf target = .ok object) (here : object.descriptor.runOffset? = some offset)
    (enough : count ≤ source.runLength) (room : count ≤ object.runLength) :
    heap.Rewrites (heap.modifyObject target fun other => (List.range count).foldl
        (fun copy index =>
          copy.setSlot (runSlot offset index) (source.slot (runSlot sourceOffset index))) other)
      target ((object.view heap.handleOf?).setRun ((source.elements heap.handleOf?).take count ++
        (object.elements heap.handleOf?).drop count)) := by
  rcases objectOf_eq_ok_iff.mp found with ⟨address, _, there⟩
  have copied := object.view_copied heap.handleOf? (sound.linked.rest address object there) here
    (fun index => source.slot (runSlot sourceOffset index)) room fun index inside =>
      Object.getElem?_elements sourceHere heap.handleOf? (Nat.lt_of_lt_of_le inside enough)
  have rewrites := sound.modifyObject found fun other => other.owner_copied (runSlot offset)
    (fun index => source.slot (runSlot sourceOffset index)) (List.range count)
  rw [copied] at rewrites
  exact rewrites

/-- Copying the first elements of one run into another. -/
theorem Sound.writing_copy {heap : Heap} (sound : heap.Sound) (source target : Handle)
    (count : Nat) :
    heap.Writing target
      (fun view => heap.HasRun source ∧ view.descriptor.runOffset?.isSome = true ∧
        count ≤ (heap.elementsOf source).length ∧ count ≤ view.run.length)
      (fun view => view.setRun ((heap.elementsOf source).take count ++ view.run.drop count))
      ((copyRun source target count).run heap) := by
  unfold copyRun
  rw [HeapM.run_bind, HeapM.run_ask]
  cases sourceRun : heap.runOf source with
  | error error =>
      apply Writing.refused
      rintro _ _ ⟨⟨_, there, run⟩, _⟩
      exact no_run_of_error sourceRun there run
  | ok element =>
      obtain ⟨sourceObject, sourceOffset⟩ := element
      rcases runOf_eq_ok_iff.mp sourceRun with ⟨sourceFound, sourceHere⟩
      have sourceSeen := view?_eq_some_iff.mpr ⟨sourceObject, sourceFound, rfl⟩
      have sourceHas : heap.HasRun source :=
        ⟨_, sourceSeen, by rw [Object.descriptor_view, sourceHere]; rfl⟩
      dsimp only
      rw [HeapM.run_bind, HeapM.run_ask, elementsOf_of_view sourceSeen, Object.run_view]
      cases targetRun : heap.runOf target with
      | error error =>
          apply Writing.refused
          rintro _ seen ⟨_, run, _⟩
          exact no_run_of_error targetRun seen run
      | ok element =>
          obtain ⟨object, offset⟩ := element
          rcases runOf_eq_ok_iff.mp targetRun with ⟨found, here⟩
          have seen := view?_eq_some_iff.mpr ⟨object, found, rfl⟩
          rw [Object.length_elements]
          dsimp only
          split
          · next short =>
            apply Writing.refused
            rintro view other ⟨_, _, enough, room⟩
            rw [seen] at other
            cases other
            rw [Object.run_view, Object.length_elements] at room
            omega
          · next long =>
            have enough : count ≤ sourceObject.runLength := by omega
            have room : count ≤ object.runLength := by omega
            exact Writing.written seen
              ⟨sourceHas, by rw [Object.descriptor_view, here]; rfl, enough,
                by rw [Object.run_view, Object.length_elements]; exact room⟩
              (sound.rewrites_copied sourceHere found here enough room)

/-- Writing a word of plain data. -/
theorem Sound.writing_word {heap : Heap} (sound : heap.Sound) (handle : Handle) (offset : Nat)
    (value : UInt64) :
    heap.Writing handle (fun view => view.descriptor.isDataWord offset = true)
      (fun view => view.setWord offset value) ((Heap.writeWord handle offset value).run heap) := by
  unfold Heap.writeWord
  rw [HeapM.run_bind, HeapM.run_ask]
  cases checked : heap.withDataWord handle offset with
  | error error =>
      apply Writing.refused
      rintro view seen plain
      rcases view?_eq_some_iff.mp seen with ⟨object, found, rfl⟩
      have passes := withDataWord_eq_ok_iff.mpr ⟨found, plain⟩
      rw [checked] at passes
      cases passes
  | ok object =>
      rcases withDataWord_eq_ok_iff.mp checked with ⟨found, plain⟩
      have rewrites := sound.modifyObject found
        (f := fun object => object.setWord offset value) fun _ => rfl
      rw [object.view_setWord _ (Descriptor.isDataWord_inside plain)
        (fun _ here => Descriptor.isDataWord_apart_from_run plain here)] at rewrites
      exact Writing.written (view?_eq_some_iff.mpr ⟨object, found, rfl⟩) plain rewrites

/-- Writing a byte tail without a check. -/
theorem Sound.rewrites_tail {heap : Heap} (sound : heap.Sound) {handle : Handle} {view : View}
    (seen : heap.view? handle = some view) (bytes : Bytes) :
    heap.Rewrites (heap.modifyObject handle fun object => object.setTail bytes) handle
      (view.setTail bytes) := by
  rcases view?_eq_some_iff.mp seen with ⟨object, found, rfl⟩
  have owner : ∀ other : HeapObject, (other.setTail bytes).owner = other.owner := by
    intro other
    unfold Object.setTail
    split <;> rfl
  have rewrites := sound.modifyObject found owner
  rwa [object.view_setTail] at rewrites

/-- Writing the first word without a check, in an object that starts with plain data. -/
theorem Sound.rewrites_word {heap : Heap} (sound : heap.Sound) {handle : Handle} {view : View}
    (seen : heap.view? handle = some view) (filled : 0 < view.descriptor.wordCount)
    (runless : view.descriptor.runOffset? = none) (value : UInt64) :
    heap.Rewrites (heap.modifyObject handle fun object => object.setWord 0 value) handle
      (view.setWord 0 value) := by
  rcases view?_eq_some_iff.mp seen with ⟨object, found, rfl⟩
  have rewrites := sound.modifyObject found (f := fun object => object.setWord 0 value) fun _ => rfl
  have apart :
      ∀ run, object.descriptor.runOffset? = some run → 0 / wordBytes ≠ run / wordBytes := by
    intro run here
    rw [Object.descriptor_view, here] at runless
    cases runless
  rwa [object.view_setWord _ (by simpa using filled) apart] at rewrites

/-- Writing an object leaves the holds, the roots, the classes and the interner alone. -/
theorem Rewrites.holds {heap next : Heap} {handle : Handle} {view : View}
    (rewrites : heap.Rewrites next handle view) (other : Handle) :
    next.holds other = heap.holds other := by
  rw [rewrites.rest]
  rfl

theorem Rewrites.isLive {heap next : Heap} {handle : Handle} {view : View}
    (rewrites : heap.Rewrites next handle view) (other : Handle) :
    next.isLive other = heap.isLive other := by
  rw [rewrites.rest]
  rfl

theorem Rewrites.trans {heap middle next : Heap} {handle : Handle} {first second : View}
    (before : heap.Rewrites middle handle first) (after : middle.Rewrites next handle second) :
    heap.Rewrites next handle second where
  rest := by
    rw [after.rest, before.rest]
  view? := by
    rw [after.view?, before.view?, Function.update_idem]

theorem Rewrites.slots {heap next : Heap} {handle : Handle} {view : View}
    (rewrites : heap.Rewrites next handle view) : next.handles.slots = heap.handles.slots := by
  rw [rewrites.rest]

theorem Rewrites.present {heap next : Heap} {handle : Handle} {view : View}
    (rewrites : heap.Rewrites next handle view) {value : Option Handle} :
    next.Present value ↔ heap.Present value := by
  simp only [Present, rewrites.isLive]

/-- The view of the object that has been written. -/
theorem Rewrites.seen {heap next : Heap} {handle : Handle} {view : View}
    (rewrites : heap.Rewrites next handle view) : next.view? handle = some view := by
  rw [rewrites.view?, Function.update_self]

end Heap

end CompactingHeap
