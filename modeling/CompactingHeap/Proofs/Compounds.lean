import CompactingHeap.Proofs.Containers

/-!
# Compounds

A container is a compound of objects: its parts hang on one of them, and it is apart from the other
containers if none of them has a part for its storage.  A compound is an enclave, so what goes on
elsewhere keeps its parts as they are and keeps it apart.
-/

namespace CompactingHeap

namespace Heap

/-- The views of the listed objects. -/
def partOf (heap : Heap) (parts : List Handle) (handle : Handle) : Option View :=
  if handle ∈ parts then heap.view? handle else none

theorem partOf_of_mem {heap : Heap} {parts : List Handle} {handle : Handle}
    (member : handle ∈ parts) : heap.partOf parts handle = heap.view? handle :=
  if_pos member

theorem mem_of_partOf {heap : Heap} {parts : List Handle} {handle : Handle} {view : View}
    (part : heap.partOf parts handle = some view) :
    handle ∈ parts ∧ heap.view? handle = some view := by
  unfold partOf at part
  split at part
  · next member => exact ⟨member, part⟩
  · cases part

/-- No other array or table has one of the parts for its storage. -/
structure Apart (heap : Heap) (parts : List Handle) : Prop where
  arrays : ∀ handle view target, handle ∉ parts → heap.view? handle = some view →
    view.descriptor.id = .array → view.ref storageOffset = some target → target ∈ parts →
      heap.classOf target ≠ .ok .vector
  tables : ∀ handle view target, handle ∉ parts → heap.view? handle = some view →
    view.descriptor.id = .hashtable → view.ref storageOffset = some target → target ∈ parts →
      heap.classOf target ≠ .ok .array
  sane : ∀ handle view, heap.view? handle = some view → view.Sane

/-- The parts of a container hang on its root.  The objects in `still` and `border` hang on the
root as well; of those in `still` the content matters, and of those in `border` the class. -/
structure Compound (heap : Heap) (root : Handle) (parts still border : List Handle) : Prop where
  rooted : root ∈ parts
  live : ∀ handle ∈ parts ++ still, heap.isLive handle = true
  hangs : ∀ handle ∈ parts ++ still ++ border,
    Hangs [root] (heap.partOf (parts ++ still)) handle
  vectors : ∀ handle ∈ parts ++ still, ∀ view, heap.view? handle = some view →
    view.descriptor.runOffset?.isSome → view.descriptor.id = .vector
  plain : ∀ handle ∈ still, ∀ id ∈ [ClassId.vector, ClassId.array, ClassId.hashtable],
    heap.classOf handle ≠ .ok id

variable {heap next : Heap} {root : Handle} {parts still border : List Handle}

/-- The enclave of a compound. -/
def Compound.enclave (compound : heap.Compound root parts still border) (sound : heap.Sound) :
    Enclave where
  roots := [root]
  part? := heap.partOf (parts ++ still)
  class? handle :=
    if handle ∈ border then (heap.view? handle).map fun view => view.descriptor.id else none
  rooted handle listed := by
    cases List.mem_singleton.mp listed
    have member := List.mem_append_left still compound.rooted
    obtain ⟨view, seen⟩ := sound.isLive_iff.mp (compound.live _ member)
    rw [partOf_of_mem member, seen]
    rfl
  hangs handle isPart := by
    apply compound.hangs handle
    rcases isPart with part | border
    · obtain ⟨view, part⟩ := Option.isSome_iff_exists.mp part
      exact List.mem_append_left _ (mem_of_partOf part).1
    · split at border
      · next member => exact List.mem_append_right _ member
      · cases border
  vectors handle view part run := by
    obtain ⟨member, seen⟩ := mem_of_partOf part
    exact compound.vectors handle member view seen run

section

variable (compound : heap.Compound root parts still border) (sound : heap.Sound)

/-- A live object outside the enclave is not among the parts. -/
theorem Compound.not_mem_parts {handle : Handle} {view : View}
    (seen : heap.view? handle = some view)
    (outside : (compound.enclave sound).Outside handle) : handle ∉ parts := by
  intro listed
  change heap.partOf (parts ++ still) handle = none at outside
  rw [partOf_of_mem (List.mem_append_left still listed), seen] at outside
  cases outside

theorem Compound.within : (compound.enclave sound).Within parts still where
  covered handle view part := List.mem_append.mp (mem_of_partOf part).1
  storage handle id container has := by
    obtain ⟨view, part, sameClass⟩ := has
    obtain ⟨member, seen⟩ := mem_of_partOf part
    rcases List.mem_append.mp member with here | here
    · exact here
    · apply absurd _ (compound.plain handle here id container)
      rw [classOf_of_view seen, sameClass]

/-- A compound that is apart is guarded. -/
theorem Compound.guarded (apart : heap.Apart parts) : (compound.enclave sound).Guarded heap where
  parts handle view part := (mem_of_partOf part).2
  classes handle id known := by
    change (if handle ∈ border then (heap.view? handle).map fun view => view.descriptor.id
      else none) = some id at known
    split at known
    · exact Option.map_eq_some_iff.mp known
    · cases known
  arrays handle view seen array outside := by
    refine ⟨outside, ?_⟩
    intro again target there refers has
    rw [seen] at there
    cases there
    have member := (compound.within sound).storage target .vector (by simp) has
    have unlisted := compound.not_mem_parts sound seen outside
    obtain ⟨shown, part, vector⟩ := has
    apply apart.arrays handle view target unlisted seen array refers member
    rw [classOf_of_view (mem_of_partOf part).2, vector]
  tables handle view seen table outside := by
    refine ⟨outside, ?_⟩
    intro again target there refers has
    rw [seen] at there
    cases there
    have member := (compound.within sound).storage target .array (by simp) has
    have unlisted := compound.not_mem_parts sound seen outside
    obtain ⟨shown, part, array⟩ := has
    apply apart.tables handle view target unlisted seen table refers member
    rw [classOf_of_view (mem_of_partOf part).2, array]
  sane := apart.sane

section

variable {compound} {sound} (guarded : (compound.enclave sound).Guarded next)

include guarded

/-- Where the enclave of a compound is guarded, the parts show what they did. -/
theorem Compound.view?_of_guarded {handle : Handle} (member : handle ∈ parts ++ still) :
    next.view? handle = heap.view? handle := by
  obtain ⟨view, seen⟩ := sound.isLive_iff.mp (compound.live handle member)
  rw [seen]
  exact guarded.parts handle view ((partOf_of_mem member).trans seen)

/-- The classes of the border are as they were. -/
theorem Compound.classOf_of_guarded {handle : Handle} (member : handle ∈ border) {id : ClassId}
    (known : heap.classOf handle = .ok id) : next.classOf handle = .ok id := by
  cases seen : heap.view? handle with
  | none =>
      unfold Heap.classOf at known
      rw [sound.objectOf_stale seen] at known
      cases known
  | some view =>
      rw [classOf_of_view seen] at known
      cases known
      obtain ⟨now, there, sameClass⟩ := guarded.classes handle view.descriptor.id (by
        change (if handle ∈ border then (heap.view? handle).map fun view => view.descriptor.id
          else none) = some view.descriptor.id
        rw [if_pos member, seen]
        rfl)
      rw [classOf_of_view there, sameClass]

/-- A compound is still apart where its enclave is guarded. -/
theorem Compound.apart_of_guarded : next.Apart parts := by
  have outside : ∀ handle view, handle ∉ parts → next.view? handle = some view →
      view.descriptor.id ∈ [ClassId.vector, ClassId.array, ClassId.hashtable] →
      (compound.enclave sound).Outside handle := by
    intro handle view unlisted seen container
    cases part : (compound.enclave sound).part? handle with
    | none => exact part
    | some shown =>
        have same := guarded.parts handle shown part
        rw [seen] at same
        cases same
        exact absurd ((compound.within sound).storage handle _ container ⟨view, part, rfl⟩) unlisted
  have isPart : ∀ target id, target ∈ parts → next.classOf target = .ok id →
      (compound.enclave sound).Has target id := by
    intro target id member known
    have listed := List.mem_append_left still member
    have same := Compound.view?_of_guarded guarded listed
    obtain ⟨view, seen⟩ := sound.isLive_iff.mp (compound.live target listed)
    rw [seen] at same
    rw [classOf_of_view same] at known
    exact ⟨view, (partOf_of_mem listed).trans seen, Except.ok.inj known⟩
  constructor
  · intro handle view target unlisted seen array refers member vector
    have clear := guarded.arrays handle view seen array
      (outside handle view unlisted seen (by rw [array]; simp))
    exact clear.backed view target seen refers (isPart target .vector member vector)
  · intro handle view target unlisted seen table refers member array
    have clear := guarded.tables handle view seen table
      (outside handle view unlisted seen (by rw [table]; simp))
    exact clear.backed view target seen refers (isPart target .array member array)
  · exact guarded.sane

end

end

/-! ## Changes of a compound -/

/-- How the parts of a container may change while it stays apart: what has been written is a part,
and so is what is new; and a part that is given up does not have one that stays for its storage. -/
structure Replaces (heap next : Heap) (parts replaced new altered : List Handle) : Prop where
  writes : ∀ handle ∈ altered, handle ∈ replaced
  makes : ∀ handle ∈ new, handle ∈ replaced
  origin : ∀ handle ∈ replaced, handle ∈ new ∨ handle ∈ parts
  classes : ∀ handle ∈ replaced, handle ∉ new → next.classOf handle = heap.classOf handle
  given : ∀ handle ∈ parts, handle ∉ replaced → ∀ view target, heap.view? handle = some view →
    view.ref storageOffset = some target → target ∉ replaced
  sane : ∀ handle ∈ replaced, ∀ view, next.view? handle = some view → view.Sane

/-- A container stays apart from the others while it changes its parts. -/
theorem Apart.replaces (apart : heap.Apart parts) {replaced new altered : List Handle}
    (leaves : heap.Leaves next new altered)
    (replaces : heap.Replaces next parts replaced new altered) : next.Apart replaced := by
  have before : ∀ handle view target, handle ∉ replaced → next.view? handle = some view →
      view.ref storageOffset = some target → target ∈ replaced →
      heap.view? handle = some view ∧ handle ∉ parts ∧ target ∈ parts ∧
        next.classOf target = heap.classOf target := by
    intro handle view target unlisted seen refers member
    have old : handle ∉ new := fun listed => unlisted (replaces.makes handle listed)
    have unaltered : handle ∉ altered := fun listed => unlisted (replaces.writes handle listed)
    have same := leaves.views handle old unaltered (isLive_of_view seen)
    rw [seen] at same
    have oldTarget := leaves.apart handle view target old unaltered seen
      (Or.inl ⟨storageOffset, refers⟩)
    refine ⟨same.symm, ?_, ?_, replaces.classes target member oldTarget⟩
    · intro listed
      exact replaces.given handle listed unlisted view target same.symm refers member
    · exact (replaces.origin target member).resolve_left oldTarget
  constructor
  · intro handle view target unlisted seen array refers member
    obtain ⟨there, outside, listed, sameClass⟩ :=
      before handle view target unlisted seen refers member
    rw [sameClass]
    exact apart.arrays handle view target outside there array refers listed
  · intro handle view target unlisted seen table refers member
    obtain ⟨there, outside, listed, sameClass⟩ :=
      before handle view target unlisted seen refers member
    rw [sameClass]
    exact apart.tables handle view target outside there table refers listed
  · intro handle view seen
    by_cases listed : handle ∈ replaced
    · exact replaces.sane handle listed view seen
    · have old : handle ∉ new := fun member => listed (replaces.makes handle member)
      have unaltered : handle ∉ altered := fun member => listed (replaces.writes handle member)
      have same := leaves.views handle old unaltered (isLive_of_view seen)
      rw [seen] at same
      exact apart.sane handle view same.symm

/-- A container whose parts are all new is apart from the others. -/
theorem Apart.of_new (apart : heap.Apart []) {new : List Handle} (leaves : heap.Leaves next new [])
    (sane : ∀ handle ∈ new, ∀ view, next.view? handle = some view → view.Sane) :
    next.Apart new := by
  apply apart.replaces leaves
  constructor
  · simp
  · exact fun handle listed => listed
  · exact fun handle listed => Or.inl listed
  · exact fun handle listed old => absurd listed old
  · simp
  · exact sane

/-- A container stays apart while its parts are written. -/
theorem Apart.alters (apart : heap.Apart parts) (sound : heap.Sound) {altered : List Handle}
    (alters : heap.Alters next altered) (within : altered ⊆ parts)
    (plain : ∀ handle ∈ altered, heap.classOf handle ≠ .ok .char) : next.Apart parts := by
  apply apart.replaces (alters.leaves.mono within)
  constructor
  · exact fun handle member => member
  · simp
  · exact fun handle member => Or.inr member
  · exact fun handle _ _ => alters.classOf sound handle
  · exact fun handle member unlisted => absurd member unlisted
  · intro handle member view seen
    by_cases written : handle ∈ altered
    · have live := isLive_of_view seen
      rw [alters.isLive] at live
      obtain ⟨old, there⟩ := sound.isLive_iff.mp live
      obtain ⟨now, here, same⟩ := alters.descriptors handle old there
      rw [seen] at here
      cases here
      constructor
      · rw [same]
        exact (apart.sane handle old there).builtin
      · intro char
        have known := classOf_of_view there
        rw [← same, char] at known
        exact absurd known (plain handle written)
    · rw [alters.views handle written] at seen
      exact apart.sane handle view seen

/-- A container stays apart while nothing shows. -/
theorem Apart.of_views (apart : heap.Apart parts) (same : next.view? = heap.view?) :
    next.Apart parts := by
  have classes : ∀ handle id, next.classOf handle = .ok id → heap.classOf handle = .ok id := by
    intro handle id known
    unfold Heap.classOf at known
    cases found : next.objectOf handle with
    | error error =>
        rw [found] at known
        cases known
    | ok object =>
        have seen := view?_eq_some_iff.mpr ⟨object, found, rfl⟩
        rw [found] at known
        cases known
        rw [same] at seen
        exact classOf_of_view seen
  constructor
  · intro handle view target unlisted seen array refers member vector
    rw [same] at seen
    exact apart.arrays handle view target unlisted seen array refers member (classes _ _ vector)
  · intro handle view target unlisted seen table refers member array
    rw [same] at seen
    exact apart.tables handle view target unlisted seen table refers member (classes _ _ array)
  · intro handle view seen
    rw [same] at seen
    exact apart.sane handle view seen

end Heap

end CompactingHeap
