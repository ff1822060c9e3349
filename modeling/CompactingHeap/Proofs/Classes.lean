import CompactingHeap.Proofs.Operations

/-!
# Classes

The identifier of a registered class is its position in the registry, and the index of names gives
the identifiers of all classes.  The classes that every heap offers keep their descriptors for
ever.
-/

namespace CompactingHeap

namespace Registry

/-- The identifier of every class is its position, and the index has every class under its name. -/
structure Numbered (registry : Registry) : Prop where
  id : ∀ (position : Nat) (descriptor : Descriptor),
    registry.classes[position]? = some descriptor → descriptor.id = ⟨position.toUInt32⟩
  names : registry.names =
    (registry.toList.map fun descriptor => (descriptor.name, descriptor.id)).reverse

theorem numbered_initial : initial.Numbered where
  id position descriptor found := by
    have inside : position < 9 := (Array.getElem?_eq_some_iff.mp found).1
    match position, inside with
    | 0, _ | 1, _ | 2, _ | 3, _ | 4, _ | 5, _ | 6, _ | 7, _ | 8, _ =>
        cases found
        rfl
  names := rfl

theorem Numbered.register {registry extended : Registry} (numbered : registry.Numbered)
    {name : String} {size align : Nat} {trace : List TraceEntry} {byteTail : Bool} {id : ClassId}
    (registers : registry.register name size align trace byteTail = .ok (id, extended)) :
    extended.Numbered := by
  obtain ⟨last, _, added, made, grown, named⟩ := register_eq_ok registers
  obtain ⟨addedId, addedName⟩ : added.id = id ∧ added.name = name := by
    unfold Descriptor.make at made
    split at made
    · cases made
      exact ⟨rfl, rfl⟩
    · cases made
  constructor
  · intro position descriptor found
    rw [grown, Array.getElem?_push] at found
    split at found
    · next here =>
      cases found
      rw [addedId, last, here]
      rfl
    · exact numbered.id position descriptor found
  · rw [named, numbered.names, toList, toList, grown, Array.toList_push, List.map_append,
      List.reverse_append, ← addedId, ← addedName]
    rfl

/-- The descriptor that an identifier gives has this identifier. -/
theorem Numbered.id_of_get {registry : Registry} (numbered : registry.Numbered) {id : ClassId}
    {descriptor : Descriptor} (known : registry.get id = .ok descriptor) : descriptor.id = id := by
  rw [numbered.id id.index descriptor (get_eq_ok_iff.mp known)]
  exact congrArg ClassId.mk UInt32.ofNat_toNat

/-- What the index gives for a name is the identifier of a class of this name. -/
theorem Numbered.of_find? {registry : Registry} (numbered : registry.Numbered) {name : String}
    {id : ClassId} (found : registry.find? name = some id) :
    ∃ (position : Nat) (descriptor : Descriptor), registry.classes[position]? = some descriptor ∧
      descriptor.name = name ∧ id = ⟨position.toUInt32⟩ := by
  obtain ⟨before, after, split, _⟩ := List.lookup_eq_some_iff.mp found
  have listed : (name, id) ∈ registry.names := by
    rw [split]
    exact List.mem_append_right before List.mem_cons_self
  rw [numbered.names, List.mem_reverse, List.mem_map] at listed
  obtain ⟨descriptor, member, same⟩ := listed
  obtain ⟨position, here⟩ := List.mem_iff_getElem?.mp member
  rw [toList, Array.getElem?_toList] at here
  obtain ⟨named, identified⟩ := Prod.mk.inj same
  exact ⟨position, descriptor, here, named,
    identified.symm.trans (numbered.id position descriptor here)⟩

/-- An identifier that the index gives belongs to a class. -/
theorem Numbered.exists_get {registry : Registry} (numbered : registry.Numbered) {name : String}
    {id : ClassId} (found : registry.find? name = some id) :
    ∃ descriptor, registry.get id = .ok descriptor := by
  obtain ⟨position, descriptor, here, _, rfl⟩ := numbered.of_find? found
  have inside := (Array.getElem?_eq_some_iff.mp here).1
  have cut : ClassId.index ⟨position.toUInt32⟩ ≤ position := Nat.mod_le _ _
  exact ⟨_, get_eq_ok_iff.mpr (Array.getElem?_eq_getElem (Nat.lt_of_le_of_lt cut inside))⟩

end Registry

namespace Heap

/-- The class that a heap offers at a position. -/
theorem Sound.get_builtin {heap : Heap} (sound : heap.Sound) {id : ClassId}
    {descriptor : Descriptor} (known : Registry.initial.classes[id.index]? = some descriptor) :
    heap.classes.get id = .ok descriptor :=
  Registry.get_eq_ok_iff.mpr (sound.builtin id.index descriptor known)

/-- A quiet step keeps the settings, and leaves the classes alone or registers one. -/
theorem Quiet.settings {heap next : Heap} (quiet : Quiet heap next) (sound : heap.Sound)
    (bounded : next.handles.slots < 2 ^ 32) :
    next.config = heap.config ∧ (next.classes = heap.classes ∨
      ∃ name size align trace byteTail id,
        heap.classes.register name size align trace byteTail = .ok (id, next.classes)) := by
  cases quiet with
  | registered registers => exact ⟨rfl, Or.inr ⟨_, _, _, _, _, _, registers⟩⟩
  | @allocated descriptor extra layout laidOut place roomy _ handle finds ran =>
      obtain ⟨_, settles⟩ := sound.allocated finds ran bounded
      have found := sound.findsRoom laidOut finds
      rw [settles.rest, found.rest]
      exact ⟨rfl, Or.inl rfl⟩
  | refused laidOut ran =>
      obtain ⟨_, _, rfl⟩ := run_grow_eq_error ran
      exact ⟨rfl, Or.inl rfl⟩
  | abandoned ran =>
      obtain ⟨_, _, _, rfl, _⟩ := sound.collectNow_error ran
      exact ⟨rfl, Or.inl rfl⟩
  | _ => exact ⟨rfl, Or.inl rfl⟩

/-- The settings never change, and classes keep their positions. -/
theorem Course.settings {heap last : Heap} {log : List (Heap × Heap)}
    (course : Course heap log last) (sound : heap.Sound) (bounded : last.handles.slots < 2 ^ 32) :
    last.config = heap.config ∧ (heap.classes.Numbered → last.classes.Numbered) := by
  induction course with
  | done heap => exact ⟨rfl, id⟩
  | @quiet heap next last log step rest ih =>
      have small := Nat.lt_of_le_of_lt rest.slots_le bounded
      obtain ⟨sameConfig, classes⟩ := step.settings sound small
      obtain ⟨config, numbered⟩ := ih (step.calm sound small).sound bounded
      refine ⟨config.trans sameConfig, ?_⟩
      intro before
      apply numbered
      rcases classes with same | ⟨_, _, _, _, _, _, registers⟩
      · rw [same]
        exact before
      · exact before.register registers
  | @collected heap next last log ran rest ih =>
      obtain ⟨live, compacts⟩ := sound.compacts ran
      obtain ⟨config, numbered⟩ := ih (compacts.sound sound) bounded
      refine ⟨config.trans compacts.config, ?_⟩
      intro before
      apply numbered
      rw [compacts.classes]
      exact before

/-- A reachable heap has settings that were accepted, and its classes are numbered. -/
theorem Reachable.settings {heap : Heap} (reachable : heap.Reachable) :
    heap.config.validate = .ok () ∧ heap.classes.Numbered := by
  induction reachable with
  | created created =>
      obtain ⟨accepted, rfl⟩ := new_eq_ok_iff.mp created
      exact ⟨accepted, Registry.numbered_initial⟩
  | after reachable offered bounded ih =>
      obtain ⟨log, course⟩ := offered.tame.course _ reachable.sound bounded
      obtain ⟨config, numbered⟩ := course.settings reachable.sound bounded
      exact ⟨config ▸ ih.1, numbered ih.2⟩

end Heap

end CompactingHeap
