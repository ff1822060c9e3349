import CompactingHeap.Proofs.HeapPrograms

/-!
# Tame operations on values

Making built-in values and interning strings are tame.  These programs go on with the handle of the
object that they have just allocated, so what follows the allocation is looked at in the heap that
it leaves: the handle is live there, and the object has no run if it is a scalar.
-/

namespace CompactingHeap

namespace Heap

/-! ## Built-in values -/

theorem tame_setTail (handle : Handle) (bytes : Bytes) :
    Tame (modify fun heap => heap.modifyObject handle fun object => object.setTail bytes :
      HeapM PUnit) := by
  apply Tame.modify
  intro heap
  exact steps_modifyObject fun _ address _ => Quiet.tailWritten address bytes

theorem tame_allocateBytes (id : ClassId) (bytes : Bytes) : Tame (allocateBytes id bytes) := by
  unfold allocateBytes
  apply (Tame.ask _).bind
  intro descriptor
  apply Tame.ite
  · apply (tame_allocate id bytes.length).bind
    intro handle
    exact (tame_setTail handle bytes).bind fun _ => Tame.pure handle
  · exact Tame.throw _

/-- The classes of scalars have no run. -/
theorem Sound.runOffset?_scalar {heap : Heap} (sound : heap.Sound) {id : ClassId}
    (scalar : id ∈ [ClassId.int, ClassId.float, ClassId.bool, ClassId.char])
    {descriptor : Descriptor} (known : heap.classes.get id = .ok descriptor) :
    descriptor.runOffset? = none := by
  have builtin : ∃ initial, Registry.initial.classes[id.index]? = some initial ∧
      initial.runOffset? = none := by
    simp only [List.mem_cons, List.not_mem_nil, or_false] at scalar
    rcases scalar with rfl | rfl | rfl | rfl <;> exact ⟨_, rfl, rfl⟩
  rcases builtin with ⟨initial, first, noRun⟩
  have same := sound.builtin id.index initial first
  rw [Registry.get_eq_ok_iff.mp known] at same
  cases same
  exact noRun

/-- A scalar has no run, so its word may be written. -/
theorem Sound.steps_scalar {heap next : Heap} (sound : heap.Sound) {id : ClassId}
    (scalar : id ∈ [ClassId.int, ClassId.float, ClassId.bool, ClassId.char]) {handle : Handle}
    (allocated : heap.Allocated next id handle) (word : UInt64) :
    next.Steps (next.modifyObject handle fun object => object.setWord 0 word) := by
  obtain ⟨address, object, found, here, known⟩ := allocated.named
  apply steps_setWord
  intro other run named runs
  rw [objectOf_eq_ok_iff.mpr ⟨address, HandleTable.resolve_of_find found, here⟩] at named
  cases named
  rw [sound.runOffset?_scalar scalar known] at runs
  cases runs

theorem tame_allocScalar {id : ClassId}
    (scalar : id ∈ [ClassId.int, ClassId.float, ClassId.bool, ClassId.char]) (word : UInt64) :
    Tame (allocScalar id word) := by
  have tame := tame_allocate id 0
  let store : Handle → HeapM Handle := fun handle => do
    modify fun heap => heap.modifyObject handle fun object => object.setWord 0 word
    return handle
  have stores : ∀ handle middle, ((store handle).run middle).2 =
      middle.modifyObject handle fun object => object.setWord 0 word := fun _ _ => rfl
  have grows : ∀ handle middle,
      middle.handles.slots ≤ ((store handle).run middle).2.handles.slots := by
    intro handle middle
    rw [stores, handles_modifyObject]
  constructor
  · exact tame.slots_le_bind grows
  · intro heap sound bounded
    apply tame.follows_bind grows sound bounded
    intro handle middle ran middleSound bounded
    rw [stores] at bounded ⊢
    have small := bounded
    rw [handles_modifyObject] at small
    exact (sound.steps_scalar scalar (sound.allocate_ok ran small) word).follows middleSound bounded

theorem tame_cons (car cdr : Option Handle) : Tame (cons car cdr) := by
  unfold cons
  apply (tame_withHeld _ (tame_allocate .cons 0)).bind
  intro cell
  apply (tame_writeRef cell 0 car).bind
  intro _
  exact (tame_writeRef cell wordBytes cdr).bind fun _ => Tame.pure cell

theorem tame_writePair (cell : Handle) (offset : Nat) (value : Option Handle) :
    Tame (writePair cell offset value) := by
  unfold writePair
  exact (Tame.ask _).bind fun _ => tame_writeRef cell offset value

/-! ## Interning -/

/-- A string that has been allocated is live, and nothing has been interned. -/
theorem Sound.allocString_ok {heap next : Heap} (sound : heap.Sound) {bytes : Bytes}
    {handle : Handle} (ran : (allocString bytes).run heap = (.ok handle, next))
    (bounded : next.handles.slots < 2 ^ 32) :
    next.handles.isLive handle = true ∧ next.interner = heap.interner := by
  unfold allocString allocateBytes at ran
  rw [HeapM.run_bind, HeapM.run_ask] at ran
  split at ran
  · next descriptor same asked =>
    obtain ⟨_, unchanged⟩ := Prod.mk.inj asked
    subst same
    split at ran
    · rw [HeapM.run_bind] at ran
      rcases allocates : (allocate .string bytes.length).run heap with ⟨error | name, middle⟩
      · rw [allocates] at ran
        cases ran
      · rw [allocates] at ran
        dsimp only at ran
        rw [HeapM.run_bind, HeapM.run_modify] at ran
        cases ran
        rw [handles_modifyObject] at bounded ⊢
        have allocated := sound.allocate_ok allocates bounded
        obtain ⟨address, object, found, _, _⟩ := allocated.named
        refine ⟨HandleTable.isLive_iff.mpr ⟨address, 1, found⟩, ?_⟩
        rcases middle.modifyObject_eq handle (fun object => object.setTail bytes) with
          same | ⟨_, _, same⟩
        · rw [same]
          exact allocated.interner
        · rw [same]
          exact allocated.interner
    · cases ran
  · cases ran

/-- The second half of interning: a string becomes canonical and is released. -/
def publish (bytes : Bytes) (handle : Handle) : HeapM Handle := do
  modify fun heap => { heap with interner := heap.interner.insert bytes handle }
  onHandles fun handles => handles.release handle
  return handle

theorem slots_le_publish (bytes : Bytes) (handle : Handle) (heap : Heap) :
    heap.handles.slots ≤ ((publish bytes handle).run heap).2.handles.slots :=
  ((tame_onHandles_release handle).bind fun _ => Tame.pure handle).grows
    { heap with interner := heap.interner.insert bytes handle }

/-- A live string may become canonical for bytes that had none. -/
theorem Sound.follows_publish {heap : Heap} (sound : heap.Sound) {bytes : Bytes} {handle : Handle}
    (new : heap.interner.lookup bytes = none) (live : heap.handles.isLive handle = true)
    (bounded : ((publish bytes handle).run heap).2.handles.slots < 2 ^ 32) :
    heap.Follows ((publish bytes handle).run heap).2 := by
  have tame := (tame_onHandles_release handle).bind fun _ => Tame.pure handle
  have published := (Quiet.interned new live).follows sound sound.bounded rfl
  exact published.trans (tame.follows _ (sound.intern new live) bounded)

/-- Bytes that have a canonical string keep it. -/
theorem run_intern_of_some {heap : Heap} {bytes : Bytes} {handle : Handle}
    (known : heap.interner.lookup bytes = some handle) :
    (intern bytes).run heap = (.ok handle, heap) := by
  unfold intern
  rw [HeapM.run_bind, HeapM.run_get]
  dsimp only
  rw [known]
  rfl

/-- For bytes that have no canonical string one is allocated. -/
theorem run_intern_of_none {heap : Heap} {bytes : Bytes}
    (new : heap.interner.lookup bytes = none) :
    (intern bytes).run heap = (allocString bytes >>= publish bytes).run heap := by
  unfold intern
  rw [HeapM.run_bind, HeapM.run_get]
  dsimp only
  rw [new]
  rfl

theorem tame_intern (bytes : Bytes) : Tame (intern bytes) := by
  have tame : Tame (allocString bytes) := tame_allocateBytes .string bytes
  constructor
  · intro heap
    cases new : heap.interner.lookup bytes with
    | some handle => rw [run_intern_of_some new]
    | none =>
        rw [run_intern_of_none new]
        exact tame.slots_le_bind (slots_le_publish bytes) heap
  · intro heap sound bounded
    cases new : heap.interner.lookup bytes with
    | some handle =>
        rw [run_intern_of_some new]
        exact Follows.refl heap
    | none =>
        rw [run_intern_of_none new] at bounded ⊢
        apply tame.follows_bind (slots_le_publish bytes) sound bounded
        intro handle middle ran middleSound bounded
        have middleBounded := Nat.lt_of_le_of_lt (slots_le_publish bytes handle middle) bounded
        obtain ⟨live, same⟩ := sound.allocString_ok ran middleBounded
        rw [← same] at new
        exact middleSound.follows_publish new live bounded

/-- Recording a qualified name is tame. -/
theorem tame_compose (scope name qualified : Handle) :
    Tame (modify fun heap => { heap with
      interner := heap.interner.insertQualified scope name qualified } : HeapM PUnit) :=
  Tame.modify fun _ => ⟨rfl, rfl, fun _ => Or.inr (Quiet.composed scope name qualified)⟩

theorem tame_qualify (scope name : Handle) : Tame (qualify scope name) := by
  unfold qualify
  apply Tame.get.bind
  intro heap
  split
  · exact Tame.pure _
  · apply (Tame.ask _).bind
    intro scopeBytes
    apply (Tame.ask _).bind
    intro nameBytes
    apply (tame_intern _).bind
    intro qualified
    exact (tame_compose scope name qualified).bind fun _ => Tame.pure qualified

theorem tame_qualifyFrom (scope : Handle) (segments : List Bytes) :
    Tame (qualifyFrom scope segments) := by
  induction segments generalizing scope with
  | nil => exact Tame.pure scope
  | cons segment rest ih =>
      unfold qualifyFrom
      apply (tame_intern segment).bind
      intro name
      apply (tame_qualify scope name).bind
      intro qualified
      exact ih qualified

theorem tame_qualifyPath (segments : List Bytes) : Tame (qualifyPath segments) := by
  cases segments with
  | nil => exact Tame.throw _
  | cons first rest =>
      unfold qualifyPath
      apply (tame_intern first).bind
      intro scope
      exact tame_qualifyFrom scope rest

end Heap

end CompactingHeap
