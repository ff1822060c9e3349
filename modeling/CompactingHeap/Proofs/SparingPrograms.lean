import CompactingHeap.Proofs.Sparing

/-!
# Operations of a heap that spare an enclave

Every operation on classes, values, roots and interned strings spares every enclave.  What they
write are new objects, and pairs that are no parts.
-/

namespace CompactingHeap

open Heap

namespace Enclave

variable {enclave : Enclave} {known : List Fact}

/-! ## Values -/

theorem spares_allocInt (value : Int64) : enclave.Spares known (allocInt value) :=
  (gives_allocScalar (by simp) value.toUInt64 (fun char => by cases char)).forget

theorem spares_allocFloat (bits : UInt64) : enclave.Spares known (allocFloat bits) :=
  (gives_allocScalar (by simp) bits (fun char => by cases char)).forget

theorem spares_allocBool (value : Bool) : enclave.Spares known (allocBool value) :=
  (gives_allocScalar (by simp) _ (fun char => by cases char)).forget

theorem spares_allocChar (value : Char) : enclave.Spares known (allocChar value) := by
  refine (gives_allocScalar (by simp) value.val.toUInt64 fun _ => ?_).forget
  rw [UInt32.toUInt32_toUInt64]
  exact value.valid

theorem spares_cons (car cdr : Option Handle) : enclave.Spares known (cons car cdr) := by
  unfold cons
  apply (gives_withHeld _ (gives_allocate .cons 0)).bind
  intro cell
  have outside : ∀ others heap, enclave.Knows heap (others ++ (newFacts cell ++ known)) →
      enclave.Outside cell := fun others heap knows => knows (.outside cell) (by simp [newFacts])
  apply (spares_writeRef (outside []) fun storage => by cases storage).bind
  intro _
  apply (spares_writeRef (outside []) fun storage => by cases storage).bind
  intro _
  exact Gives.pure fun heap _ => knows_nil heap

theorem spares_writePair {cell : Handle} {offset : Nat} {value : Option Handle}
    (outside : enclave.Outside cell) (inner : offset ≠ storageOffset) :
    enclave.Spares known (writePair cell offset value) := by
  unfold writePair
  apply (Gives.asking _).bind
  intro _
  exact spares_writeRef (fun _ _ => outside) fun storage => absurd storage inner

/-! ## Classes, roots and interned strings -/

theorem spares_register (name : String) (size align : Nat) (trace : List TraceEntry)
    (byteTail : Bool) : enclave.Spares known (register name size align trace byteTail) := by
  apply Gives.of_views (tame_register name size align trace byteTail)
  intro heap
  unfold register
  rw [HeapM.run_bind, HeapM.run_get]
  dsimp only
  cases heap.classes.register name size align trace byteTail with
  | error error => rfl
  | ok registered => exact view?_of_space rfl fun _ => rfl

theorem spares_registerRoot (source : RootSource) (handle : Handle) :
    enclave.Spares known (registerRoot source handle) := by
  apply Gives.of_views (tame_registerRoot source handle)
  intro heap
  unfold registerRoot
  rw [HeapM.run_bind, HeapM.run_ask]
  cases heap.handles.resolve handle with
  | error error => rfl
  | ok address => exact view?_of_space rfl fun _ => rfl

theorem spares_unregisterRoot (source : RootSource) (handle : Handle) :
    enclave.Spares known (unregisterRoot source handle) := by
  apply Gives.of_views (tame_unregisterRoot source handle)
  intro heap
  unfold unregisterRoot
  rw [HeapM.run_bind, HeapM.run_get]
  dsimp only
  cases heap.roots.unregister source handle with
  | none => rfl
  | some roots => exact view?_of_space rfl fun _ => rfl

theorem spares_unregisterSource (source : RootSource) :
    enclave.Spares known (unregisterSource source) :=
  Gives.of_views (tame_unregisterSource source) fun _ => view?_of_space rfl fun _ => rfl

theorem spares_addScanner (report : List Handle) : enclave.Spares known (addScanner report) :=
  Gives.of_views (tame_addScanner report) fun _ => view?_of_space rfl fun _ => rfl

theorem spares_setReport (id : ScannerId) (report : List Handle) :
    enclave.Spares known (setReport id report) :=
  Gives.of_views (tame_setReport id report) fun _ => view?_of_space rfl fun _ => rfl

theorem spares_removeScanner (id : ScannerId) : enclave.Spares known (removeScanner id) := by
  apply Gives.of_views (tame_removeScanner id)
  intro heap
  unfold removeScanner
  rw [HeapM.run_bind, HeapM.run_get]
  dsimp only
  cases heap.roots.removeScanner id with
  | none => rfl
  | some roots => exact view?_of_space rfl fun _ => rfl

/-- Making a string canonical changes no view. -/
theorem view?_publish (bytes : Bytes) (handle : Handle) (heap : Heap) :
    ((publish bytes handle).run heap).2.view? = heap.view? := by
  have interned : ({ heap with interner := heap.interner.insert bytes handle } : Heap).view? =
      heap.view? := view?_of_space rfl fun _ => rfl
  unfold publish
  rw [HeapM.run_bind, HeapM.run_modify]
  dsimp only
  rw [HeapM.run_bind, run_onHandles]
  dsimp only
  rcases ran : heap.handles.release handle with ⟨error | _, handles⟩
  · rw [HandleTable.release_eq_error ran]
    exact interned
  · obtain ⟨address, holds, found, _, rfl⟩ := HandleTable.release_eq_ok ran
    have foundThere : ({ heap with interner := heap.interner.insert bytes handle } :
        Heap).handles.find handle = .ok (address, holds) := found
    exact (recounts_setSlot foundThere (holds - 1)).view?.trans interned

theorem spares_intern (bytes : Bytes) : enclave.Spares known (intern bytes) where
  tame := tame_intern bytes
  spares heap ready knows := by
    refine ⟨?_, fun _ _ => knows_nil _⟩
    cases new : heap.interner.lookup bytes with
    | some handle =>
        rw [run_intern_of_some new]
        exact ready.guarded.spared_refl
    | none =>
        have gives : enclave.Gives known (allocString bytes) newFacts :=
          gives_allocateBytes .string bytes
        have starts := gives.spares heap
        rw [run_intern_of_none new, HeapM.run_bind] at ready ⊢
        rcases ran : (allocString bytes).run heap with ⟨error | handle, middle⟩
        · rw [ran] at ready starts
          exact (starts ready knows).1
        · rw [ran] at ready starts
          dsimp only at ready starts ⊢
          have small := Nat.lt_of_le_of_lt (slots_le_publish bytes handle middle) ready.bounded
          have middleSound := gives.tame.sound ready.sound (by rw [ran]; exact small)
          rw [ran] at middleSound
          obtain ⟨live, sameInterner⟩ := ready.sound.allocString_ok ran small
          rw [← sameInterner] at new
          obtain ⟨log, course⟩ := (middleSound.follows_publish new live ready.bounded).course
          obtain ⟨spared, _⟩ := starts ⟨⟨ready.sound, ready.numbered, small,
            ready.lasting.left course⟩, ready.guarded⟩ knows
          exact spared.trans
            (spared_of_views spared.guarded (view?_publish bytes handle middle))

theorem spares_qualify (scope name : Handle) : enclave.Spares known (qualify scope name) := by
  unfold qualify
  apply Gives.get.bind
  intro heap
  split
  · exact Gives.pure fun heap _ => knows_nil heap
  · apply (Gives.asking _).bind
    intro scopeBytes
    apply (Gives.asking _).bind
    intro nameBytes
    apply (spares_intern _).bind
    intro qualified
    apply (Gives.of_views (tame_compose scope name qualified)
      fun _ => view?_of_space rfl fun _ => rfl).bind
    intro _
    exact Gives.pure fun heap _ => knows_nil heap

theorem spares_qualifyFrom (scope : Handle) (segments : List Bytes) :
    enclave.Spares known (qualifyFrom scope segments) := by
  induction segments generalizing scope known with
  | nil => exact Gives.pure fun heap _ => knows_nil heap
  | cons segment rest ih =>
      unfold qualifyFrom
      apply (spares_intern segment).bind
      intro name
      apply (spares_qualify scope name).bind
      intro qualified
      exact ih qualified

theorem spares_qualifyPath (segments : List Bytes) :
    enclave.Spares known (qualifyPath segments) := by
  cases segments with
  | nil => exact Gives.throw _
  | cons first rest =>
      unfold qualifyPath
      apply (spares_intern first).bind
      intro scope
      exact spares_qualifyFrom scope rest

end Enclave

end CompactingHeap
