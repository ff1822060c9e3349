import CompactingHeap.Proofs.Compounds

/-!
# Sane heaps

No operation writes the code point of a character once it is there, so every character of a
reachable heap shows a code point that is one.  That every operation spares the enclave without
parts says no more than this.
-/

namespace CompactingHeap

namespace Enclave

/-- The enclave without parts. -/
def vacant : Enclave where
  roots := []
  part? _ := none
  class? _ := none
  rooted _ root := absurd root List.not_mem_nil
  hangs _ part := by simp at part
  vectors _ _ part := by cases part

/-- Every object is clear of an enclave without parts. -/
theorem clear_vacant (heap : Heap) (id : ClassId) (handle : Handle) :
    vacant.Clear heap id handle where
  outside := rfl
  backed := by
    rintro view target _ _ ⟨shown, part, _⟩
    cases part

theorem guarded_vacant {heap : Heap}
    (sane : ∀ handle view, heap.view? handle = some view → view.Sane) : vacant.Guarded heap where
  parts _ _ part := by cases part
  classes _ _ known := by cases known
  arrays handle _ _ _ _ := clear_vacant heap .vector handle
  tables handle _ _ _ _ := clear_vacant heap .array handle
  sane := sane

theorem within_vacant : vacant.Within [] [] where
  covered _ _ part := by cases part
  storage := by
    rintro handle id _ ⟨view, part, _⟩
    cases part

theorem spares_vacant_writeRef (handle : Handle) (offset : Nat) (value : Option Handle) :
    vacant.Spares [] (Heap.writeRef handle offset value) where
  tame := Heap.tame_writeRef handle offset value
  spares heap ready _ := by
    have writable : Heap.Writable [] [] handle := ⟨List.not_mem_nil, List.not_mem_nil⟩
    have unplanted : ¬ heap.Plants [] handle offset value := by
      rintro ⟨_, part, member, _⟩
      cases member
    refine ⟨⟨within_vacant.guarded_writeRef ready writable unplanted, ?_⟩, fun _ _ => knows_nil _⟩
    exact fun id other _ => clear_vacant _ id other

end Enclave

open Enclave

/-- Every public operation spares the enclave without parts. -/
theorem Operation.spares_vacant {α : Type} {operation : HeapM α} (offered : Operation operation) :
    vacant.Spares [] operation := by
  have outside (handle : Handle) : vacant.Outside handle := rfl
  have clear {id : ClassId} {handle : Handle} : ∀ middle, vacant.Knows middle [] →
      vacant.Clear middle id handle := fun middle _ => clear_vacant middle id handle
  cases offered with
  | ask question => exact Gives.asking question
  | register name size align trace byteTail =>
      exact spares_register name size align trace byteTail
  | allocate id extra => exact (gives_allocate id extra).forget
  | allocateBytes id bytes => exact (gives_allocateBytes id bytes).forget
  | allocInt value => exact spares_allocInt value
  | allocFloat bits => exact spares_allocFloat bits
  | allocBool value => exact spares_allocBool value
  | allocChar value => exact spares_allocChar value
  | allocString bytes => exact (gives_allocateBytes .string bytes).forget
  | allocVector length => exact (gives_allocate .vector length).forget
  | cons car cdr => exact spares_cons car cdr
  | setCar cell value => exact spares_writePair (outside cell) (by decide)
  | setCdr cell value => exact spares_writePair (outside cell) (by decide)
  | writeRef handle offset value => exact spares_vacant_writeRef handle offset value
  | writeWord handle offset value => exact spares_writeWord fun _ _ => outside handle
  | runSet handle index value =>
      exact spares_runSet fun _ _ => (outside handle).not_has .vector
  | retain handle => exact spares_retain handle
  | release handle => exact spares_release handle
  | registerRoot source handle => exact spares_registerRoot source handle
  | unregisterRoot source handle => exact spares_unregisterRoot source handle
  | unregisterSource source => exact spares_unregisterSource source
  | addScanner report => exact spares_addScanner report
  | setReport id report => exact spares_setReport id report
  | removeScanner id => exact spares_removeScanner id
  | intern bytes => exact spares_intern bytes
  | qualify scope name => exact spares_qualify scope name
  | qualifyPath segments => exact spares_qualifyPath segments
  | collect => exact spares_collect
  | newArray => exact (gives_withCapacity 0).forget
  | arrayWithCapacity capacity => exact (gives_withCapacity capacity).forget
  | filledArray length => exact (gives_filled length).forget
  | arraySet array index value => exact spares_set clear
  | arrayPush array value => exact spares_push clear
  | arrayPop array => exact spares_pop clear
  | arrayClear array => exact spares_clear clear
  | newTable => exact spares_newTable
  | tableWithCapacity capacity => exact spares_tableWithCapacity capacity
  | tableInsert table key value hash => exact spares_insert clear
  | tableRemove table key hash => exact spares_remove clear

namespace Heap

/-- The characters of a reachable heap show code points. -/
theorem Reachable.sane {heap : Heap} (reachable : heap.Reachable) :
    ∀ handle view, heap.view? handle = some view → view.Sane := by
  induction reachable with
  | created created =>
      intro handle view seen
      have live := isLive_of_view seen
      obtain ⟨_, rfl⟩ := new_eq_ok_iff.mp created
      cases live
  | @after _ operation heap reachable offered bounded ih =>
      have assured : heap.Assured (operation.run heap).2 vacant.roots := reachable.assured bounded
      obtain ⟨spared, _⟩ :=
        offered.spares_vacant.spares heap ⟨assured, guarded_vacant ih⟩ (knows_nil heap)
      exact spared.guarded.sane

/-- In a reachable heap, what has no parts is apart. -/
theorem Reachable.apart {heap : Heap} (reachable : heap.Reachable) : heap.Apart [] where
  arrays _ _ _ _ _ _ _ member := absurd member List.not_mem_nil
  tables _ _ _ _ _ _ _ member := absurd member List.not_mem_nil
  sane := reachable.sane

end Heap

end CompactingHeap
