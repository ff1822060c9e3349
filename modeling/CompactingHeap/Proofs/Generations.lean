import CompactingHeap.Proofs.Growth

/-!
# Generations

A collection moves the occupant of a handle slot or vacates the slot, and a slot that is vacated
goes on to its next generation.  So a handle that is minted after a collection is not the name of
an object that the collection has reclaimed: no handle is live again at once.
-/

namespace CompactingHeap

namespace HandleTable

variable {α : Type}

/-- What a collection may do to a slot: leave it alone, move its occupant, or vacate it, and then
the slot is of the next generation. -/
inductive Ages : Option (Entry α) → Option (Entry α) → Prop
  | kept (entry : Option (Entry α)) : Ages entry entry
  | moved {generation : UInt32} {old new : α} {holds : UInt32} :
      Ages (some ⟨generation, .live old holds⟩) (some ⟨generation, .live new holds⟩)
  | vacated {generation : UInt32} {old : α} {holds : UInt32} {next : Option UInt32} :
      Ages (some ⟨generation, .live old holds⟩) (some ⟨generation + 1, .vacant next⟩)

theorem Ages.trans {first second third : Option (Entry α)} (before : Ages first second)
    (after : Ages second third) : Ages first third := by
  cases before with
  | kept => exact after
  | moved =>
      cases after with
      | kept => exact Ages.moved
      | moved => exact Ages.moved
      | vacated => exact Ages.vacated
  | vacated =>
      cases after with
      | kept => exact Ages.vacated

theorem ages_update {table next : HandleTable α} {index : UInt32} {address : α}
    (updates : table.update index address = (.ok (), next)) (position : Nat) :
    Ages table.entries[position]? next.entries[position]? := by
  unfold update at updates
  split at updates
  · next generation old holds found =>
    cases updates
    by_cases here : index.toNat = position
    · subst here
      have inside := (Array.getElem?_eq_some_iff.mp found).1
      rw [found, Array.getElem?_setIfInBounds_self_of_lt inside]
      exact Ages.moved
    · rw [Array.getElem?_setIfInBounds_ne here]
      exact Ages.kept _
  · cases updates

theorem ages_recycle {table next : HandleTable α} {index : UInt32}
    (recycles : table.recycle index = (.ok (), next)) (position : Nat) :
    Ages table.entries[position]? next.entries[position]? := by
  unfold recycle at recycles
  split at recycles
  · next generation old holds found =>
    cases recycles
    by_cases here : index.toNat = position
    · subst here
      have inside := (Array.getElem?_eq_some_iff.mp found).1
      rw [found, Array.getElem?_setIfInBounds_self_of_lt inside]
      exact Ages.vacated
    · rw [Array.getElem?_setIfInBounds_ne here]
      exact Ages.kept _
  · cases recycles

theorem ages_recycleAll {table next : HandleTable Address} {dead : List UInt32}
    (recycles : table.recycleAll dead = .ok next) (position : Nat) :
    Ages table.entries[position]? next.entries[position]? := by
  induction dead generalizing table with
  | nil =>
      cases recycles
      exact Ages.kept _
  | cons index rest ih =>
      unfold recycleAll at recycles
      split at recycles
      · next first ran => exact (ages_recycle ran position).trans (ih recycles)
      · cases recycles

/-- A live handle whose slot has aged is still found, or its slot is vacant and of the next
generation. -/
theorem Ages.cases_of_find {table next : HandleTable α} {handle : Handle} {address : α}
    {holds : UInt32} (found : table.find handle = .ok (address, holds))
    (ages : Ages table.entries[handle.index.toNat]? next.entries[handle.index.toNat]?) :
    (∃ moved, next.find handle = .ok (moved, holds)) ∨
      ∃ chain, next.entries[handle.index.toNat]? =
        some ⟨handle.generation + 1, .vacant chain⟩ := by
  have entry := find_eq_ok_iff.mp found
  rw [entry] at ages
  cases after : next.entries[handle.index.toNat]? with
  | none =>
      rw [after] at ages
      cases ages
  | some occupant =>
      rw [after] at ages
      cases ages with
      | kept => exact Or.inl ⟨address, find_eq_ok_iff.mpr after⟩
      | @moved _ _ new => exact Or.inl ⟨new, find_eq_ok_iff.mpr after⟩
      | @vacated _ _ _ chain => exact Or.inr ⟨chain, rfl⟩

/-- A minted handle names a vacant slot of its generation, or a new slot. -/
theorem entry_of_mint {table next : HandleTable α} {address : α} {handle : Handle}
    (mints : table.mint address = (.ok handle, next)) :
    (∃ chain, table.entries[handle.index.toNat]? = some ⟨handle.generation, .vacant chain⟩) ∨
      handle.index = table.entries.size.toUInt32 ∧ next.slots = table.slots + 1 := by
  unfold mint at mints
  split at mints
  · cases mints
    exact Or.inr ⟨rfl, by simp [slots]⟩
  · split at mints
    · next generation chain found =>
      cases mints
      exact Or.inl ⟨chain, found⟩
    · cases mints

/-- A minted handle was not live before the slots aged. -/
theorem stale_of_mint {table aged next : HandleTable α} {address : α} {handle : Handle}
    (ages : ∀ position : Nat, Ages table.entries[position]? aged.entries[position]?)
    (mints : aged.Mints address handle next) (bounded : next.slots < 2 ^ 32) :
    table.isLive handle = false := by
  rw [← Bool.not_eq_true, isLive_iff]
  rintro ⟨old, holds, found⟩
  rcases (ages handle.index.toNat).cases_of_find found with ⟨moved, still⟩ | ⟨chain, vacant⟩
  · rw [mints.new] at still
    cases still
  · rcases entry_of_mint mints.eq with ⟨other, here⟩ | ⟨last, grown⟩
    · rw [vacant] at here
      have same := congrArg Entry.generation (Option.some.inj here)
      have different : handle.generation + 1 ≠ handle.generation := by
        intro same
        have wraps := congrArg UInt32.toNat same
        rw [UInt32.toNat_add] at wraps
        have bound := handle.generation.toNat_lt
        simp only [UInt32.reduceToNat] at wraps
        omega
      exact different same
    · have inside := (Array.getElem?_eq_some_iff.mp vacant).1
      rw [last] at inside
      have small : aged.entries.size < 2 ^ 32 := by
        unfold slots at grown bounded
        omega
      simp only [Nat.toUInt32_eq, UInt32.toNat_ofNat', Nat.mod_eq_of_lt small] at inside
      exact absurd inside (Nat.lt_irrefl _)

end HandleTable

theorem Space.ages_fixUp {source target fixed : Space} {handles updated : HandleTable Address}
    {live : List Address} (fixes : source.fixUp target handles live = .ok (fixed, updated))
    (position : Nat) :
    HandleTable.Ages handles.entries[position]? updated.entries[position]? := by
  induction live generalizing target handles with
  | nil =>
      cases fixes
      exact HandleTable.Ages.kept _
  | cons address rest ih =>
      obtain ⟨_, _, first, _, _, ran, fixes⟩ := Space.fixUp_cons_eq_ok fixes
      exact (HandleTable.ages_update ran position).trans (ih fixes)

namespace Heap

/-- A collection lets every slot age. -/
theorem ages_collectNow (heap : Heap) (position : Nat) :
    HandleTable.Ages heap.handles.entries[position]?
      heap.collectNow.2.handles.entries[position]? := by
  unfold collectNow
  dsimp only
  split
  · exact HandleTable.Ages.kept _
  · next relocation ran =>
    split
    · next collected finishes =>
      obtain ⟨fixed, updated, swept, fixes, sweeps, rfl⟩ := finishCollection_eq_ok_iff.mp finishes
      exact (Space.ages_fixUp fixes position).trans (HandleTable.ages_recycleAll sweeps position)
    · exact HandleTable.Ages.kept _

end Heap

end CompactingHeap
