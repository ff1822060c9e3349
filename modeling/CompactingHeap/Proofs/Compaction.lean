import CompactingHeap.Proofs.Collection

/-!
# Compacted heaps

The space of a compacted heap holds the survivors with their references redirected, and nothing
else.  Because the survivors are closed under references and hold the objects of all roots, every
part of the invariant carries over from the heap before the collection.
-/

namespace CompactingHeap

namespace Heap

variable {start finish : Heap} {live : List Address}

/-- The objects of a compacted heap are the survivors with their references redirected. -/
theorem Compacts.object?_eq_some_iff (compacts : start.Compacts finish live) {copy : Address}
    {object : HeapObject} :
    finish.space.object? copy = some object ↔
      ∃ address original, forwarding (start.space.number + 1) live address = some copy ∧
        start.space.object? address = some original ∧
        object = original.redirect (forwarding (start.space.number + 1) live) := by
  constructor
  · intro found
    obtain ⟨number, inside⟩ := Space.position_lt found
    rw [compacts.number] at number
    rw [compacts.size] at inside
    rcases compacts.copies _ _ (List.getElem?_eq_getElem inside) with
      ⟨original, place, before, after⟩
    have here : (⟨start.space.number + 1, copy.position⟩ : Address) = copy := by
      rw [← number]
    rw [here] at after
    rw [Space.object?_eq_some_iff.mpr ⟨place, after⟩] at found
    cases found
    refine ⟨_, original, ?_, before, rfl⟩
    exact (forwarding_eq_some_iff compacts.distinct).mpr
      ⟨number, List.getElem?_eq_getElem inside⟩
  · rintro ⟨address, original, forwarded, before, rfl⟩
    rcases (forwarding_eq_some_iff compacts.distinct).mp forwarded with ⟨number, here⟩
    obtain ⟨object, place, known, after⟩ := compacts.copies _ _ here
    rw [before] at known
    cases known
    rw [← number] at after
    rw [← number]
    exact Space.object?_eq_some_iff.mpr ⟨place, after⟩

/-- A survivor is forwarded to its copy. -/
theorem Compacts.exists_forwarding {address : Address} (member : address ∈ live) (number : Nat) :
    ∃ copy, forwarding number live address = some copy :=
  ⟨_, forwarding_of_mem number member⟩

/-- A handle is live after a collection exactly if it was before and its object has survived. -/
theorem Compacts.isLive_iff (compacts : start.Compacts finish live) {handle : Handle} :
    finish.handles.isLive handle = true ↔
      ∃ address holds, start.handles.find handle = .ok (address, holds) ∧ address ∈ live := by
  rw [HandleTable.isLive_iff]
  constructor
  · rintro ⟨copy, holds, found⟩
    rcases (compacts.found handle copy holds).mp found with ⟨address, before, forwarded⟩
    exact ⟨address, holds, before, mem_of_forwarding forwarded⟩
  · rintro ⟨address, holds, before, member⟩
    obtain ⟨copy, forwarded⟩ := Compacts.exists_forwarding member (start.space.number + 1)
    exact ⟨copy, holds, (compacts.found handle copy holds).mpr ⟨address, before, forwarded⟩⟩

/-- The references of a survivor lead to survivors. -/
theorem Compacts.target_mem (compacts : start.Compacts finish live) {address target : Address}
    (member : address ∈ live) {object : HeapObject}
    (found : start.space.object? address = some object) (refers : target ∈ object.targets) :
    target ∈ live :=
  (compacts.reached target).mpr
    (Space.Reaches.step ((compacts.reached address).mp member) found refers)

/-- A live root handle survives. -/
theorem Compacts.isLive_of_root (compacts : start.Compacts finish live) {handle : Handle}
    (root : handle ∈ start.rootHandles) (before : start.handles.isLive handle = true) :
    finish.handles.isLive handle = true := by
  rcases HandleTable.isLive_iff.mp before with ⟨address, holds, found⟩
  have member : address ∈ start.rootAddresses := by
    apply List.mem_filterMap.mpr
    refine ⟨handle, root, ?_⟩
    rw [HandleTable.resolve_of_find found]
    rfl
  exact compacts.isLive_iff.mpr
    ⟨address, holds, found, (compacts.reached address).mpr (Space.Reaches.root member)⟩

/-- Handles and survivors name each other as before. -/
theorem Compacts.linked (compacts : start.Compacts finish live) (sound : start.Sound) :
    finish.space.Linked finish.handles where
  named handle copy holds found := by
    rcases (compacts.found handle copy holds).mp found with ⟨address, before, forwarded⟩
    obtain ⟨object, here, owner⟩ := sound.object_of_find before
    exact ⟨_, compacts.object?_eq_some_iff.mpr ⟨address, object, forwarded, here, rfl⟩,
      (Object.owner_redirect object _).trans owner⟩
  owned copy object found := by
    rcases compacts.object?_eq_some_iff.mp found with ⟨address, original, forwarded, here, rfl⟩
    obtain ⟨generation, holds, owned⟩ := sound.linked.owned address original here
    rw [Object.owner_redirect]
    exact ⟨generation, holds, (compacts.found _ _ _).mpr ⟨address, owned, forwarded⟩⟩
  rest copy object found := by
    rcases compacts.object?_eq_some_iff.mp found with ⟨address, original, _, here, rfl⟩
    exact (sound.linked.rest address original here).redirect _
  closed copy object found target refers := by
    rcases compacts.object?_eq_some_iff.mp found with ⟨address, original, forwarded, here, rfl⟩
    rw [Object.targets_redirect] at refers
    rcases List.mem_filterMap.mp refers with ⟨source, member, moved⟩
    obtain ⟨other, found⟩ := sound.linked.closed address original here source member
    exact ⟨_, compacts.object?_eq_some_iff.mpr ⟨source, other, moved, found, rfl⟩⟩

/-- A compacted heap is sound. -/
theorem Compacts.sound (compacts : start.Compacts finish live) (sound : start.Sound) :
    finish.Sound where
  idle := compacts.idle
  builtin := by
    rw [compacts.classes]
    exact sound.builtin
  accounts := compacts.accounts
  placed := compacts.placed
  bounded := by
    rw [compacts.slots]
    exact sound.bounded
  chained := compacts.chained
  linked := compacts.linked sound
  rooted root member := by
    rw [compacts.roots] at member
    apply compacts.isLive_of_root _ (sound.rooted root member)
    simp only [rootHandles, RootSet.enumerate, RootSet.roots, List.mem_append, List.mem_map,
      List.mem_reverse]
    exact Or.inl (Or.inl (Or.inl ⟨root, member, rfl⟩))
  interned handle member := by
    rw [compacts.interner] at member
    apply compacts.isLive_of_root _ (sound.interned handle member)
    simp only [rootHandles, Interner.handles, List.mem_append, List.mem_reverse]
    exact Or.inr member
  listed := by
    rw [compacts.interner]
    exact sound.listed

end Heap

end CompactingHeap
