import CompactingHeap.Proofs.Soundness

/-!
# Changing linked spaces

An object may be changed as long as it keeps its owner and refers to objects, a new object may be
added under a handle that is minted for it, and room may be made, without breaking the links
between handles and objects.
-/

namespace CompactingHeap

namespace Space

/-- An object of a changed space is the changed object or an old one elsewhere. -/
theorem object?_modify_cases {space : Space} {address other : Address}
    {f : HeapObject → HeapObject} {object : HeapObject}
    (found : (space.modify address f).object? other = some object) :
    (∃ old, space.object? address = some old ∧ other = address ∧ object = f old) ∨
      space.object? other = some object := by
  by_cases same : address = other
  · subst other
    rw [object?_modify_self] at found
    rcases Option.map_eq_some_iff.mp found with ⟨old, here, rfl⟩
    exact Or.inl ⟨old, here, rfl, rfl⟩
  · rw [object?_modify_of_ne space f same] at found
    exact Or.inr found

/-- Changing an object leaves an object at every address that had one. -/
theorem exists_object?_modify {space : Space} {other : Address} (address : Address)
    (f : HeapObject → HeapObject) (present : ∃ object, space.object? other = some object) :
    ∃ object, (space.modify address f).object? other = some object := by
  rcases present with ⟨object, found⟩
  by_cases same : address = other
  · subst other
    exact ⟨f object, by rw [object?_modify_self, found, Option.map_some]⟩
  · exact ⟨object, by rw [object?_modify_of_ne space f same, found]⟩

/-- Only the address that a handle names matters for the links. -/
theorem Linked.of_resolve {space : Space} {handles changed : HandleTable Address}
    (linked : space.Linked handles)
    (same : ∀ handle, changed.resolve handle = handles.resolve handle) : space.Linked changed where
  named handle address holds found := by
    have resolved := HandleTable.resolve_of_find found
    rw [same] at resolved
    obtain ⟨before, found⟩ := HandleTable.find_of_resolve resolved
    exact linked.named handle address before found
  owned address object found := by
    obtain ⟨generation, holds, owned⟩ := linked.owned address object found
    have resolved := HandleTable.resolve_of_find owned
    rw [← same] at resolved
    exact ⟨generation, HandleTable.find_of_resolve resolved⟩
  rest := linked.rest
  closed := linked.closed

/-- Only the objects matter for the links, not the slabs. -/
theorem Linked.congr {space other : Space} {handles : HandleTable Address}
    (linked : space.Linked handles)
    (same : ∀ address, other.object? address = space.object? address) : other.Linked handles := by
  rcases linked with ⟨named, owned, rest, closed⟩
  constructor
  · simpa only [same] using named
  · simpa only [same] using owned
  · simpa only [same] using rest
  · simpa only [same] using closed

/-- An object may be changed as long as its owner stays, it stays at rest, and its references lead
to objects. -/
theorem Linked.modify {space : Space} {handles : HandleTable Address}
    (linked : space.Linked handles) (address : Address) {f : HeapObject → HeapObject}
    (owner : ∀ object, (f object).owner = object.owner)
    (rest : ∀ object, space.object? address = some object → (f object).AtRest)
    (closed : ∀ object, space.object? address = some object → ∀ target ∈ (f object).targets,
      ∃ other, space.object? target = some other) :
    (space.modify address f).Linked handles where
  named handle other holds found := by
    obtain ⟨object, here, owns⟩ := linked.named handle other holds found
    by_cases same : address = other
    · subst other
      exact ⟨f object, by rw [object?_modify_self, here, Option.map_some],
        (owner object).trans owns⟩
    · exact ⟨object, by rw [object?_modify_of_ne space f same, here], owns⟩
  owned other object found := by
    rcases object?_modify_cases found with ⟨old, here, rfl, rfl⟩ | here
    · rw [owner]
      exact linked.owned _ old here
    · exact linked.owned other object here
  rest other object found := by
    rcases object?_modify_cases found with ⟨old, here, rfl, rfl⟩ | here
    · exact rest old here
    · exact linked.rest other object here
  closed other object found target refers := by
    apply exists_object?_modify
    rcases object?_modify_cases found with ⟨old, here, rfl, rfl⟩ | here
    · exact closed old here target refers
    · exact linked.closed other object here target refers

/-- An object of an extended space is the new one or an old one elsewhere. -/
theorem object?_add_cases {space : Space} {place : Place} {object other : HeapObject}
    {address : Address} (found : (space.add place object).object? address = some other) :
    (address = space.nextAddress ∧ other = object) ∨ space.object? address = some other := by
  by_cases same : address = space.nextAddress
  · subst address
    rw [object?_add_self] at found
    cases found
    exact Or.inl ⟨rfl, rfl⟩
  · rw [object?_add_of_ne space place object same] at found
    exact Or.inr found

/-- The old objects stay where they are. -/
theorem object?_add_of_some {space : Space} {address : Address} {old : HeapObject}
    (here : space.object? address = some old) (place : Place) (object : HeapObject) :
    (space.add place object).object? address = some old := by
  have apart : address ≠ space.nextAddress := by
    rintro rfl
    rw [object?_nextAddress] at here
    cases here
  rw [object?_add_of_ne space place object apart, here]

/-- A new object without references may be added under a handle that is minted for it. -/
theorem Linked.add {space : Space} {handles minted : HandleTable Address}
    (linked : space.Linked handles) {handle : Handle}
    (mints : handles.Mints space.nextAddress handle minted) (place : Place) {object : HeapObject}
    (owner : object.owner = handle.index) (rest : object.AtRest) (blank : object.targets = []) :
    (space.add place object).Linked minted where
  named other address holds found := by
    by_cases same : other = handle
    · subst other
      rw [mints.found] at found
      cases found
      exact ⟨object, space.object?_add_self place object, owner⟩
    · rw [mints.others other same] at found
      obtain ⟨old, here, owns⟩ := linked.named other address holds found
      exact ⟨old, object?_add_of_some here place object, owns⟩
  owned address found here := by
    rcases object?_add_cases here with ⟨rfl, rfl⟩ | here
    · rw [owner]
      exact ⟨handle.generation, 1, mints.found⟩
    · obtain ⟨generation, holds, owned⟩ := linked.owned address found here
      exact ⟨generation, holds, mints.find_of_find owned⟩
  rest address found here := by
    rcases object?_add_cases here with ⟨rfl, rfl⟩ | here
    · exact rest
    · exact linked.rest address found here
  closed address found here target refers := by
    rcases object?_add_cases here with ⟨rfl, rfl⟩ | here
    · rw [blank] at refers
      cases refers
    · obtain ⟨other, there⟩ := linked.closed address found here target refers
      exact ⟨other, object?_add_of_some there place object⟩

/-- Making room leaves the objects alone. -/
theorem MadeRoom.object? {space next : Space} {place : Place} {layout : Layout}
    (room : space.MadeRoom next place layout) (address : Address) :
    next.object? address = space.object? address := by
  unfold Space.object? Space.resident?
  rw [room.number, room.residents]

end Space

end CompactingHeap
