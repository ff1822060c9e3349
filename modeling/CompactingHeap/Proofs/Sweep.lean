import CompactingHeap.Heap.Collection
import CompactingHeap.Proofs.LiveSlots
import CompactingHeap.Proofs.Relocation

/-!
# Fixing up and sweeping

After the objects have been copied, each copy is redirected once and the handle that owns it is
pointed at it.  The handles that still lead into the old space belong to the objects that were left
behind, and their slots are vacated, each once.
-/

namespace CompactingHeap

namespace Space

/-- What fixing up does: the copies of the given objects are redirected, and the handles of the
objects name the copies. -/
structure Fixes (target fixed : Space) (handles updated : HandleTable Address)
    (f : Address → Option Address) (copy : Address → Address) (live : List Address) : Prop where
  number : fixed.number = target.number
  slabs : fixed.slabs = target.slabs
  size : fixed.residents.size = target.residents.size
  residents : ∀ address, fixed.resident? address =
    if address ∈ live.map copy then
      (target.resident? address).map fun resident =>
        ⟨resident.place, resident.object.redirect f⟩
    else target.resident? address
  chained : updated.Chained
  slots : updated.slots = handles.slots
  found : ∀ handle address holds, updated.find handle = .ok (address, holds) ↔
    ∃ original, handles.find handle = .ok (original, holds) ∧
      address = if original ∈ live then copy original else original

/-- What fixing up relies on: the objects have been forwarded to copies apart from each other and
from all originals, and each copy is owned by the only handle of its original. -/
structure Fixable (source target : Space) (handles : HandleTable Address)
    (copy : Address → Address) (live : List Address) : Prop where
  chained : handles.Chained
  distinct : live.Nodup
  forwarded : ∀ address ∈ live, source.forwardOf address = some (copy address)
  injective : ∀ first ∈ live, ∀ second ∈ live, copy first = copy second → first = second
  fresh : ∀ first ∈ live, ∀ second ∈ live, copy first ≠ second
  named : ∀ address ∈ live, ∃ object handle holds, target.object? (copy address) = some object ∧
    object.owner = handle.index ∧ handles.find handle = .ok (address, holds)
  unique : ∀ address ∈ live, ∀ first second firstHolds secondHolds,
    handles.find first = .ok (address, firstHolds) →
      handles.find second = .ok (address, secondHolds) → first = second

section

variable {source target : Space} {handles : HandleTable Address} {copy : Address → Address}
  {address : Address} {rest : List Address}
  (ready : Fixable source target handles copy (address :: rest))

include ready

/-- The first copy is not one of the later ones. -/
theorem Fixable.copy_notMem : copy address ∉ rest.map copy := by
  intro member
  rcases List.mem_map.mp member with ⟨other, later, same⟩
  have equal := ready.injective other (List.mem_cons_of_mem address later) address
    List.mem_cons_self same
  exact (List.nodup_cons.mp ready.distinct).1 (equal ▸ later)

/-- Fixing up one copy leaves the rest to be fixed up. -/
theorem Fixable.tail {handle : Handle} {holds : UInt32}
    (found : handles.find handle = .ok (address, holds)) (f : HeapObject → HeapObject) :
    Fixable source (target.modify (copy address) f) (handles.setSlot handle (copy address) holds)
      copy rest := by
  rcases List.nodup_cons.mp ready.distinct with ⟨new, distinct⟩
  have later {other : Address} (member : other ∈ rest) : other ∈ address :: rest :=
    List.mem_cons_of_mem address member
  constructor
  · exact ready.chained.setSlot found _ _
  · exact distinct
  · exact fun other member => ready.forwarded other (later member)
  · exact fun first firstMember second secondMember =>
      ready.injective first (later firstMember) second (later secondMember)
  · exact fun first firstMember second secondMember =>
      ready.fresh first (later firstMember) second (later secondMember)
  · intro other member
    obtain ⟨object, owner, n, here, owns, ownerFound⟩ := ready.named other (later member)
    refine ⟨object, owner, n, ?_, owns, ?_⟩
    · have different : copy address ≠ copy other := fun same =>
        ready.copy_notMem (same ▸ List.mem_map_of_mem member)
      rw [object?_modify_of_ne _ _ different]
      exact here
    · rw [HandleTable.find_setSlot found, if_neg ?_]
      · exact ownerFound
      · rintro rfl
        rw [found] at ownerFound
        cases ownerFound
        exact new member
  · intro other member first second firstHolds secondHolds firstFound secondFound
    have before {name : Handle} {n : UInt32}
        (here : (handles.setSlot handle (copy address) holds).find name = .ok (other, n)) :
        handles.find name = .ok (other, n) := by
      rw [HandleTable.find_setSlot found] at here
      split at here
      · cases here
        exact absurd rfl (ready.fresh address List.mem_cons_self _ (later member))
      · exact here
    exact ready.unique other (later member) first second firstHolds secondHolds
      (before firstFound) (before secondFound)

/-- What is read in the end at the first copy and elsewhere, if the later copies are redirected
after the first one. -/
theorem Fixable.residents_cons (f : Address → Option Address) (other : Address) :
    (if other ∈ rest.map copy then
        ((target.modify (copy address) fun object => object.redirect f).resident? other).map
          fun resident => ⟨resident.place, resident.object.redirect f⟩
      else (target.modify (copy address) fun object => object.redirect f).resident? other) =
      if other ∈ (address :: rest).map copy then
        (target.resident? other).map fun resident =>
          ⟨resident.place, resident.object.redirect f⟩
      else target.resident? other := by
  by_cases same : copy address = other
  · subst other
    rw [if_neg ready.copy_notMem, if_pos (by simp), resident?_modify_self]
  · rw [resident?_modify_of_ne _ _ same]
    simp only [List.map_cons, List.mem_cons, Ne.symm same, false_or]

/-- A handle is the one of the first object exactly if it names it. -/
theorem Fixable.handle_eq_iff {handle : Handle} {holds : UInt32}
    (found : handles.find handle = .ok (address, holds)) {other : Handle} {original : Address}
    {n : UInt32} (here : handles.find other = .ok (original, n)) :
    other = handle ↔ original = address := by
  constructor
  · rintro rfl
    rw [found] at here
    cases here
    rfl
  · rintro rfl
    exact ready.unique original List.mem_cons_self other handle n holds here found

/-- What a handle names in the end, if the later handles are updated after the first one. -/
theorem Fixable.found_cons {handle : Handle} {holds : UInt32}
    (found : handles.find handle = .ok (address, holds)) (other : Handle) (target : Address)
    (n : UInt32) :
    (∃ original, (handles.setSlot handle (copy address) holds).find other = .ok (original, n) ∧
        target = if original ∈ rest then copy original else original) ↔
      ∃ original, handles.find other = .ok (original, n) ∧
        target = if original ∈ address :: rest then copy original else original := by
  have unmoved : copy address ∉ rest := fun member =>
    ready.fresh address List.mem_cons_self _ (List.mem_cons_of_mem address member) rfl
  rw [HandleTable.find_setSlot found]
  by_cases same : other = handle
  · subst other
    rw [if_pos rfl, found]
    constructor
    · rintro ⟨original, now, rfl⟩
      cases now
      exact ⟨address, rfl, by simp [unmoved]⟩
    · rintro ⟨original, before, rfl⟩
      cases before
      exact ⟨copy address, rfl, by simp [unmoved]⟩
  · rw [if_neg same]
    apply exists_congr
    intro original
    apply and_congr_right
    intro here
    have apart : original ≠ address := fun equal =>
      same ((ready.handle_eq_iff found here).mpr equal)
    simp only [List.mem_cons, apart, false_or]

end

/-- Fixing up succeeds, and redirects every copy once. -/
theorem Fixable.fixUp {source target : Space} {handles : HandleTable Address}
    {copy : Address → Address} {live : List Address}
    (ready : Fixable source target handles copy live) :
    ∃ fixed updated, source.fixUp target handles live = .ok (fixed, updated) ∧
      Fixes target fixed handles updated source.forwardOf copy live := by
  induction live generalizing target handles with
  | nil =>
      refine ⟨target, handles, rfl, rfl, rfl, rfl, ?_, ready.chained, rfl, ?_⟩
      · simp
      · simp
  | cons address rest ih =>
      obtain ⟨object, handle, holds, here, owns, found⟩ := ready.named address List.mem_cons_self
      have updates := HandleTable.update_eq_setSlot found (copy address)
      rcases ih (ready.tail found fun object => object.redirect source.forwardOf) with
        ⟨fixed, updated, fixes, all⟩
      refine ⟨fixed, updated, ?_, ?_, ?_, ?_, ?_, all.chained, ?_, ?_⟩
      · unfold Space.fixUp
        rw [ready.forwarded address List.mem_cons_self]
        dsimp only
        rw [here, Option.map_some]
        dsimp only
        rw [owns, updates]
        exact fixes
      · exact all.number.trans (number_modify _ _ _)
      · exact all.slabs.trans (slabs_modify _ _ _)
      · exact all.size.trans (size_residents_modify _ _ _)
      · intro other
        exact (all.residents other).trans (ready.residents_cons source.forwardOf other)
      · exact all.slots.trans (HandleTable.slots_setSlot _ _ _ _)
      · intro other target n
        exact (all.found other target n).trans (ready.found_cons found other target n)

end Space

namespace HandleTable

/-- Vacating several live slots succeeds and makes exactly the handles of those slots stale. -/
theorem Chained.recycleAll {table : HandleTable Address} (chained : table.Chained)
    {dead : List UInt32} (distinct : dead.Nodup)
    (live : ∀ index ∈ dead, ∃ handle occupant, handle.index = index ∧
      table.find handle = .ok occupant) :
    ∃ swept, table.recycleAll dead = .ok swept ∧ swept.Chained ∧ swept.slots = table.slots ∧
      ∀ handle occupant, swept.find handle = .ok occupant ↔
        handle.index ∉ dead ∧ table.find handle = .ok occupant := by
  induction dead generalizing table with
  | nil => exact ⟨table, rfl, chained, rfl, by simp⟩
  | cons index rest ih =>
      rcases List.nodup_cons.mp distinct with ⟨new, others⟩
      obtain ⟨handle, occupant, rfl, found⟩ := live index List.mem_cons_self
      obtain ⟨next, recycles, nextChained, slots, finds⟩ := chained.recycle found
      have nextLive : ∀ other ∈ rest, ∃ name occupant, name.index = other ∧
          next.find name = .ok occupant := by
        intro other member
        obtain ⟨name, occupant, rfl, here⟩ := live other (List.mem_cons_of_mem _ member)
        have apart : name.index ≠ handle.index := fun same => new (same ▸ member)
        refine ⟨name, occupant, rfl, ?_⟩
        rw [finds, if_neg apart]
        exact here
      obtain ⟨swept, sweeps, sweptChained, sweptSlots, all⟩ := ih nextChained others nextLive
      refine ⟨swept, ?_, sweptChained, sweptSlots.trans slots, ?_⟩
      · unfold HandleTable.recycleAll
        rw [recycles]
        exact sweeps
      · intro other occupant
        rw [all, finds, List.mem_cons]
        by_cases same : other.index = handle.index
        · simp [same]
        · simp [same]

/-- The slots left behind are live slots whose objects are no copies. -/
theorem mem_leftBehind_iff {table : HandleTable Address} (bounded : table.slots ≤ 2 ^ 32)
    {space : Space} {index : UInt32} :
    index ∈ table.leftBehind space ↔
      ∃ handle address holds, handle.index = index ∧
        table.find handle = .ok (address, holds) ∧ space.isCopy address = false := by
  simp only [leftBehind, List.mem_map, List.mem_filter, Bool.not_eq_true', Prod.exists,
    mem_occupied_iff bounded]
  constructor
  · rintro ⟨_, address, ⟨⟨generation, holds, found⟩, left⟩, rfl⟩
    exact ⟨_, address, holds, rfl, found, left⟩
  · rintro ⟨handle, address, holds, rfl, found, left⟩
    exact ⟨handle.index, address, ⟨⟨handle.generation, holds, found⟩, left⟩, rfl⟩

/-- No slot is left behind twice. -/
theorem nodup_leftBehind {table : HandleTable Address} (bounded : table.slots ≤ 2 ^ 32)
    (space : Space) : (table.leftBehind space).Nodup :=
  (nodup_occupied bounded).sublist (List.filter_sublist.map Prod.fst)

end HandleTable

end CompactingHeap
