import CompactingHeap.Proofs.Operations

/-!
# Exact reclamation

Seen from outside, a heap keeps the objects that can be reached through handles: from the registered
roots, the live handles that scanners report, the held handles and the interned strings, by reading
references.  A completed collection leaves exactly the handles of these objects live.
-/

namespace CompactingHeap

namespace Heap

/-- The handles of the objects that a heap must keep. -/
inductive Kept (heap : Heap) : Handle → Prop
  | registered {root : Root} : root ∈ heap.roots.roots → Kept heap root.handle
  | reported {scanner : Scanner} {handle : Handle} :
      scanner ∈ heap.roots.scanners → handle ∈ scanner.report → heap.isLive handle = true →
        Kept heap handle
  | held {handle : Handle} {count : UInt32} :
      heap.holds handle = .ok count → 0 < count → Kept heap handle
  | interned {bytes : Bytes} {handle : Handle} :
      heap.lookupInterned bytes = some handle → Kept heap handle
  | field {handle target : Handle} {offset : Nat} :
      Kept heap handle → heap.readRef handle offset = .ok (some target) → Kept heap target
  | element {handle target : Handle} {index : Nat} :
      Kept heap handle → heap.runGet handle index = .ok (some target) → Kept heap target

/-- What a completed collection reclaims: the live handles afterwards are those of the kept objects,
all others are stale, and the handles that have become stale are counted, each once. -/
structure Reclaims (start finish : Heap) : Prop where
  survives : ∀ handle, finish.isLive handle = true ↔ start.Kept handle
  live : ∀ handle, start.Kept handle → start.isLive handle = true
  stale : ∀ handle, ¬ start.Kept handle →
    finish.handles.find handle = .error (.staleHandle handle)
  counted : ∃ dead : List Handle, dead.Nodup ∧
    (∀ handle, handle ∈ dead ↔ start.isLive handle = true ∧ ¬ start.Kept handle) ∧
    finish.counters.objectsReclaimed = start.counters.objectsReclaimed + dead.length

/-! ## What is kept is what can be reached -/

/-- The root handles are the registered and the reported ones, the held ones, and the interned
ones. -/
theorem Sound.mem_rootHandles_iff {heap : Heap} (sound : heap.Sound) {handle : Handle} :
    handle ∈ heap.rootHandles ↔
      (∃ root ∈ heap.roots.roots, root.handle = handle) ∨
        (∃ scanner ∈ heap.roots.scanners, handle ∈ scanner.report) ∨
        (∃ count, heap.holds handle = .ok count ∧ 0 < count) ∨
        ∃ bytes, heap.lookupInterned bytes = some handle := by
  have held : handle ∈ heap.handles.held ↔
      ∃ count, heap.holds handle = .ok count ∧ 0 < count := by
    rw [HandleTable.mem_held_iff (Nat.le_of_lt sound.bounded)]
    unfold Heap.holds HandleTable.holds
    constructor
    · rintro ⟨address, count, found, positive⟩
      exact ⟨count, by rw [found]; rfl, positive⟩
    · rintro ⟨count, counted, positive⟩
      cases found : heap.handles.find handle with
      | error error =>
          rw [found] at counted
          cases counted
      | ok occupant =>
          rw [found] at counted
          cases counted
          exact ⟨occupant.1, occupant.2, rfl, positive⟩
  have interned : handle ∈ heap.interner.handles ↔
      ∃ bytes, heap.lookupInterned bytes = some handle := by
    unfold Interner.handles lookupInterned
    rw [List.mem_reverse, sound.listed]
  simp only [rootHandles, RootSet.enumerate, List.mem_append, List.mem_map, List.mem_flatMap, held,
    interned, or_assoc]

/-- A live root handle is kept. -/
theorem Sound.kept_of_root {heap : Heap} (sound : heap.Sound) {handle : Handle}
    (root : handle ∈ heap.rootHandles) (live : heap.isLive handle = true) : heap.Kept handle := by
  rcases sound.mem_rootHandles_iff.mp root with ⟨registration, member, rfl⟩ |
    ⟨scanner, member, reported⟩ | ⟨count, counted, positive⟩ | ⟨bytes, found⟩
  · exact Kept.registered member
  · exact Kept.reported member reported live
  · exact Kept.held counted positive
  · exact Kept.interned found

/-- The object of a handle can be reached from the roots. -/
def Reached (heap : Heap) (handle : Handle) : Prop :=
  ∃ address holds, heap.handles.find handle = .ok (address, holds) ∧
    heap.space.Reaches heap.rootAddresses address

/-- The object of a live root handle can be reached. -/
theorem reached_of_root {heap : Heap} {handle : Handle} (root : handle ∈ heap.rootHandles)
    (live : heap.isLive handle = true) : heap.Reached handle := by
  rcases HandleTable.isLive_iff.mp live with ⟨address, holds, found⟩
  refine ⟨address, holds, found, ?_⟩
  apply Space.Reaches.root
  apply List.mem_filterMap.mpr
  refine ⟨handle, root, ?_⟩
  rw [HandleTable.resolve_of_find found]
  rfl

/-- A reference of an object that can be reached leads to one that can be reached. -/
theorem Sound.reached_of_read {heap : Heap} (sound : heap.Sound) {handle target : Handle}
    (reached : heap.Reached handle)
    (read : (∃ offset, heap.readRef handle offset = .ok (some target)) ∨
      ∃ index, heap.runGet handle index = .ok (some target)) : heap.Reached target := by
  have named : ∃ slot : Option Address, slot.bind heap.handleOf? = some target := by
    rcases read with ⟨offset, read⟩ | ⟨index, read⟩
    · rcases readRef_eq_ok_iff.mp read with ⟨object, _, _, result⟩
      exact ⟨_, result⟩
    · rcases runGet_eq_ok_iff.mp read with ⟨object, offset, _, _, _, result⟩
      exact ⟨_, result⟩
  rcases named with ⟨slot, result⟩
  rcases Option.bind_eq_some_iff.mp result with ⟨other, _, names⟩
  rcases sound.handleOf?_eq_some_iff.mp names with ⟨count, here⟩
  rcases reached with ⟨address, holds, found, path⟩
  obtain ⟨object, known, _⟩ := sound.object_of_find found
  have object' := objectOf_eq_ok_iff.mpr ⟨address, HandleTable.resolve_of_find found, known⟩
  exact ⟨other, count, here,
    Space.Reaches.step path known ((sound.mem_targets_iff object' here).mpr read)⟩

/-- The object of a kept handle can be reached. -/
theorem Sound.reached_of_kept {heap : Heap} (sound : heap.Sound) {handle : Handle}
    (kept : heap.Kept handle) : heap.Reached handle := by
  induction kept with
  | @registered root member =>
      apply reached_of_root
      · exact sound.mem_rootHandles_iff.mpr (Or.inl ⟨root, member, rfl⟩)
      · exact sound.rooted root (List.mem_reverse.mp member)
  | reported member reported live =>
      exact reached_of_root
        (sound.mem_rootHandles_iff.mpr (Or.inr (Or.inl ⟨_, member, reported⟩))) live
  | @held handle count counted positive =>
      apply reached_of_root
      · exact sound.mem_rootHandles_iff.mpr (Or.inr (Or.inr (Or.inl ⟨_, counted, positive⟩)))
      · cases found : heap.handles.find handle with
        | error error =>
            unfold Heap.holds HandleTable.holds at counted
            rw [found] at counted
            cases counted
        | ok occupant => exact HandleTable.isLive_iff.mpr ⟨occupant.1, occupant.2, found⟩
  | @interned bytes handle found =>
      apply reached_of_root
      · exact sound.mem_rootHandles_iff.mpr (Or.inr (Or.inr (Or.inr ⟨bytes, found⟩)))
      · exact sound.interned handle ((sound.listed handle).mpr ⟨bytes, found⟩)
  | @field handle target offset _ read ih => exact sound.reached_of_read ih (Or.inl ⟨offset, read⟩)
  | @element handle target index _ read ih => exact sound.reached_of_read ih (Or.inr ⟨index, read⟩)

/-- The handle of an object that can be reached is kept. -/
theorem Sound.kept_of_reaches {heap : Heap} (sound : heap.Sound) {address : Address}
    (reached : heap.space.Reaches heap.rootAddresses address) {handle : Handle} {holds : UInt32}
    (found : heap.handles.find handle = .ok (address, holds)) : heap.Kept handle := by
  induction reached generalizing handle holds with
  | root member =>
      rcases List.mem_filterMap.mp member with ⟨other, root, resolved⟩
      cases named : heap.handles.resolve other with
      | error error =>
          rw [named] at resolved
          cases resolved
      | ok same =>
          rw [named] at resolved
          cases resolved
          obtain ⟨count, here⟩ := HandleTable.find_of_resolve named
          have equal := sound.linked.eq_of_address here found
          subst equal
          exact sound.kept_of_root root (HandleTable.isLive_iff.mpr ⟨_, _, found⟩)
  | @step source target object reached known refers ih =>
      obtain ⟨generation, count, owned⟩ := sound.linked.owned source object known
      have kept := ih owned
      have named := objectOf_eq_ok_iff.mpr ⟨source, HandleTable.resolve_of_find owned, known⟩
      rcases (sound.mem_targets_iff named found).mp refers with ⟨offset, read⟩ | ⟨index, read⟩
      · exact Kept.field kept read
      · exact Kept.element kept read

/-! ## Collections -/

section

variable {start finish : Heap} {live : List Address}

/-- The kept handles are those of the survivors. -/
theorem Compacts.kept_iff (compacts : start.Compacts finish live) (sound : start.Sound)
    {handle : Handle} :
    start.Kept handle ↔
      ∃ address holds, start.handles.find handle = .ok (address, holds) ∧ address ∈ live := by
  constructor
  · intro kept
    obtain ⟨address, holds, found, reached⟩ := sound.reached_of_kept kept
    exact ⟨address, holds, found, (compacts.reached address).mpr reached⟩
  · rintro ⟨address, holds, found, member⟩
    exact sound.kept_of_reaches ((compacts.reached address).mp member) found

/-- The handles of the objects that do not survive are counted. -/
theorem Compacts.exists_dead (compacts : start.Compacts finish live) :
    ∃ dead : List Handle, dead.Nodup ∧
      (∀ handle, handle ∈ dead ↔ ∃ address holds,
        start.handles.find handle = .ok (address, holds) ∧ address ∉ live) ∧
      finish.counters.objectsReclaimed = start.counters.objectsReclaimed + dead.length := by
  obtain ⟨slots, distinct, members, counted⟩ := compacts.reclaimed
  -- Each dead slot has one handle, the one that names it before the collection.
  let nameOf := fun index : UInt32 => (start.handles.handleAt? index).getD ⟨index, 0⟩
  have named : ∀ handle address holds, start.handles.find handle = .ok (address, holds) →
      nameOf handle.index = handle := by
    intro handle address holds found
    have here := HandleTable.handleAt?_eq_some_iff.mpr ⟨rfl, address, holds, found⟩
    simp only [nameOf, here, Option.getD_some]
  refine ⟨slots.map nameOf, ?_, ?_, ?_⟩
  · apply List.Nodup.map_on _ distinct
    intro first firstMember second secondMember same
    rcases (members first).mp firstMember with ⟨firstHandle, _, _, rfl, firstFound, _⟩
    rcases (members second).mp secondMember with ⟨secondHandle, _, _, rfl, secondFound, _⟩
    rw [named _ _ _ firstFound, named _ _ _ secondFound] at same
    rw [same]
  · intro handle
    rw [List.mem_map]
    constructor
    · rintro ⟨index, member, rfl⟩
      rcases (members index).mp member with ⟨handle, address, holds, rfl, found, lost⟩
      rw [named _ _ _ found]
      exact ⟨address, holds, found, lost⟩
    · rintro ⟨address, holds, found, lost⟩
      exact ⟨handle.index, (members _).mpr ⟨handle, address, holds, rfl, found, lost⟩,
        named _ _ _ found⟩
  · rw [counted, List.length_map]

/-- A collection that compacts a sound heap reclaims exactly what is not kept. -/
theorem Compacts.reclaims_of_sound (compacts : start.Compacts finish live) (sound : start.Sound) :
    Reclaims start finish := by
  have survives : ∀ handle, finish.isLive handle = true ↔ start.Kept handle :=
    fun handle => compacts.isLive_iff.trans (compacts.kept_iff sound).symm
  constructor
  · exact survives
  · intro handle kept
    rcases (compacts.kept_iff sound).mp kept with ⟨address, holds, found, _⟩
    exact HandleTable.isLive_iff.mpr ⟨address, holds, found⟩
  · intro handle lost
    rw [← HandleTable.isLive_eq_false_iff, ← Bool.not_eq_true]
    exact fun here => lost ((survives handle).mp here)
  · obtain ⟨dead, distinct, members, counted⟩ := compacts.exists_dead
    refine ⟨dead, distinct, ?_, counted⟩
    intro handle
    unfold Heap.isLive
    rw [members, compacts.kept_iff sound, HandleTable.isLive_iff]
    constructor
    · rintro ⟨address, holds, found, lost⟩
      refine ⟨⟨address, holds, found⟩, ?_⟩
      rintro ⟨other, count, here, member⟩
      rw [found] at here
      cases here
      exact lost member
    · rintro ⟨⟨address, holds, found⟩, lost⟩
      exact ⟨address, holds, found, fun member => lost ⟨address, holds, found, member⟩⟩

end

/-- Exact reclamation: a completed collection of a reachable heap reclaims exactly what is not
kept, and so does each collection that an operation completes.  An operation that completes none
makes no handle stale and counts no object as reclaimed. -/
theorem Reachable.reclaims {heap : Heap} (reachable : heap.Reachable) {α : Type}
    {operation : HeapM α} (offered : Operation operation)
    (bounded : (operation.run heap).2.handles.slots < 2 ^ 32) :
    (∀ finish, collect.run heap = (.ok (), finish) → Reclaims heap finish) ∧
      EachCollection heap (operation.run heap).2 Reclaims ∧
      ((operation.run heap).2.counters.collections = heap.counters.collections →
        (operation.run heap).2.counters.objectsReclaimed = heap.counters.objectsReclaimed ∧
          ∀ handle, heap.isLive handle = true → (operation.run heap).2.isLive handle = true) := by
  have sound := reachable.sound
  refine ⟨?_, ?_, ?_⟩
  · intro finish ran
    obtain ⟨live, compacts⟩ := sound.compacts ran
    exact compacts.reclaims_of_sound sound
  · apply reachable.eachCollection offered bounded
    intro start finish live startSound compacts
    exact compacts.reclaims_of_sound startSound
  · intro same
    obtain ⟨log, course⟩ := offered.tame.course heap sound bounded
    have traced := course.traced sound bounded
    have none : log = [] := by
      apply List.length_eq_zero_iff.mp
      have counted := traced.collections
      omega
    exact ⟨traced.reclaimed none, traced.keeps none⟩

/-- A collection of the sample heap keeps the pair and its integer and reclaims the other one. -/
theorem reclaims_sample :
    sample.Reachable ∧ (collect.run sample).2.handles.slots < 2 ^ 32 ∧
      (collect.run sample).1 = .ok () ∧
      (collect.run sample).2.isLive ⟨0, 0⟩ = true ∧ (collect.run sample).2.isLive ⟨1, 0⟩ = true ∧
      (collect.run sample).2.isLive ⟨2, 0⟩ = false ∧
      (∀ finish, collect.run sample = (.ok (), finish) → Reclaims sample finish) ∧
      EachCollection sample (collect.run sample).2 Reclaims ∧
      ((collect.run sample).2.counters.collections = sample.counters.collections →
        (collect.run sample).2.counters.objectsReclaimed = sample.counters.objectsReclaimed ∧
          ∀ handle, sample.isLive handle = true →
            (collect.run sample).2.isLive handle = true) :=
  ⟨reachable_sample, by decide +kernel, by decide +kernel, by decide +kernel, by decide +kernel,
    by decide +kernel, Reachable.reclaims reachable_sample Operation.collect (by decide +kernel)⟩

end Heap

end CompactingHeap
