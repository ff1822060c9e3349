import CompactingHeap.Proofs.Completion
import CompactingHeap.Proofs.Preservation

/-!
# The ledger of objects

A heap keeps a ledger of its objects: the live slots are counted, every object was allocated once,
and it is either live or was reclaimed once.  The ledger also says that every object is an instance
of a registered class.  A collection takes the slots that it vacates off the count and adds them to
the reclaimed objects, and an allocation adds to both sides.
-/

namespace CompactingHeap

/-- Does the slot name an object? -/
def Entry.isOccupied {α : Type} : Entry α → Bool
  | ⟨_, .live ..⟩ => true
  | ⟨_, .vacant _⟩ => false

namespace HandleTable

variable {α : Type}

/-- The table counts its live slots. -/
def Counted (table : HandleTable α) : Prop :=
  table.live = table.entries.toList.countP Entry.isOccupied

/-- The live slots are as many as the table lists. -/
theorem length_occupied (table : HandleTable α) :
    table.occupied.length = table.entries.toList.countP Entry.isOccupied := by
  have listed : ∀ entries : List (Entry α),
      entries.countP Entry.isOccupied =
        entries.zipIdx.countP fun numbered => numbered.1.isOccupied := by
    intro entries
    conv_lhs => rw [← List.zipIdx_map_fst 0 entries]
    rw [List.countP_map]
    rfl
  unfold occupied
  rw [listed, List.length_filterMap_eq_countP]
  congr 1
  funext ⟨⟨generation, slot⟩, index⟩
  cases slot <;> rfl

/-- There are as many live handles as live slots. -/
theorem length_liveHandles (table : HandleTable α) :
    table.liveHandles.length = table.entries.toList.countP Entry.isOccupied := by
  have lengths := congrArg List.length table.map_liveHandles
  rw [List.length_map, List.length_map] at lengths
  rw [lengths, length_occupied]

theorem counted_empty : (empty : HandleTable α).Counted :=
  rfl

/-- Replacing an entry changes the number of live slots by the old and the new entry alone. -/
theorem countP_replace {entries : Array (Entry α)} {index : Nat} {old : Entry α}
    (found : entries[index]? = some old) (new : Entry α) :
    (entries.setIfInBounds index new).toList.countP Entry.isOccupied +
        (if old.isOccupied then 1 else 0) =
      entries.toList.countP Entry.isOccupied + (if new.isOccupied then 1 else 0) := by
  obtain ⟨inside, here⟩ := Array.getElem?_eq_some_iff.mp found
  have counted : old.isOccupied = true → 0 < entries.toList.countP Entry.isOccupied := by
    intro occupied
    apply List.countP_pos_iff.mpr
    exact ⟨old, by rw [← here]; simp, occupied⟩
  rw [Array.toList_setIfInBounds, List.countP_set (by simpa using inside)]
  simp only [Array.getElem_toList, here]
  by_cases occupied : old.isOccupied = true
  · have positive := counted occupied
    simp only [occupied, if_true]
    omega
  · simp only [occupied, Bool.false_eq_true, if_false]
    omega

/-- A slot that stays live leaves the count alone. -/
theorem Counted.setSlot {table : HandleTable α} (counted : table.Counted) {handle : Handle}
    {occupant : α × UInt32} (live : table.find handle = .ok occupant) (address : α)
    (holds : UInt32) : (table.setSlot handle address holds).Counted := by
  have replaced := countP_replace (find_eq_ok_iff.mp live) ⟨handle.generation, .live address holds⟩
  unfold Counted HandleTable.setSlot
  unfold Counted at counted
  simp only [Entry.isOccupied, if_true] at replaced
  dsimp only
  omega

/-- Moving the object of a slot leaves the count alone. -/
theorem Counted.update {table next : HandleTable α} (counted : table.Counted) {index : UInt32}
    {address : α} (updates : table.update index address = (.ok (), next)) :
    next.Counted ∧ next.live = table.live := by
  unfold HandleTable.update at updates
  split at updates
  · next generation old holds found =>
    cases updates
    have replaced := countP_replace found ⟨generation, .live address holds⟩
    unfold Counted at counted ⊢
    simp only [Entry.isOccupied, if_true] at replaced
    dsimp only
    omega
  · cases updates

/-- A minted handle is counted. -/
theorem Counted.mint {table next : HandleTable α} (counted : table.Counted) {address : α}
    {handle : Handle} (mints : table.mint address = (.ok handle, next)) :
    next.Counted ∧ next.live = table.live + 1 := by
  unfold Counted at counted
  unfold HandleTable.mint at mints
  split at mints
  · cases mints
    refine ⟨?_, rfl⟩
    unfold Counted
    simp [Entry.isOccupied, counted]
  · split at mints
    · next index _ generation rest found =>
      cases mints
      have replaced := countP_replace found ⟨generation, .live address 1⟩
      unfold Counted
      simp only [Entry.isOccupied, if_true] at replaced
      dsimp only
      refine ⟨?_, rfl⟩
      simp only [Bool.false_eq_true, if_false] at replaced
      omega
    · cases mints

/-- A slot that is vacated is taken off the count. -/
theorem Counted.recycle {table next : HandleTable α} (counted : table.Counted) {index : UInt32}
    (recycles : table.recycle index = (.ok (), next)) :
    next.Counted ∧ next.live + 1 = table.live := by
  unfold Counted at counted
  unfold HandleTable.recycle at recycles
  split at recycles
  · next generation address holds found =>
    cases recycles
    have replaced := countP_replace found ⟨generation + 1, .vacant table.free⟩
    unfold Counted
    simp only [Entry.isOccupied, if_true, Bool.false_eq_true, if_false] at replaced
    dsimp only
    omega
  · cases recycles

/-- Slots that are vacated are taken off the count. -/
theorem Counted.recycleAll {table next : HandleTable Address} (counted : table.Counted)
    {dead : List UInt32} (recycles : table.recycleAll dead = .ok next) :
    next.Counted ∧ next.live + dead.length = table.live := by
  induction dead generalizing table with
  | nil =>
      cases recycles
      exact ⟨counted, rfl⟩
  | cons index rest ih =>
      unfold HandleTable.recycleAll at recycles
      split at recycles
      · next first ran =>
        obtain ⟨firstCounted, less⟩ := counted.recycle ran
        obtain ⟨nextCounted, fewer⟩ := ih firstCounted recycles
        refine ⟨nextCounted, ?_⟩
        rw [List.length_cons]
        omega
      · cases recycles

end HandleTable

/-- Fixing up leaves the count of live slots alone. -/
theorem Space.counted_fixUp {source target fixed : Space} {handles updated : HandleTable Address}
    (counted : handles.Counted) {live : List Address}
    (fixes : source.fixUp target handles live = .ok (fixed, updated)) :
    updated.Counted ∧ updated.live = handles.live := by
  induction live generalizing target handles with
  | nil =>
      cases fixes
      exact ⟨counted, rfl⟩
  | cons address rest ih =>
      obtain ⟨_, _, first, _, _, ran, fixes⟩ := Space.fixUp_cons_eq_ok fixes
      obtain ⟨firstCounted, same⟩ := counted.update ran
      obtain ⟨nextCounted, still⟩ := ih firstCounted fixes
      exact ⟨nextCounted, still.trans same⟩

namespace Heap

/-- The live slots are counted, every object was allocated and is live or was reclaimed, and its
class is registered. -/
structure Balanced (heap : Heap) : Prop where
  counted : heap.handles.Counted
  objects : heap.counters.objectsAllocated =
    heap.counters.objectsReclaimed + heap.handles.live
  described : ∀ address object, heap.space.object? address = some object →
    ∃ id, heap.classes.get id = .ok object.descriptor

theorem balanced_new {system : MemorySystem} {config : Config} {heap : Heap}
    (created : Heap.new system config = .ok heap) : heap.Balanced := by
  obtain ⟨_, rfl⟩ := new_eq_ok_iff.mp created
  refine ⟨HandleTable.counted_empty, rfl, ?_⟩
  intro address object found
  obtain ⟨_, inside⟩ := Space.position_lt found
  exact absurd inside (Nat.not_lt_zero _)

/-- A table that differs in what one live handle names may replace the one of a balanced heap. -/
theorem Balanced.setSlot {heap : Heap} (balanced : heap.Balanced) {handle : Handle}
    {occupant : Address × UInt32} (found : heap.handles.find handle = .ok occupant)
    (address : Address) (count : UInt32) :
    Balanced { heap with handles := heap.handles.setSlot handle address count } :=
  ⟨balanced.counted.setSlot found address count, balanced.objects, balanced.described⟩

/-- An object may change as long as it stays an instance of its class. -/
theorem Balanced.modify {heap : Heap} (balanced : heap.Balanced) (address : Address)
    {f : HeapObject → HeapObject} (keeps : ∀ object, (f object).descriptor = object.descriptor) :
    Balanced { heap with space := heap.space.modify address f } where
  counted := balanced.counted
  objects := balanced.objects
  described other object found := by
    rcases Space.object?_modify_cases found with ⟨old, before, rfl, rfl⟩ | before
    · rw [keeps]
      exact balanced.described _ old before
    · exact balanced.described other object before

/-- A quiet step that allocates no object keeps the ledger balanced. -/
theorem Quiet.balanced {heap next : Heap} (quiet : Quiet heap next) (sound : heap.Sound)
    (bounded : next.handles.slots < 2 ^ 32)
    (none : next.counters.objectsAllocated = heap.counters.objectsAllocated)
    (balanced : heap.Balanced) : next.Balanced := by
  cases quiet with
  | registered registers =>
      refine ⟨balanced.counted, balanced.objects, ?_⟩
      intro address object found
      obtain ⟨id, known⟩ := balanced.described address object found
      exact ⟨id, Registry.get_register registers known⟩
  | @allocated descriptor extra layout laidOut place roomy _ handle finds ran =>
      obtain ⟨_, settles⟩ := sound.allocated finds ran bounded
      rw [settles.rest, (sound.findsRoom laidOut finds).rest] at none
      exact absurd none (Nat.succ_ne_self _)
  | refused laidOut ran =>
      obtain ⟨_, _, rfl⟩ := run_grow_eq_error ran
      exact ⟨balanced.counted, balanced.objects, balanced.described⟩
  | abandoned ran =>
      obtain ⟨relocation, _, same⟩ := sound.fails_of_error ran
      rw [same]
      exact ⟨balanced.counted, balanced.objects, balanced.described⟩
  | retained retains =>
      obtain ⟨address, holds, found, rfl⟩ := HandleTable.retain_eq_ok retains
      exact balanced.setSlot found address (holds + 1)
  | released releases =>
      obtain ⟨address, holds, found, _, rfl⟩ := HandleTable.release_eq_ok releases
      exact balanced.setSlot found address (holds - 1)
  | rooted _ => exact ⟨balanced.counted, balanced.objects, balanced.described⟩
  | interned _ _ => exact ⟨balanced.counted, balanced.objects, balanced.described⟩
  | composed _ _ _ => exact ⟨balanced.counted, balanced.objects, balanced.described⟩
  | @slotsWritten address writes _ =>
      apply balanced.modify
      intro object
      obtain ⟨_, _, same⟩ := foldl_setSlot_eq object writes
      rw [same]
  | wordWritten _ _ => exact balanced.modify _ fun _ => rfl
  | tailWritten address bytes =>
      apply balanced.modify
      intro object
      unfold Object.setTail
      split <;> rfl
  | counted _ reclaimed =>
      exact ⟨balanced.counted, none.trans (balanced.objects.trans (by rw [reclaimed])),
        balanced.described⟩

/-- A fresh instance of a registered class keeps the ledger balanced. -/
theorem Balanced.settles {heap roomy next : Heap} (balanced : heap.Balanced) {layout : Layout}
    {place : Place} (found : heap.Roomy layout place roomy) {object : HeapObject} {handle : Handle}
    (settles : roomy.Settles next place object handle) {id : ClassId}
    (known : heap.classes.get id = .ok object.descriptor) : next.Balanced := by
  have counted : roomy.handles.Counted := by
    rw [found.rest]
    exact balanced.counted
  have objects := balanced.objects
  obtain ⟨nextCounted, more⟩ := counted.mint settles.mints.eq
  have live : roomy.handles.live = heap.handles.live := by
    rw [found.rest]
  refine ⟨nextCounted, ?_, ?_⟩
  · rw [more, live, settles.rest, found.rest]
    dsimp only
    omega
  · rw [settles.rest, found.rest]
    intro address other here
    rcases Space.object?_add_cases here with ⟨_, rfl⟩ | here
    · exact ⟨id, known⟩
    · rw [found.room.object?] at here
      exact balanced.described address other here

/-- A completed collection keeps the ledger balanced: what is taken off the live slots is counted as
reclaimed. -/
theorem Balanced.collected {start finish : Heap} (balanced : start.Balanced) (sound : start.Sound)
    (ran : start.collectNow = (.ok (), finish)) : finish.Balanced := by
  have objects := balanced.objects
  obtain ⟨relocation, fixed, updated, completes⟩ := completes_of_ok ran
  obtain ⟨live, compacts⟩ := sound.compacts ran
  obtain ⟨updatedCounted, same⟩ := Space.counted_fixUp balanced.counted completes.fixedUp
  obtain ⟨counted, fewer⟩ := updatedCounted.recycleAll completes.swept
  refine ⟨counted, ?_, ?_⟩
  · rw [completes.counters]
    dsimp only
    omega
  · rw [compacts.classes]
    intro copy object found
    obtain ⟨address, original, _, here, rfl⟩ := compacts.object?_eq_some_iff.mp found
    rw [Object.descriptor_redirect]
    exact balanced.described address original here

end Heap

end CompactingHeap
