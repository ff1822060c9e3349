import CompactingHeap.Proofs.Allocation
import CompactingHeap.Proofs.Operations
import CompactingHeap.Proofs.Solvency

/-!
# Running out of memory

An allocation runs out of memory only when nothing is left to be done about it.  Either no memory
can hold the object, or the system refuses a slab that would fit, or the slab does not fit and no
garbage can be given up for it.  The last part rests on the test before a slab is mapped: a heap
that does not collect first still has room for the slab, and for the survivors of the last
collection as well.
-/

namespace CompactingHeap

namespace Heap

/-- Does an allocation for the layout attempt a collection?  It does if the current slab has no
room and the heap should collect. -/
def attempts (heap : Heap) (layout : Layout) : Bool :=
  (heap.space.bump? layout).isNone && heap.shouldCollect layout.size

/-! ## Mapping a slab -/

/-- A new slab is refused because it exceeds what is available, or because the system refuses it.
Apart from the allocator the heap is as before, and equally much is available. -/
theorem Sound.grow_error {heap next : Heap} (sound : heap.Sound) {descriptor : Descriptor}
    {extra : Nat} {layout : Layout} (laidOut : Layout.of? descriptor extra = some layout)
    {error : HeapError} (refused : (grow layout).run heap = (.error error, next)) :
    error = .outOfMemory (next.allocator.slabSize layout.size) next.allocator.limit ∧
      next.counters = heap.counters ∧ next.allocator.Alike heap.allocator ∧
      next.allocator.available = heap.allocator.available ∧
      (next.allocator.available < next.allocator.slabSize layout.size ∨
        next.allocator.Denied (next.allocator.slabSize layout.size)) := by
  have word := (Layout.size_bounds laidOut).2
  rw [run_grow] at refused
  unfold Space.extend at refused
  rcases acquires : heap.allocator.acquire layout.size with ⟨failure | slab, allocator⟩
  · rw [acquires] at refused
    cases refused
    obtain ⟨_, lack, alike⟩ := sound.accounts.acquire_error acquires
    dsimp only
    rw [alike.slabSize, alike.limit]
    exact ⟨lack, rfl, alike, sound.accounts.available_of_error acquires,
      sound.accounts.denied_of_error acquires⟩
  · obtain ⟨tally, issued, _⟩ := sound.books.acquire_ok word acquires
    obtain ⟨_, _, installs, _⟩ :=
      sound.placed.install tally laidOut issued allocator.granularity
    rw [acquires] at refused
    dsimp only at refused
    rw [installs] at refused
    cases refused

/-- A new slab takes its size from what is available. -/
theorem Sound.grow_ok {heap roomy : Heap} (sound : heap.Sound) {descriptor : Descriptor}
    {extra : Nat} {layout : Layout} (laidOut : Layout.of? descriptor extra = some layout)
    {place : Place} (grown : (grow layout).run heap = (.ok place, roomy)) :
    roomy.counters = heap.counters ∧ roomy.allocator.Alike heap.allocator ∧
      roomy.allocator.available =
        heap.allocator.available - heap.allocator.slabSize layout.size := by
  have word := (Layout.size_bounds laidOut).2
  rw [run_grow] at grown
  unfold Space.extend at grown
  rcases acquires : heap.allocator.acquire layout.size with ⟨failure | slab, allocator⟩
  · rw [acquires] at grown
    cases grown
  · obtain ⟨_, _, alike⟩ := sound.accounts.acquire_ok word acquires
    rw [acquires] at grown
    dsimp only at grown
    split at grown
    · next same =>
      obtain ⟨_, rfl⟩ := Prod.mk.inj same
      cases grown
      exact ⟨rfl, alike, sound.accounts.available_of_ok word acquires⟩
    · cases grown

/-- A heap in use that should not collect has room for the slab, and for the survivors of the last
collection besides. -/
theorem room_of_not_shouldCollect {heap : Heap} {size : Nat} (used : heap.usedBytes ≠ 0)
    (calm : heap.shouldCollect size = false) :
    heap.allocator.slabSize size + heap.allocator.slabSize heap.counters.liveBytes ≤
      heap.allocator.available := by
  unfold shouldCollect at calm
  dsimp only at calm
  rw [if_neg used, Bool.or_eq_false_iff] at calm
  have far := calm.2
  unfold nearLimit at far
  dsimp only at far
  split at far
  · next needed sum =>
    rw [checkedAdd_eq_some_iff] at sum
    have fits := of_decide_eq_false far
    omega
  · cases far

/-! ## Reserving with and without a collection -/

/-- Without an attempt to collect, room is found in the current slab, or a slab is mapped that the
heap should not collect for. -/
theorem run_reserve_calm {heap : Heap} {layout : Layout} (calm : heap.attempts layout = false) :
    (∃ place roomy, (bump? layout).run heap = (.ok (some place), roomy) ∧
        (reserve layout).run heap = (.ok place, roomy)) ∨
      heap.shouldCollect layout.size = false ∧
        (reserve layout).run heap = (grow layout).run heap := by
  unfold attempts at calm
  unfold reserve
  rw [HeapM.run_bind, run_bump?]
  cases bumps : heap.space.bump? layout with
  | some found => exact Or.inl ⟨_, _, rfl, rfl⟩
  | none =>
      rw [bumps, Option.isNone_none, Bool.true_and] at calm
      refine Or.inr ⟨calm, ?_⟩
      dsimp only
      rw [HeapM.run_bind, HeapM.run_get]
      dsimp only
      rw [calm]
      rfl

/-- A collection for room is counted, or has failed for want of memory. -/
theorem Sound.collectForRoom_spent {heap : Heap} (sound : heap.Sound) :
    ∃ tryAgain cleared, collectForRoom.run heap = (.ok tryAgain, cleared) ∧
      (cleared.counters.collections = heap.counters.collections + 1 ∨
        ∃ size limit, (collect.run heap).1 = .error (.outOfMemory size limit)) := by
  have collects : collect.run heap = heap.collectNow := rfl
  unfold collectForRoom
  rw [HeapM.run_bind, HeapM.run_attempt, collects]
  rcases sound.collectNow with ⟨finish, live, ran, compacts⟩ | ⟨size, allocator, ran, _⟩
  · rw [ran]
    exact ⟨_, _, rfl, Or.inl compacts.collections⟩
  · rw [ran]
    exact ⟨_, _, rfl, Or.inr ⟨_, _, rfl⟩⟩

/-- An attempt to collect is followed by room in the current slab or by a slab. -/
theorem run_reserve_attempt {heap cleared : Heap} {layout : Layout} {tryAgain : Bool}
    (attempts : heap.attempts layout = true)
    (collects : collectForRoom.run heap = (.ok tryAgain, cleared)) :
    (∃ place roomy, (reserve layout).run heap = (.ok place, roomy)) ∨
      (reserve layout).run heap = (grow layout).run cleared := by
  unfold Heap.attempts at attempts
  rw [Bool.and_eq_true, Option.isNone_iff_eq_none] at attempts
  obtain ⟨full, should⟩ := attempts
  unfold reserve
  rw [HeapM.run_bind, run_bump?, full]
  dsimp only
  rw [HeapM.run_bind, HeapM.run_get]
  dsimp only
  rw [if_pos should, HeapM.run_bind, collects]
  dsimp only
  split
  · rw [HeapM.run_bind]
    rcases bump?_cases layout cleared with still | ⟨place, roomy, bumped⟩
    · rw [still]
      exact Or.inr rfl
    · rw [bumped]
      exact Or.inl ⟨_, _, rfl⟩
  · exact Or.inr rfl

/-- A heap in which room has been reserved is sound. -/
theorem Sound.reserve_ok {heap roomy : Heap} (sound : heap.Sound) {descriptor : Descriptor}
    {extra : Nat} {layout : Layout} (laidOut : Layout.of? descriptor extra = some layout)
    {place : Place} (reserved : (reserve layout).run heap = (.ok place, roomy)) : roomy.Sound := by
  obtain ⟨log, cleared, clears, reserving⟩ := run_reserve layout heap
  rw [reserved] at reserving
  cases reserving with
  | found finds =>
      have clearedSound := clears.sound sound
      exact clearedSound.roomy (clearedSound.findsRoom laidOut finds)

/-! ## Why an allocation fails -/

/-- Garbage cannot help an allocation any more: nothing was in use, the allocation has completed a
collection, or a collection would have failed itself. -/
inductive Spent (heap next : Heap) : Prop
  | unused : heap.usedBytes = 0 → Spent heap next
  | collected : next.counters.collections = heap.counters.collections + 1 → Spent heap next
  | stuck {size limit : Nat} :
      (collect.run heap).1 = .error (.outOfMemory size limit) → Spent heap next

/-- Why an allocation of an instance with `extra` tail elements fails: no memory can hold it, the
system refuses a slab that fits into what is available, or the slab does not fit and garbage cannot
help. -/
inductive Exhausts (heap : Heap) (descriptor : Descriptor) (extra : Nat) : HeapError → Heap → Prop
  | unshaped : 2 ^ 32 ≤ extra ∨ Layout.of? descriptor extra = none →
      Exhausts heap descriptor extra (.outOfMemory maxWord heap.config.maxHeapBytes) heap
  | denied {layout : Layout} {next : Heap} :
      Layout.of? descriptor extra = some layout →
        next.allocator.Denied (next.allocator.slabSize layout.size) →
        Exhausts heap descriptor extra
          (.outOfMemory (next.allocator.slabSize layout.size) next.allocator.limit) next
  | full {layout : Layout} {next : Heap} :
      Layout.of? descriptor extra = some layout →
        next.allocator.available < next.allocator.slabSize layout.size → Spent heap next →
        Exhausts heap descriptor extra
          (.outOfMemory (next.allocator.slabSize layout.size) next.allocator.limit) next

/-- Room cannot be reserved only where garbage cannot help, or where the system refuses a slab. -/
theorem Sound.exhausts {heap next : Heap} (sound : heap.Sound) {descriptor : Descriptor}
    {extra : Nat} {layout : Layout} (laidOut : Layout.of? descriptor extra = some layout)
    {error : HeapError} (failed : (reserve layout).run heap = (.error error, next)) :
    heap.Exhausts descriptor extra error next := by
  by_cases attempts : heap.attempts layout = true
  · obtain ⟨tryAgain, cleared, collects, spent⟩ := sound.collectForRoom_spent
    rcases run_reserve_attempt attempts collects with ⟨place, roomy, found⟩ | grows
    · rw [found] at failed
      cases failed
    · have clearedSound : cleared.Sound := by
        obtain ⟨log, clears⟩ := clears_collectForRoom heap
        rw [collects] at clears
        exact clears.sound sound
      rw [grows] at failed
      obtain ⟨rfl, counters, _, _, large | denied⟩ := clearedSound.grow_error laidOut failed
      · refine Exhausts.full laidOut large ?_
        rcases spent with counted | ⟨size, limit, fails⟩
        · exact Spent.collected (counters ▸ counted)
        · exact Spent.stuck fails
      · exact Exhausts.denied laidOut denied
  · rcases run_reserve_calm (Bool.not_eq_true _ ▸ attempts)
      with ⟨place, roomy, _, found⟩ | ⟨calm, grows⟩
    · rw [found] at failed
      cases failed
    · rw [grows] at failed
      obtain ⟨rfl, _, alike, same, large | denied⟩ := sound.grow_error laidOut failed
      · refine Exhausts.full laidOut large (Spent.unused ?_)
        by_contra used
        have room := room_of_not_shouldCollect used calm
        rw [alike.slabSize] at large
        omega
      · exact Exhausts.denied laidOut denied

/-- What the allocations of a heap promise about its limit.  An allocation fails only if nothing is
left to be done, and one that maps a slab without an attempt to collect leaves room for the
survivors of the last collection. -/
structure Thrifty (heap : Heap) : Prop where
  exhausts : ∀ id descriptor extra error next, heap.classes.get id = .ok descriptor →
    (Heap.allocate id extra).run heap = (.error error, next) → next.handles.slots < 2 ^ 32 →
      heap.Exhausts descriptor extra error next
  spares : ∀ id descriptor extra layout handle next, heap.classes.get id = .ok descriptor →
    Layout.of? descriptor extra = some layout → heap.usedBytes ≠ 0 →
    heap.attempts layout = false →
    (Heap.allocate id extra).run heap = (.ok handle, next) → next.handles.slots < 2 ^ 32 →
    next.allocator.acquired ≠ heap.allocator.acquired →
      next.counters.liveBytes = heap.counters.liveBytes ∧
        next.allocator.slabSize next.counters.liveBytes ≤ next.allocator.available

/-- Settling an object leaves the allocator and the survivors of the last collection. -/
theorem run_settle_ok {place : Place} {object : HeapObject} {roomy next : Heap} {handle : Handle}
    (settled : (settle place object).run roomy = (.ok handle, next)) :
    next.allocator = roomy.allocator ∧ next.counters.liveBytes = roomy.counters.liveBytes := by
  rw [run_settle] at settled
  split at settled
  · cases settled
    exact ⟨rfl, rfl⟩
  · cases settled

/-- An allocation of a registered class reserves room for its layout and settles an object there,
or no memory can hold the object. -/
theorem run_allocate {heap : Heap} {id : ClassId} {descriptor : Descriptor}
    (known : heap.classes.get id = .ok descriptor) (extra : Nat) :
    (2 ^ 32 ≤ extra ∨ Layout.of? descriptor extra = none) ∧
        (allocate id extra).run heap = (.error heap.tooLarge, heap) ∨
      ∃ (layout : Layout) (laidOut : Layout.of? descriptor extra.toUInt32.toNat = some layout),
        Layout.of? descriptor extra = some layout ∧
        (allocate id extra).run heap = (do
          let place ← reserve layout
          settle place (Object.fresh descriptor extra.toUInt32 layout laidOut) : HeapM Handle).run
            heap := by
  unfold allocate
  rw [HeapM.run_bind, HeapM.run_ask, known]
  dsimp only
  by_cases large : 2 ^ 32 ≤ extra
  · rw [if_pos large]
    exact Or.inl ⟨Or.inl large, rfl⟩
  · rw [if_neg large]
    have counted : extra.toUInt32.toNat = extra := Nat.mod_eq_of_lt (Nat.lt_of_not_le large)
    split
    · next none =>
      rw [counted] at none
      exact Or.inl ⟨Or.inr none, rfl⟩
    · next layout laidOut =>
      exact Or.inr ⟨layout, laidOut, counted ▸ laidOut, rfl⟩

/-- An allocation that fails has exhausted the heap. -/
theorem Sound.exhausts_allocate {heap next : Heap} (sound : heap.Sound) {id : ClassId}
    {descriptor : Descriptor} {extra : Nat} {error : HeapError}
    (known : heap.classes.get id = .ok descriptor)
    (failed : (Heap.allocate id extra).run heap = (.error error, next))
    (bounded : next.handles.slots < 2 ^ 32) : heap.Exhausts descriptor extra error next := by
  rcases run_allocate known extra with ⟨unshaped, ran⟩ | ⟨layout, laidOut, sized, ran⟩
  · rw [ran] at failed
    cases failed
    exact Exhausts.unshaped unshaped
  · rw [ran, HeapM.run_bind] at failed
    rcases reserves : (Heap.reserve layout).run heap with ⟨lack | place, roomy⟩
    · rw [reserves] at failed
      cases failed
      exact sound.exhausts sized reserves
    · rw [reserves] at failed
      dsimp only at failed
      have fewer : ((Heap.settle place (Object.fresh descriptor extra.toUInt32 layout laidOut)).run
          roomy).2.handles.slots < 2 ^ 32 := by
        rw [failed]
        exact bounded
      obtain ⟨handle, last, settled, _⟩ :=
        exists_settles (sound.reserve_ok sized reserves).chained place _ fewer
      rw [failed] at settled
      cases settled

/-- An allocation that maps a slab without an attempt to collect spares room for the survivors. -/
theorem Sound.spares_allocate {heap next : Heap} (sound : heap.Sound) {id : ClassId}
    {descriptor : Descriptor} {extra : Nat} {layout : Layout} {handle : Handle}
    (known : heap.classes.get id = .ok descriptor)
    (sized : Layout.of? descriptor extra = some layout) (used : heap.usedBytes ≠ 0)
    (calm : heap.attempts layout = false)
    (succeeded : (Heap.allocate id extra).run heap = (.ok handle, next))
    (mapped : next.allocator.acquired ≠ heap.allocator.acquired) :
    next.counters.liveBytes = heap.counters.liveBytes ∧
      next.allocator.slabSize next.counters.liveBytes ≤ next.allocator.available := by
  rcases run_allocate known extra with ⟨_, ran⟩ | ⟨other, laidOut, resized, ran⟩
  · rw [ran] at succeeded
    cases succeeded
  · cases resized.symm.trans sized
    rw [ran, HeapM.run_bind] at succeeded
    rcases run_reserve_calm calm with ⟨place, roomy, bumped, found⟩ | ⟨spared, grows⟩
    · rw [found] at succeeded
      have same : roomy.allocator = heap.allocator := by
        rw [run_bump?] at bumped
        split at bumped
        · cases bumped
          rfl
        · cases bumped
      obtain ⟨settled, _⟩ := run_settle_ok succeeded
      exact absurd (congrArg SlabAllocator.acquired (settled.trans same)) mapped
    · rw [grows] at succeeded
      rcases grown : (Heap.grow layout).run heap with ⟨lack | place, roomy⟩
      · rw [grown] at succeeded
        cases succeeded
      · rw [grown] at succeeded
        obtain ⟨counters, alike, taken⟩ := sound.grow_ok sized grown
        obtain ⟨settled, survivors⟩ := run_settle_ok succeeded
        have room := room_of_not_shouldCollect used spared
        rw [survivors, settled, counters, alike.slabSize, taken]
        exact ⟨rfl, by omega⟩

/-- Reachable heaps run out of memory only when nothing is left to be done. -/
theorem Reachable.thrifty {heap : Heap} (reachable : heap.Reachable) : heap.Thrifty where
  exhausts _ _ _ _ _ known failed bounded := reachable.sound.exhausts_allocate known failed bounded
  spares _ _ _ _ _ _ known sized used calm succeeded _ mapped :=
    reachable.sound.spares_allocate known sized used calm succeeded mapped

/-- A vector that does not fit beside the integer exhausts the heap of a single slab, which has no
room to collect either. -/
theorem thrifty_cramped : cramped.Reachable ∧ cramped.usedBytes ≠ 0 ∧
    ((Heap.allocate .vector 1000).run cramped).1 = .error (.outOfMemory 8192 4096) ∧
      cramped.Thrifty :=
  ⟨reachable_cramped, by decide +kernel, by decide +kernel, Reachable.thrifty reachable_cramped⟩

end Heap

end CompactingHeap
