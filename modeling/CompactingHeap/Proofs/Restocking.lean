import CompactingHeap.Proofs.Gentleness
import CompactingHeap.Proofs.Headroom
import CompactingHeap.Proofs.HighWater

/-!
# Restocking

What becomes of the slabs when an object is allocated while nothing is kept.  If the current slab
has no room, the heap either collects, which gives back every slab, and goes on with a single one,
or it adds a slab.  It adds one only where less than 0.7 of the slab bytes are in use and two more
slabs fit under the limit.
-/

namespace CompactingHeap

/-! ## Collections that nothing survives -/

/-- After a collection that nothing survives the threshold is the least one. -/
theorem Config.thresholdAfter_zero (config : Config) :
    config.thresholdAfter 0 = config.minCollectBytes := by
  have none : (Binary.Format.single.mul (Binary.Format.single.ofNat 0)
      config.growthFactor).clampedFloor maxWord = 0 := by
    cases config.growthFactor with
    | nan => rfl
    | infinite negative => rfl
    | finite negative significand exponent =>
        unfold Binary.Format.mul
        simp only [Binary.Format.ofNat, Binary.Format.round, Binary.Format.roundScaled, ↓reduceIte,
          Nat.zero_mul, ite_self, Binary.clampedFloor, Nat.zero_div, Nat.min_zero]
  unfold thresholdAfter
  dsimp only
  rw [none, Nat.zero_max]

namespace Heap

/-- A completed collection sets the threshold by the bytes that the marking counts. -/
theorem threshold_of_collectNow {start finish : Heap} (ran : start.collectNow = (.ok (), finish)) :
    finish.threshold = start.config.thresholdAfter start.mark.liveBytes := by
  have sameMark : ({ start with phase := .marking } : Heap).mark = start.mark := rfl
  unfold collectNow at ran
  dsimp only at ran
  rw [sameMark] at ran
  split at ran
  · cases ran
  · split at ran
    · next finishes =>
      cases ran
      obtain ⟨_, _, _, _, _, rfl⟩ := finishCollection_eq_ok_iff.mp finishes
      rfl
    · cases ran

/-- What a collection leaves of a heap in which nothing is kept: no slabs, and the least
threshold. -/
structure Emptied (heap finish : Heap) : Prop where
  ran : heap.collectNow = (.ok (), finish)
  slabs : finish.space.slabs = []
  threshold : finish.threshold = heap.config.minCollectBytes
  liveBytes : finish.counters.liveBytes = 0

section
variable {heap : Heap} (sound : heap.Sound) (unkept : ∀ handle, ¬ heap.Kept handle)
include sound unkept

/-- Where nothing is kept, nothing is marked. -/
theorem Sound.mark_eq_nil : heap.mark.live.toList = [] := by
  apply List.eq_nil_iff_forall_not_mem.mpr
  intro address member
  obtain ⟨_, handle, _, _, _, named⟩ := sound.exists_handleOf? member
  apply unkept handle
  rw [← sound.mem_survivors_iff]
  exact List.mem_filterMap.mpr ⟨address, member, named⟩

/-- Where nothing is kept, a collection succeeds and gives back every slab. -/
theorem Sound.empties : ∃ finish, heap.Emptied finish := by
  have none := sound.mark_eq_nil unkept
  have bytes : heap.mark.liveBytes = 0 := by
    rw [Marking.liveBytes_eq, none]
    rfl
  rcases ran : heap.collectNow with ⟨error | _, finish⟩
  · obtain ⟨relocation, moves, _⟩ := sound.fails_of_error ran
    rw [none] at moves
    cases moves
  · obtain ⟨relocation, fixed, updated, completes⟩ := completes_of_ok ran
    have moved := completes.moved
    rw [none] at moved
    refine ⟨finish, ran, ?_, ?_, ?_⟩
    · rw [completes.slabs]
      cases moved
      rfl
    · rw [threshold_of_collectNow ran, bytes, Config.thresholdAfter_zero]
    · rw [completes.counters]
      exact bytes

end

theorem Emptied.collectForRoom {heap finish : Heap} (emptied : heap.Emptied finish) :
    collectForRoom.run heap = (.ok true, finish) := by
  have collects : collect.run heap = (.ok (), finish) := emptied.ran
  unfold Heap.collectForRoom
  rw [HeapM.run_bind, HeapM.run_attempt, collects]
  rfl

end Heap

/-! ## Slabs of one size -/

/-- An allocation for the layout may add a slab: it does not fit into the current one, less than
0.7 of the slab bytes are in use, and two more slabs fit under the limit. -/
structure Sparse (config : Config) (layout : Layout) (slabs : List Slab) : Prop where
  full : ∀ current ∈ slabs.head?, ∀ found, current.bump layout.size layout.align ≠ .ok found
  unused : 10 * (slabs.map Slab.used).sum < 7 * Slab.capacities slabs
  room : Slab.capacities slabs + 2 * config.slabBytes ≤ config.maxHeapBytes

/-- What an allocation for the layout may do to the slabs of a heap in which nothing is kept.
Where it fails, the slabs may have been given back. -/
inductive Restocks (config : Config) (layout : Layout) (slabs : List Slab) : List Slab → Prop
  | untouched : Restocks config layout slabs slabs
  | filled {current bumped : Slab} {earlier : List Slab} {offset : Nat} :
      slabs = current :: earlier →
        current.bump layout.size layout.align = .ok (offset, bumped) →
        Restocks config layout slabs (bumped :: earlier)
  | emptied : Restocks config layout slabs []
  | renewed {slab : Slab} : slab.capacity = config.slabBytes → slab.top = layout.size →
      Restocks config layout slabs [slab]
  | added {slab : Slab} : Sparse config layout slabs →
      slab.capacity = config.slabBytes → slab.top = layout.size →
      Restocks config layout slabs (slab :: slabs)

/-- Slabs of one size, each in use, that leave room for one more under the limit unless there is
only one of them. -/
structure Regular (config : Config) (slabs : List Slab) : Prop where
  uniform : ∀ slab ∈ slabs, slab.capacity = config.slabBytes
  started : ∀ slab ∈ slabs, 0 < slab.top
  words : ∀ slab ∈ slabs, wordBytes ∣ slab.top
  bounded : Slab.capacities slabs ≤ max config.slabBytes (config.maxHeapBytes - config.slabBytes)

theorem regular_nil (config : Config) : Regular config [] where
  uniform := by simp
  started := by simp
  words := by simp
  bounded := Nat.zero_le _

section
variable {config : Config} {descriptor : Descriptor} {extra : Nat} {layout : Layout}
  (laidOut : Layout.of? descriptor extra = some layout) {slabs next : List Slab}
  (shaped : ∀ slab ∈ slabs, slab.Shaped)
include laidOut

/-- A slab with an object at its front joins regular slabs. -/
theorem Regular.cons (regular : Regular config slabs) {slab : Slab}
    (capacity : slab.capacity = config.slabBytes) (top : slab.top = layout.size)
    (bounded : Slab.capacities (slab :: slabs) ≤
      max config.slabBytes (config.maxHeapBytes - config.slabBytes)) :
    Regular config (slab :: slabs) where
  uniform := List.forall_mem_cons.mpr ⟨capacity, regular.uniform⟩
  started := List.forall_mem_cons.mpr ⟨top ▸ (Layout.size_bounds laidOut).1, regular.started⟩
  words := List.forall_mem_cons.mpr ⟨top ▸ Layout.word_dvd_size laidOut, regular.words⟩
  bounded := bounded

include shaped

/-- Restocking keeps slabs regular. -/
theorem Restocks.regular (restocks : Restocks config layout slabs next)
    (regular : Regular config slabs) : Regular config next := by
  cases restocks with
  | untouched => exact regular
  | @filled current bumped earlier offset same bumps =>
      subst same
      obtain ⟨uniform, started, words, bounded⟩ := regular
      rw [List.forall_mem_cons] at uniform started words
      have shape := shaped current List.mem_cons_self
      obtain ⟨rounded, _, _, rfl⟩ := Slab.bump_eq_ok_iff.mp bumps
      obtain ⟨_, aligned⟩ := Layout.alignUp_spec laidOut shape.top_le shape.pages shape.word
      have positive := (Layout.size_bounds laidOut).1
      constructor
      · exact List.forall_mem_cons.mpr uniform
      · exact List.forall_mem_cons.mpr ⟨Nat.add_pos_right offset positive, started.2⟩
      · refine List.forall_mem_cons.mpr ⟨Nat.dvd_add ?_ (Layout.word_dvd_size laidOut), words.2⟩
        rw [rounded]
        exact Nat.dvd_trans (Layout.word_dvd_align laidOut) aligned
      · exact bounded
  | emptied => exact regular_nil config
  | renewed capacity top =>
      apply (regular_nil config).cons laidOut capacity top
      rw [Slab.capacities, Slab.capacities, capacity]
      exact Nat.le_max_left _ _
  | added sparse capacity top =>
      apply regular.cons laidOut capacity top
      have room := sparse.room
      rw [Slab.capacities, capacity]
      omega

end

/-- Restocking leaves at most one slab, or as many as before, or one more if they were sparse. -/
theorem Restocks.capacities_cases {config : Config} {layout : Layout} {slabs next : List Slab}
    (restocks : Restocks config layout slabs next) :
    Slab.capacities next ≤ config.slabBytes ∨ Slab.capacities next = Slab.capacities slabs ∨
      Sparse config layout slabs ∧
        Slab.capacities next = Slab.capacities slabs + config.slabBytes := by
  cases restocks with
  | untouched => exact Or.inr (Or.inl rfl)
  | filled same bumps =>
      obtain ⟨_, _, _, rfl⟩ := Slab.bump_eq_ok_iff.mp bumps
      rw [same]
      exact Or.inr (Or.inl rfl)
  | emptied => exact Or.inl (Nat.zero_le _)
  | renewed capacity _ => exact Or.inl (Nat.le_of_eq capacity)
  | added sparse capacity _ =>
      refine Or.inr (Or.inr ⟨sparse, ?_⟩)
      rw [Slab.capacities, capacity, Nat.add_comm]

/-! ## Reserving room while nothing is kept -/

/-- The settings under which a heap collects as soon as 0.7 of the slab bytes are in use. -/
structure Config.Eager (config : Config) : Prop where
  least : config.minCollectBytes = 0
  standard : config.highWater = ({} : Config).highWater
  word : config.maxHeapBytes < wordLimit

namespace Heap

/-- A heap whose last collection had no survivors, with regular slabs. -/
structure Unburdened (heap : Heap) : Prop where
  threshold : heap.threshold = 0
  liveBytes : heap.counters.liveBytes = 0
  regular : Regular heap.config heap.space.slabs

/-- What reserving room for the layout leaves of the slabs. -/
structure Restocked (heap : Heap) (layout : Layout) (next : Heap) : Prop where
  threshold : next.threshold = 0
  liveBytes : next.counters.liveBytes = 0
  slabs : Restocks heap.config layout heap.space.slabs next.space.slabs

theorem usedBytes_eq (heap : Heap) : heap.usedBytes = (heap.space.slabs.map Slab.used).sum :=
  heap.space.usedBytes_eq_sum

theorem slabBytes_eq (heap : Heap) : heap.slabBytes = Slab.capacities heap.space.slabs :=
  heap.space.slabBytes_eq

/-- A new slab becomes the current one, or the slabs are as before. -/
theorem Sound.grow_slabs {heap : Heap} (sound : heap.Sound) (fitted : heap.Fitted)
    (word : heap.config.slabBytes < wordLimit) {descriptor : Descriptor} {extra : Nat}
    {layout : Layout} (laidOut : Layout.of? descriptor extra = some layout)
    (fits : layout.size ≤ heap.config.slabBytes) :
    heap.Undisturbed ((grow layout).run heap).2 ∨
      ∃ slab, slab.capacity = heap.config.slabBytes ∧ slab.top = layout.size ∧
        ((grow layout).run heap).2.space.slabs = slab :: heap.space.slabs ∧
        ((grow layout).run heap).2.threshold = heap.threshold ∧
        ((grow layout).run heap).2.counters = heap.counters := by
  have granular := sound.accounts.granular
  rw [← fitted.granularity] at word fits
  rw [run_grow]
  rcases extending : heap.space.extend heap.allocator layout with
    ⟨error | ⟨place, space⟩, allocator⟩
  · exact Or.inl ⟨rfl, rfl, rfl⟩
  · obtain ⟨slab, acquires, _, _, rfl⟩ := Space.extend_eq_ok sound.accounts laidOut extending
    obtain ⟨_, _, alike⟩ := sound.accounts.acquire_ok (Layout.size_bounds laidOut).2 acquires
    have capacity : slab.capacity = heap.allocator.granularity := by
      rw [sound.accounts.capacity_of_ok acquires,
        SlabAllocator.slabSize_of_le granular word fits]
    refine Or.inr ⟨{ slab with top := layout.size }, capacity.trans fitted.granularity, rfl, ?_,
      rfl, rfl⟩
    dsimp only
    unfold Space.join
    cases heap.space.slabs with
    | nil => rfl
    | cons current earlier =>
        have usual : ¬ allocator.granularity <
            ({ slab with top := layout.size } : Slab).capacity := by
          rw [alike.granularity, ← capacity]
          exact Nat.lt_irrefl _
        dsimp only
        rw [if_neg usual]

section
variable {heap : Heap} (reachable : heap.Reachable) (eager : heap.config.Eager)
  (unburdened : heap.Unburdened) {layout : Layout} (fits : layout.size ≤ heap.config.slabBytes)
include reachable eager unburdened fits

/-- A heap in use that should not collect has slabs that are sparse. -/
theorem Unburdened.sparse (full : heap.space.bump? layout = none) (some : heap.space.slabs ≠ [])
    (calm : heap.shouldCollect layout.size = false) :
    Sparse heap.config layout heap.space.slabs := by
  have sound := reachable.sound
  have fitted := reachable.fitted
  have granular := sound.accounts.granular
  have total := eager.word
  have word := Nat.lt_of_le_of_lt (Config.slabBytes_le_of_validate reachable.settings.1) total
  have bounded := unburdened.regular.bounded
  have inside : heap.usedBytes ≤ heap.slabBytes := Space.usedBytes_le sound.placed
  have used : heap.usedBytes ≠ 0 := by
    obtain ⟨current, earlier, slabs⟩ := List.exists_cons_of_ne_nil some
    have started := unburdened.regular.started current (by simp [slabs])
    rw [usedBytes_eq, slabs, List.map_cons, List.sum_cons]
    exact (Nat.add_pos_left started _).ne'
  rw [← slabBytes_eq] at bounded
  constructor
  · intro current member found bumps
    obtain ⟨earlier, slabs⟩ := List.head?_eq_some_iff.mp member
    have succeeds := Space.bump?_eq_some_iff.mpr ⟨current, earlier, found.1, found.2, slabs, bumps,
      rfl, rfl⟩
    rw [full] at succeeds
    cases succeeds
  · rw [← usedBytes_eq, ← slabBytes_eq]
    by_contra much
    have above : heap.config.aboveHighWater heap.usedBytes heap.slabBytes = true :=
      Config.aboveHighWater_of_le eager.standard (by omega) (by omega) (by omega) (by omega)
    unfold shouldCollect at calm
    dsimp only at calm
    rw [if_neg used, above, unburdened.threshold] at calm
    simp at calm
  · have room := room_of_not_shouldCollect used calm
    rw [← fitted.granularity] at word fits
    rw [sound.accounts.available_eq, unburdened.liveBytes,
      SlabAllocator.slabSize_of_le granular word fits,
      SlabAllocator.slabSize_of_le granular word (Nat.zero_le _), fitted.limit,
      fitted.granularity] at room
    rw [fitted.granularity] at granular
    omega

/-- Where the current slab is full and the heap should not collect, growing restocks the slabs. -/
theorem Unburdened.grow_calm {descriptor : Descriptor} {extra : Nat}
    (laidOut : Layout.of? descriptor extra = some layout) (full : heap.space.bump? layout = none)
    (calm : heap.shouldCollect layout.size = false) :
    heap.Restocked layout ((grow layout).run heap).2 := by
  have word := Nat.lt_of_le_of_lt (Config.slabBytes_le_of_validate reachable.settings.1) eager.word
  rcases reachable.sound.grow_slabs reachable.fitted word laidOut fits with
    untouched | ⟨slab, capacity, top, slabs, threshold, counters⟩
  · refine ⟨untouched.threshold.trans unburdened.threshold,
      untouched.liveBytes.trans unburdened.liveBytes, ?_⟩
    rw [untouched.slabs]
    exact Restocks.untouched
  · refine ⟨threshold.trans unburdened.threshold, ?_, ?_⟩
    · rw [counters]
      exact unburdened.liveBytes
    · rw [slabs]
      by_cases some : heap.space.slabs = []
      · rw [some]
        exact Restocks.renewed capacity top
      · exact Restocks.added (unburdened.sparse reachable eager fits full some calm) capacity top

omit unburdened in
/-- Growing after a collection that nothing survived leaves a single slab. -/
theorem Emptied.grow {cleared : Heap} (emptied : heap.Emptied cleared) {descriptor : Descriptor}
    {extra : Nat} (laidOut : Layout.of? descriptor extra = some layout) :
    heap.Restocked layout ((grow layout).run cleared).2 := by
  have sound := reachable.sound
  have course := Course.collected emptied.ran (Course.done cleared)
  have small : cleared.handles.slots < 2 ^ 32 := by
    have slots := heap.slots_collectNow
    rw [emptied.ran] at slots
    exact slots.trans_lt sound.bounded
  have config := (course.settings sound small).1
  have word := Nat.lt_of_le_of_lt (Config.slabBytes_le_of_validate reachable.settings.1) eager.word
  rw [← config] at word fits
  have least : cleared.threshold = 0 := emptied.threshold.trans eager.least
  rcases (course.traced sound small).sound.grow_slabs
      (reachable.fitted.of_course course sound small) word laidOut fits with
    untouched | ⟨slab, capacity, top, slabs, threshold, counters⟩
  · refine ⟨untouched.threshold.trans least, untouched.liveBytes.trans emptied.liveBytes, ?_⟩
    rw [untouched.slabs, emptied.slabs]
    exact Restocks.emptied
  · refine ⟨threshold.trans least, ?_, ?_⟩
    · rw [counters]
      exact emptied.liveBytes
    · rw [slabs, emptied.slabs]
      exact Restocks.renewed (capacity.trans (congrArg Config.slabBytes config)) top

/-- Reserving room in a heap in which nothing is kept restocks its slabs. -/
theorem Unburdened.reserve (unkept : ∀ handle, ¬ heap.Kept handle) {descriptor : Descriptor}
    {extra : Nat} (laidOut : Layout.of? descriptor extra = some layout) :
    heap.Restocked layout ((reserve layout).run heap).2 := by
  unfold Heap.reserve
  rw [HeapM.run_bind, run_bump?]
  cases bumps : heap.space.bump? layout with
  | some found =>
      obtain ⟨current, earlier, offset, bumped, slabs, bumps, _, same⟩ :=
        Space.bump?_eq_some_iff.mp bumps
      refine ⟨unburdened.threshold, unburdened.liveBytes, ?_⟩
      dsimp only
      rw [HeapM.run_pure, same]
      exact Restocks.filled slabs bumps
  | none =>
      dsimp only
      rw [HeapM.run_bind, HeapM.run_get]
      dsimp only
      cases should : heap.shouldCollect layout.size with
      | false => exact unburdened.grow_calm reachable eager fits laidOut bumps should
      | true =>
          obtain ⟨cleared, emptied⟩ := reachable.sound.empties unkept
          have still : (bump? layout).run cleared = (.ok none, cleared) := by
            rw [run_bump?, Space.bump?, emptied.slabs]
          rw [if_pos rfl, HeapM.run_bind, emptied.collectForRoom]
          dsimp only
          rw [if_pos rfl, HeapM.run_bind, still]
          exact emptied.grow reachable eager fits laidOut

end

end Heap

end CompactingHeap
