import CompactingHeap.Proofs.Restocking

/-!
# Garbage

A heap whose objects are all given up before the next one is allocated.  How far its slabs grow is
decided by the high-water mark.  Where the sizes of the objects are such that every slab is well
filled when the next object does not fit, a single slab is enough.  Where they are not, the mark
may never be reached, and then the heap grows until a further slab would leave no room under the
limit to relocate survivors.
-/

namespace CompactingHeap

/-! ## Slabs that are well filled -/

section
variable {config : Config} {slabs next : List Slab} {layout : Layout}

/-- Slabs that are each filled to 0.7 are so together. -/
theorem capacities_le_of_filled (filled : ∀ slab ∈ slabs, 7 * slab.capacity ≤ 10 * slab.used) :
    7 * Slab.capacities slabs ≤ 10 * (slabs.map Slab.used).sum := by
  induction slabs with
  | nil => exact Nat.le_refl 0
  | cons slab rest ih =>
      rw [List.forall_mem_cons] at filled
      have others := ih filled.2
      rw [Slab.capacities, List.map_cons, List.sum_cons]
      omega

/-- Slabs that are each filled to 0.7 are not sparse. -/
theorem not_sparse_of_filled (filled : ∀ slab ∈ slabs, 7 * slab.capacity ≤ 10 * slab.used) :
    ¬ Sparse config layout slabs :=
  fun sparse => Nat.not_lt.mpr (capacities_le_of_filled filled) sparse.unused

/-- Layouts of at least 0.7 of a slab keep the slabs filled to 0.7. -/
theorem Restocks.filled_of_large (restocks : Restocks config layout slabs next)
    (regular : Regular config slabs) (large : 7 * config.slabBytes ≤ 10 * layout.size)
    (filled : ∀ slab ∈ slabs, 7 * slab.capacity ≤ 10 * slab.used) :
    ∀ slab ∈ next, 7 * slab.capacity ≤ 10 * slab.used := by
  have fresh : ∀ slab : Slab, slab.capacity = config.slabBytes → slab.top = layout.size →
      7 * slab.capacity ≤ 10 * slab.used := by
    intro slab capacity top
    rw [Slab.used, capacity, top]
    exact large
  cases restocks with
  | untouched => exact filled
  | @filled current bumped earlier offset same bumps =>
      subst same
      obtain ⟨_, _, _, rfl⟩ := Slab.bump_eq_ok_iff.mp bumps
      have capacity : current.region.length = config.slabBytes :=
        regular.uniform current List.mem_cons_self
      rw [List.forall_mem_cons] at filled ⊢
      refine ⟨?_, filled.2⟩
      simp only [Slab.capacity, Slab.used]
      omega
  | emptied => simp
  | renewed capacity top => simpa using fresh _ capacity top
  | added _ capacity top => exact List.forall_mem_cons.mpr ⟨fresh _ capacity top, filled⟩

/-- The padding in front of an object is less than its alignment, in whole words. -/
theorem Regular.padding_le {descriptor : Descriptor} {extra : Nat}
    (laidOut : Layout.of? descriptor extra = some layout) (regular : Regular config slabs)
    {slab : Slab} (member : slab ∈ slabs) (shape : slab.Shaped) :
    alignUp slab.top layout.align ≤ slab.top + (layout.align - wordBytes) := by
  have words := regular.words slab member
  have aligned := Layout.word_dvd_align laidOut
  have rounded :=
    aligned.trans (Layout.alignUp_spec laidOut shape.top_le shape.pages shape.word).2
  obtain ⟨k, _, most, align⟩ := Layout.align_eq_two_pow laidOut
  have below : alignUp slab.top layout.align < slab.top + layout.align := by
    rw [align]
    exact Packing.alignUp_lt (by omega)
  simp only [wordBytes] at *
  omega

/-- If at most one slab is in use and the slabs are sparse, there is one.  It is not filled to 0.7,
and has no room for the object nevertheless. -/
theorem Sparse.lone {descriptor : Descriptor} {extra : Nat}
    (laidOut : Layout.of? descriptor extra = some layout) (positive : 0 < config.slabBytes)
    (regular : Regular config slabs) (shaped : ∀ slab ∈ slabs, slab.Shaped)
    (few : Slab.capacities slabs ≤ config.slabBytes) (sparse : Sparse config layout slabs) :
    ∃ current, slabs = [current] ∧ 10 * current.top < 7 * config.slabBytes ∧
      config.slabBytes < current.top + (layout.align - wordBytes) + layout.size := by
  obtain ⟨full, unused, _⟩ := sparse
  match slabs with
  | [] => simp [Slab.capacities] at unused
  | [current] =>
      have capacity := regular.uniform current List.mem_cons_self
      have shape := shaped current List.mem_cons_self
      have padding := regular.padding_le laidOut List.mem_cons_self shape
      have beyond : current.capacity < alignUp current.top layout.align + layout.size := by
        by_contra fits
        refine full current rfl _ (Slab.bump_eq_ok_iff.mpr ⟨rfl, ?_, Nat.not_lt.mp fits, rfl⟩)
        exact Nat.lt_of_le_of_lt (Nat.not_lt.mp fits) shape.word
      simp only [Slab.capacities, List.map_cons, List.map_nil, List.sum_cons, List.sum_nil,
        Slab.used] at unused
      exact ⟨current, rfl, by omega, by omega⟩
  | first :: second :: rest =>
      have here := regular.uniform first (by simp)
      have there := regular.uniform second (by simp)
      simp only [Slab.capacities] at few
      omega

/-- Objects of one size without padding fill the slabs by multiples of that size. -/
theorem Restocks.multiple_of_uniform {descriptor : Descriptor} {extra : Nat}
    (laidOut : Layout.of? descriptor extra = some layout) (align : layout.align = wordBytes)
    (regular : Regular config slabs) (shaped : ∀ slab ∈ slabs, slab.Shaped)
    (restocks : Restocks config layout slabs next)
    (multiple : ∀ slab ∈ slabs, layout.size ∣ slab.top) :
    ∀ slab ∈ next, layout.size ∣ slab.top := by
  cases restocks with
  | untouched => exact multiple
  | @filled current bumped earlier offset same bumps =>
      subst same
      obtain ⟨rounded, _, _, rfl⟩ := Slab.bump_eq_ok_iff.mp bumps
      have shape := shaped current List.mem_cons_self
      have behind := (Layout.alignUp_spec laidOut shape.top_le shape.pages shape.word).1
      have padding := regular.padding_le laidOut List.mem_cons_self shape
      have flush : offset = current.top := by
        rw [align, Nat.sub_self] at padding
        rw [align] at behind rounded
        omega
      rw [List.forall_mem_cons] at multiple ⊢
      exact ⟨flush ▸ Nat.dvd_add multiple.1 (Nat.dvd_refl _), multiple.2⟩
  | emptied => simp
  | renewed _ top => simp [top]
  | added _ _ top => exact List.forall_mem_cons.mpr ⟨top ▸ Nat.dvd_refl _, multiple⟩

end

namespace Heap

/-! ## One allocation -/

/-- What follows gently leaves the slabs as restocked. -/
theorem Restocked.trans_undisturbed {heap middle next : Heap} {layout : Layout}
    (restocked : heap.Restocked layout middle) (undisturbed : middle.Undisturbed next) :
    heap.Restocked layout next where
  threshold := undisturbed.threshold.trans restocked.threshold
  liveBytes := undisturbed.liveBytes.trans restocked.liveBytes
  slabs := undisturbed.slabs ▸ restocked.slabs

theorem exists_laidOut_of_layoutFor? {heap : Heap} {id : ClassId} {extra : Nat} {layout : Layout}
    (found : layout ∈ heap.layoutFor? id extra) :
    ∃ descriptor, Layout.of? descriptor extra = some layout := by
  unfold layoutFor? at found
  split at found
  · exact ⟨_, found⟩
  · cases found

/-- No operation changes the settings. -/
theorem Reachable.config_run {heap : Heap} (reachable : heap.Reachable) {α : Type}
    {operation : HeapM α} (offered : Operation operation)
    (bounded : (operation.run heap).2.handles.slots < 2 ^ 32) :
    (operation.run heap).2.config = heap.config := by
  obtain ⟨log, course⟩ := offered.tame.course heap reachable.sound bounded
  exact (course.settings reachable.sound bounded).1

section
variable {heap : Heap} (reachable : heap.Reachable) (unburdened : heap.Unburdened)
include reachable unburdened

/-- An object that is allocated while nothing is kept restocks the slabs, or leaves them alone. -/
theorem Unburdened.make (eager : heap.config.Eager) (unkept : ∀ handle, ¬ heap.Kept handle)
    {id : ClassId} {extra : Nat} {program : HeapM Handle}
    (allocates : AllocatesOne id extra program)
    (fits : ∀ layout ∈ heap.layoutFor? id extra, layout.size ≤ heap.config.slabBytes) :
    heap.Undisturbed (program.run heap).2 ∨
      ∃ layout ∈ heap.layoutFor? id extra, heap.Restocked layout (program.run heap).2 := by
  rcases allocates.follows_reserve heap with untouched | ⟨layout, found, undisturbed⟩
  · exact Or.inl untouched
  · obtain ⟨descriptor, laidOut⟩ := exists_laidOut_of_layoutFor? found
    exact Or.inr ⟨layout, found, (unburdened.reserve reachable eager (fits layout found) unkept
      laidOut).trans_undisturbed undisturbed⟩

omit reachable in
theorem Unburdened.undisturbed {next : Heap} (undisturbed : heap.Undisturbed next)
    (config : next.config = heap.config) : next.Unburdened where
  threshold := undisturbed.threshold.trans unburdened.threshold
  liveBytes := undisturbed.liveBytes.trans unburdened.liveBytes
  regular := by
    rw [undisturbed.slabs, config]
    exact unburdened.regular

theorem Unburdened.restocked {next : Heap} {layout : Layout} {descriptor : Descriptor} {extra : Nat}
    (laidOut : Layout.of? descriptor extra = some layout) (restocked : heap.Restocked layout next)
    (config : next.config = heap.config) : next.Unburdened where
  threshold := restocked.threshold
  liveBytes := restocked.liveBytes
  regular := by
    rw [config]
    exact restocked.slabs.regular laidOut reachable.sound.placed.shaped unburdened.regular

end

/-! ## Histories -/

/-- The heaps that a history of garbage leads to.  Whenever an object is allocated nothing is kept,
and the layout of the object is an allowed one.  In between the program does what it likes, as long
as it neither allocates nor collects. -/
inductive Littered (config : Config) (allowed : Layout → Prop) : Heap → Prop
  | created {system : MemorySystem} {heap : Heap} :
      Heap.new system config = .ok heap → Littered config allowed heap
  | made {heap : Heap} {id : ClassId} {extra : Nat} {program : HeapM Handle} :
      Littered config allowed heap → AllocatesOne id extra program →
        (∀ handle, ¬ heap.Kept handle) →
        (∀ layout ∈ heap.layoutFor? id extra, allowed layout) →
        (program.run heap).2.handles.slots < 2 ^ 32 → Littered config allowed (program.run heap).2
  | idled {heap : Heap} {α : Type} {program : HeapM α} :
      Littered config allowed heap → Idle program →
        (program.run heap).2.handles.slots < 2 ^ 32 → Littered config allowed (program.run heap).2

section
variable {config : Config} {allowed : Layout → Prop} {heap : Heap}
  (littered : Littered config allowed heap)
include littered

theorem Littered.reachable : heap.Reachable := by
  induction littered with
  | created created => exact Reachable.created created
  | made _ allocates _ _ bounded ih => exact ih.after allocates.operation bounded
  | idled _ idle bounded ih => exact ih.after idle.operation bounded

theorem Littered.settings : heap.config = config := by
  induction littered with
  | created created =>
      obtain ⟨_, rfl⟩ := new_eq_ok_iff.mp created
      rfl
  | made littered allocates _ _ bounded ih =>
      exact (littered.reachable.config_run allocates.operation bounded).trans ih
  | idled littered idle bounded ih =>
      exact (littered.reachable.config_run idle.operation bounded).trans ih

variable (eager : config.Eager) (fits : ∀ layout, allowed layout → layout.size ≤ config.slabBytes)
include eager fits

/-- What holds without slabs, and is preserved whenever a heap with regular slabs is restocked for
an allowed layout, holds throughout. -/
theorem Littered.slabs_induction {motive : List Slab → Prop} (empty : motive [])
    (step : ∀ descriptor extra layout slabs next, Layout.of? descriptor extra = some layout →
      allowed layout → Regular config slabs → (∀ slab ∈ slabs, slab.Shaped) →
      Restocks config layout slabs next → motive slabs → motive next) :
    heap.Unburdened ∧ motive heap.space.slabs := by
  induction littered with
  | created created =>
      obtain ⟨_, rfl⟩ := new_eq_ok_iff.mp created
      exact ⟨⟨eager.least, rfl, regular_nil config⟩, empty⟩
  | @made heap id extra program littered allocates unkept permitted bounded ih =>
      obtain ⟨unburdened, holds⟩ := ih
      have reachable := littered.reachable
      have same := reachable.config_run allocates.operation bounded
      have settings := littered.settings
      rcases unburdened.make reachable (settings ▸ eager) unkept allocates
          (fun layout found => settings ▸ fits layout (permitted layout found)) with
        untouched | ⟨layout, found, restocked⟩
      · exact ⟨unburdened.undisturbed untouched same, untouched.slabs ▸ holds⟩
      · obtain ⟨descriptor, laidOut⟩ := exists_laidOut_of_layoutFor? found
        refine ⟨unburdened.restocked reachable laidOut restocked same, ?_⟩
        exact step descriptor extra layout _ _ laidOut (permitted layout found)
          (settings ▸ unburdened.regular) reachable.sound.placed.shaped
          (settings ▸ restocked.slabs) holds
  | @idled heap α program littered idle bounded ih =>
      obtain ⟨unburdened, holds⟩ := ih
      have untouched := idle.gentle heap
      exact ⟨unburdened.undisturbed untouched
        (littered.reachable.config_run idle.operation bounded), untouched.slabs ▸ holds⟩

theorem Littered.unburdened : heap.Unburdened :=
  (littered.slabs_induction eager fits (motive := fun _ => True) trivial (by intros; trivial)).1

/-- A single slab is enough as long as the slabs are never sparse. -/
theorem Littered.single (filled : List Slab → Prop) (empty : filled [])
    (step : ∀ descriptor extra layout slabs next, Layout.of? descriptor extra = some layout →
      allowed layout → Regular config slabs → (∀ slab ∈ slabs, slab.Shaped) →
      Slab.capacities slabs ≤ config.slabBytes → Restocks config layout slabs next → filled slabs →
      ¬ Sparse config layout slabs ∧ filled next) :
    heap.slabBytes ≤ config.slabBytes := by
  rw [slabBytes_eq]
  refine (littered.slabs_induction eager fits
    (motive := fun slabs => Slab.capacities slabs ≤ config.slabBytes ∧ filled slabs)
    ⟨Nat.zero_le _, empty⟩ ?_).2.1
  rintro descriptor extra layout slabs next laidOut permitted regular shaped restocks ⟨few, before⟩
  obtain ⟨dense, after⟩ :=
    step descriptor extra layout slabs next laidOut permitted regular shaped few
    restocks before
  refine ⟨?_, after⟩
  rcases restocks.capacities_cases with one | same | ⟨sparse, _⟩
  · exact one
  · exact same ▸ few
  · exact absurd sparse dense

/-- Where every object takes 0.7 of a slab at least, a single slab is enough. -/
theorem Littered.single_of_large
    (large : ∀ layout, allowed layout → 7 * config.slabBytes ≤ 10 * layout.size) :
    heap.slabBytes ≤ config.slabBytes := by
  apply littered.single eager fits
    (fun slabs => ∀ slab ∈ slabs, 7 * slab.capacity ≤ 10 * slab.used) (by simp)
  intro descriptor extra layout slabs next _ permitted regular _ _ restocks before
  exact ⟨not_sparse_of_filled before,
    restocks.filled_of_large regular (large layout permitted) before⟩

omit eager fits in
theorem Littered.slabBytes_pos : 0 < config.slabBytes := by
  have valid := littered.reachable.settings.1
  rw [littered.settings] at valid
  exact (slabBytes_of_validate valid).1

/-- Where every object takes 0.3 of a slab at most, padding included, a single slab is enough. -/
theorem Littered.single_of_small (small : ∀ layout, allowed layout →
      10 * (layout.size + (layout.align - wordBytes)) ≤ 3 * config.slabBytes) :
    heap.slabBytes ≤ config.slabBytes := by
  apply littered.single eager fits (fun _ => True) trivial
  intro descriptor extra layout slabs next laidOut permitted regular shaped few _ _
  refine ⟨fun sparse => ?_, trivial⟩
  obtain ⟨current, _, unused, beyond⟩ :=
    sparse.lone laidOut littered.slabBytes_pos regular shaped few
  have bound := small layout permitted
  omega

/-- Where all objects have the same size without padding, and as many as fit fill a slab to 0.7, a
single slab is enough. -/
theorem Littered.single_of_uniform {size : Nat}
    (uniform : ∀ layout, allowed layout → layout.size = size ∧ layout.align = wordBytes)
    (dense : 7 * config.slabBytes ≤ 10 * (config.slabBytes / size * size)) :
    heap.slabBytes ≤ config.slabBytes := by
  apply littered.single eager fits (fun slabs => ∀ slab ∈ slabs, size ∣ slab.top) (by simp)
  intro descriptor extra layout slabs next laidOut permitted regular shaped few restocks multiple
  obtain ⟨rfl, align⟩ := uniform layout permitted
  refine ⟨fun sparse => ?_, restocks.multiple_of_uniform laidOut align regular shaped multiple⟩
  obtain ⟨current, rfl, unused, beyond⟩ :=
    sparse.lone laidOut littered.slabBytes_pos regular shaped few
  obtain ⟨count, top⟩ := multiple current List.mem_cons_self
  rw [align, Nat.sub_self, Nat.add_zero, top, Nat.mul_comm, ← Nat.succ_mul] at beyond
  have most : config.slabBytes / layout.size ≤ count :=
    Nat.lt_succ_iff.mp (Nat.div_lt_of_lt_mul (by rwa [Nat.mul_comm]))
  have filled : config.slabBytes / layout.size * layout.size ≤ current.top := by
    rw [top, Nat.mul_comm layout.size]
    exact Nat.mul_le_mul_right _ most
  omega

omit eager fits in
/-- How far the slabs of a heap grow that is littered with objects of allowed layouts.  A slab is
added to another one only where less than 0.7 of the slab bytes are in use and two more fit under
the limit, so the limit always leaves room for a further one.  Where all objects are small, or all
are large, or all have one size that fills a slab well, a single slab is enough. -/
structure Contained (config : Config) (allowed : Layout → Prop) (heap : Heap) : Prop where
  bounded : heap.slabBytes ≤ max config.slabBytes (config.maxHeapBytes - config.slabBytes)
  grows : ∀ id extra program, AllocatesOne id extra program → (∀ handle, ¬ heap.Kept handle) →
    (∀ layout ∈ heap.layoutFor? id extra, allowed layout) →
    heap.slabBytes < (program.run heap).2.slabBytes →
    config.slabBytes < (program.run heap).2.slabBytes →
      (program.run heap).2.slabBytes = heap.slabBytes + config.slabBytes ∧
        10 * heap.usedBytes < 7 * heap.slabBytes ∧
        heap.slabBytes + 2 * config.slabBytes ≤ config.maxHeapBytes
  small : (∀ layout, allowed layout →
      10 * (layout.size + (layout.align - wordBytes)) ≤ 3 * config.slabBytes) →
    heap.slabBytes ≤ config.slabBytes
  large : (∀ layout, allowed layout → 7 * config.slabBytes ≤ 10 * layout.size) →
    heap.slabBytes ≤ config.slabBytes
  uniform : ∀ size, (∀ layout, allowed layout → layout.size = size ∧ layout.align = wordBytes) →
    7 * config.slabBytes ≤ 10 * (config.slabBytes / size * size) →
    heap.slabBytes ≤ config.slabBytes

/-- Garbage is contained, whatever the sizes of the objects and in whatever order they come, if
every object fits into a slab of the usual size. -/
theorem Littered.contained : heap.Contained config allowed := by
  have unburdened := littered.unburdened eager fits
  have settings := littered.settings
  refine ⟨?_, ?_, littered.single_of_small eager fits, littered.single_of_large eager fits,
    fun size => littered.single_of_uniform eager fits⟩
  · rw [slabBytes_eq, ← settings]
    exact unburdened.regular.bounded
  · intro id extra program allocates unkept permitted more many
    rcases unburdened.make littered.reachable (settings ▸ eager) unkept allocates
        (fun layout found => settings ▸ fits layout (permitted layout found)) with
      untouched | ⟨layout, _, restocked⟩
    · rw [slabBytes_eq, slabBytes_eq, untouched.slabs] at more
      exact absurd more (Nat.lt_irrefl _)
    · rw [slabBytes_eq, slabBytes_eq] at more
      rw [slabBytes_eq] at many
      rw [slabBytes_eq, slabBytes_eq, usedBytes_eq]
      rcases restocked.slabs.capacities_cases with one | same | ⟨sparse, added⟩
      · rw [settings] at one
        exact absurd many (Nat.not_lt.mpr one)
      · rw [same] at more
        exact absurd more (Nat.lt_irrefl _)
      · rw [settings] at sparse added
        exact ⟨added, sparse.unused, sparse.room⟩

end

/-- Settings with slabs of a page, under which a heap collects as soon as it is filled to 0.7. -/
def paged : Config :=
  { slabBytes := 4096, minCollectBytes := 0 }

theorem eager_paged : paged.Eager where
  least := rfl
  standard := rfl
  word := by decide

/-- The heap after an instance of the first class that was registered has been allocated and given
up. -/
def discard (heap : Heap) (handle : Handle) : Heap :=
  ((release handle).run ((allocate ⟨9⟩ 0).run heap).2).2

/-- A heap in which three objects of 0.6 of a slab have been allocated, each after the one before
it was given up. -/
def sprawling : Heap :=
  let start := ((register "demo.Page" 2440 8 [] false).run (blank paged)).2
  ((allocate ⟨9⟩ 0).run ((start.discard ⟨0, 0⟩).discard ⟨1, 0⟩)).2

theorem unkept_of_survivors {heap : Heap} (sound : heap.Sound) (none : heap.survivors = [])
    (handle : Handle) : ¬ heap.Kept handle := by
  rw [← sound.mem_survivors_iff, none]
  exact List.not_mem_nil

theorem littered_sprawling : Littered paged (fun layout => layout.size = 2464) sprawling := by
  have blank : Littered paged (fun layout => layout.size = 2464) (blank paged) :=
    Littered.created (new_blank (by decide +kernel))
  have start := blank.idled (Idle.register "demo.Page" 2440 8 [] false) (by decide +kernel)
  have first := start.made (AllocatesOne.allocate ⟨9⟩ 0)
    (unkept_of_survivors start.reachable.sound (by decide +kernel)) (by decide +kernel)
    (by decide +kernel)
  have second := first.idled (Idle.release ⟨0, 0⟩) (by decide +kernel)
  have third := second.made (AllocatesOne.allocate ⟨9⟩ 0)
    (unkept_of_survivors second.reachable.sound (by decide +kernel)) (by decide +kernel)
    (by decide +kernel)
  have fourth := third.idled (Idle.release ⟨1, 0⟩) (by decide +kernel)
  exact fourth.made (AllocatesOne.allocate ⟨9⟩ 0)
    (unkept_of_survivors fourth.reachable.sound (by decide +kernel)) (by decide +kernel)
    (by decide +kernel)

theorem fits_paged (layout : Layout) (same : layout.size = 2464) :
    layout.size ≤ paged.slabBytes := by
  rw [same]
  decide

/-- The sprawling heap is contained, with three slabs. -/
theorem contained_sprawling :
    Littered paged (fun layout => layout.size = 2464) sprawling ∧ paged.Eager ∧
      (∀ layout : Layout, layout.size = 2464 → layout.size ≤ paged.slabBytes) ∧
      sprawling.slabBytes = 12288 ∧ sprawling.Contained paged fun layout => layout.size = 2464 :=
  ⟨littered_sprawling, eager_paged, fits_paged, by decide +kernel,
    Littered.contained littered_sprawling eager_paged fits_paged⟩

/-- Two slabs are not enough for garbage: the sprawling heap has three. -/
theorem two_slabs_insufficient :
    ¬ ∀ (config : Config) (allowed : Layout → Prop) (heap : Heap), Littered config allowed heap →
      config.Eager → (∀ layout, allowed layout → layout.size ≤ config.slabBytes) →
      heap.slabBytes ≤ 2 * config.slabBytes := by
  intro claimed
  have few := claimed paged _ sprawling littered_sprawling eager_paged fits_paged
  have three : sprawling.slabBytes = 12288 := by decide +kernel
  rw [three] at few
  exact absurd few (by decide)

end Heap

end CompactingHeap
