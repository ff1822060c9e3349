import CompactingHeap.Proofs.Packing
import CompactingHeap.Proofs.Provisions
import CompactingHeap.Proofs.Survivors

/-!
# Survivors are packed next fit

A collection packs the survivors next fit, in the order in which they were discovered.  The slabs
of the new space have the serial numbers that the allocator gives out from the beginning of the
collection on, so they correspond to the shelves of the packing one by one.  Hence a completed
collection leaves a space that wastes no more than the packing does; and if there is memory for the
packing, the collection completes.
-/

namespace CompactingHeap

namespace SlabAllocator

theorem acquired_of_ok {allocator next : SlabAllocator} {minBytes : Nat} {slab : Slab}
    (issue : allocator.acquire minBytes = (.ok slab, next)) :
    next.acquired = allocator.acquired + 1 := by
  unfold acquire mapSlab at issue
  grind [makeRoom]

/-- A slab that has been handed out has the size that a packing gives it: it is not clamped,
because it consists of whole pages. -/
theorem Accounts.capacity_eq_slabFor {allocator next : SlabAllocator} {outstanding : List Slab}
    (accounts : allocator.Accounts outstanding) {minBytes : Nat} {slab : Slab}
    (issue : allocator.acquire minBytes = (.ok slab, next))
    (issued : allocator.Issued minBytes slab) :
    slab.capacity = Packing.slabFor allocator.granularity minBytes := by
  have clamped : slab.capacity = min (Packing.slabFor allocator.granularity minBytes) maxWord :=
    accounts.capacity_of_ok issue
  have pages := issued.shaped.pages
  simp only [pageBytes, maxWord, wordLimit] at *
  omega

/-- A slab that is available can be acquired, if the system grants what the limit allows. -/
theorem Accounts.not_refused {allocator next : SlabAllocator} {outstanding : List Slab}
    (accounts : allocator.Accounts outstanding) {minBytes : Nat}
    (fits : Packing.slabFor allocator.granularity minBytes ≤ allocator.available)
    (word : allocator.limit < wordLimit)
    (granted : ∀ request size, size ≤ allocator.limit →
      allocator.system.grants request size = true) (error : HeapError) :
    allocator.acquire minBytes ≠ (.error error, next) := by
  intro failed
  obtain ⟨_, _, alike⟩ := accounts.acquire_error failed
  have within : allocator.available ≤ allocator.limit := Nat.sub_le _ _
  have size : allocator.slabSize minBytes =
      min (Packing.slabFor allocator.granularity minBytes) maxWord := rfl
  have multiple : Packing.slabFor allocator.granularity minBytes % pageBytes = 0 := by
    unfold Packing.slabFor
    rw [Nat.mul_mod, accounts.pages, Nat.mul_zero, Nat.zero_mod]
  have unclamped : allocator.slabSize minBytes =
      Packing.slabFor allocator.granularity minBytes := by
    simp only [maxWord, wordLimit] at *
    omega
  rcases accounts.denied_of_error failed with short | ⟨_, request, failure, _, refused⟩
  · rw [accounts.available_of_error failed, unclamped] at short
    omega
  · have positive := slabSize_pos accounts.granular minBytes
    unfold Region.map at refused
    rw [alike.system, granted request _ (by omega), unclamped] at refused
    simp only [multiple] at refused
    rw [unclamped] at positive
    split at refused
    · next invalid =>
      simp at invalid
      omega
    · cases refused

end SlabAllocator

/-- What a packing says of a slab. -/
def Slab.shelf (slab : Slab) : Shelf :=
  { label := slab.serial, capacity := slab.capacity, top := slab.top }

/-- A shelf of a packing whose labels are counted from another number on. -/
def Shelf.raise (base : Nat) (shelf : Shelf) : Shelf :=
  { shelf with label := base + shelf.label }

/-- A spot of a packing whose labels are counted from another number on. -/
def Place.raise (base : Nat) (place : Place) : Place :=
  { place with slab := base + place.slab }

namespace Space

/-- The slabs and the objects of a space are those of a packing, with serial numbers from `base`
on. -/
structure Packs (base : Nat) (space : Space) (packing : Packing) : Prop where
  slabs : space.slabs.map Slab.shelf = packing.shelves.map (Shelf.raise base)
  places : space.places = packing.spots.map (Place.raise base)

theorem packs_empty (base number : Nat) : Packs base (empty number) ⟨[], []⟩ :=
  ⟨rfl, rfl⟩

section
variable {base : Nat} {space : Space} {packing : Packing} (packs : space.Packs base packing)
include packs

theorem Packs.length_eq : space.slabs.length = packing.shelves.length := by
  have same := congrArg List.length packs.slabs
  rwa [List.length_map, List.length_map] at same

/-- The current slab is the current shelf. -/
theorem Packs.current {current : Shelf} {earlier : List Shelf}
    (shelves : packing.shelves = current :: earlier) :
    ∃ slab rest, space.slabs = slab :: rest ∧ slab.shelf = current.raise base ∧
      rest.map Slab.shelf = earlier.map (Shelf.raise base) := by
  have same := packs.slabs
  rw [shelves, List.map_cons] at same
  exact List.map_eq_cons_iff.mp same

/-- A bump in the current slab is one on the current shelf. -/
theorem Packs.bump {slab bumped : Slab} {rest : List Slab} (slabs : space.slabs = slab :: rest)
    {layout : Layout} {offset : Nat}
    (bumps : slab.bump layout.size layout.align = .ok (offset, bumped)) (granularity : Nat)
    (object : HeapObject) :
    Packs base (({ space with slabs := bumped :: rest } : Space).add ⟨slab.serial, offset⟩ object)
      (packing.put granularity layout) := by
  obtain ⟨rfl, _, fits, rfl⟩ := Slab.bump_eq_ok_iff.mp bumps
  have same := packs.slabs
  rw [slabs, List.map_cons] at same
  obtain ⟨current, earlier, shelves, here, behind⟩ := List.map_eq_cons_iff.mp same.symm
  obtain ⟨label, capacity, top⟩ := Shelf.mk.inj here
  rw [← top, ← capacity] at fits
  rw [Packing.put_of_fits shelves granularity fits]
  constructor
  · simp only [Packing.bump, add, List.map_cons, behind, Slab.shelf, Shelf.raise, label, top,
      capacity]
    rfl
  · simp only [Packing.bump, places_add, List.map_append, List.map_cons, List.map_nil, Place.raise,
      label, top]
    exact congrArg (· ++ _) packs.places

/-- Where the current slab has no room, the current shelf has none. -/
theorem Packs.full (shaped : ∀ slab ∈ space.slabs, slab.Shaped) {layout : Layout}
    (none : space.bump? layout = none) (current : Shelf) (earlier : List Shelf)
    (shelves : packing.shelves = current :: earlier) :
    current.capacity < alignUp current.top layout.align + layout.size := by
  obtain ⟨slab, rest, slabs, here, _⟩ := packs.current shelves
  obtain ⟨_, capacity, top⟩ := Shelf.mk.inj here
  have word := (shaped slab (by rw [slabs]; exact List.mem_cons_self)).word
  by_contra fits
  rw [← capacity, ← top, Nat.not_lt] at fits
  have bumps := Slab.bump_eq_ok_iff.mpr
    ⟨rfl, Nat.lt_of_le_of_lt fits word, fits, rfl⟩
  have room := bump?_eq_some_iff.mpr ⟨slab, rest, _, _, slabs, bumps, rfl, rfl⟩
  rw [none] at room
  cases room

/-- A slab that joins the space is a shelf of its own. -/
theorem Packs.join (shaped : ∀ slab ∈ space.slabs, slab.Shaped) {layout : Layout}
    (none : space.bump? layout = none) {slab : Slab} {granularity : Nat}
    (serial : slab.serial = base + space.slabs.length)
    (capacity : slab.capacity = Packing.slabFor granularity layout.size) (object : HeapObject) :
    Packs base
      (({ space with slabs := space.join granularity { slab with top := layout.size } } : Space).add
        ⟨slab.serial, 0⟩ object)
      (packing.put granularity layout) := by
  rw [Packing.put_of_full granularity (packs.full shaped none)]
  have fresh : Slab.shelf { slab with top := layout.size } =
      Shelf.raise base ⟨packing.shelves.length, Packing.slabFor granularity layout.size,
        layout.size⟩ := by
    rw [← capacity, ← packs.length_eq]
    exact congrArg (Shelf.mk · slab.capacity layout.size) serial
  constructor
  · simp only [Packing.install, add, Space.join]
    cases shelves : packing.shelves with
    | nil =>
        have slabs := packs.slabs
        rw [shelves, List.map_nil, List.map_eq_nil_iff] at slabs
        rw [slabs]
        rw [shelves] at fresh
        exact congrArg (fun shelf => [shelf]) fresh
    | cons current earlier =>
        obtain ⟨first, rest, slabs, here, behind⟩ := packs.current shelves
        rw [shelves] at fresh
        rw [slabs]
        dsimp only
        rw [show ({ slab with top := layout.size } : Slab).capacity =
          Packing.slabFor granularity layout.size from capacity]
        split <;> simp only [List.map_cons, fresh, here, behind]
  · simp only [Packing.install, places_add, List.map_append, List.map_cons, List.map_nil,
      Place.raise, serial, packs.length_eq]
    exact congrArg (· ++ _) packs.places

/-- The bytes in use and the capacity of a space are those of its packing. -/
theorem Packs.bytes_eq :
    space.usedBytes = Packing.used packing.shelves ∧
      space.slabBytes = Packing.capacities packing.shelves := by
  have tops : space.slabs.map Slab.top = packing.shelves.map Shelf.top := by
    have same := congrArg (List.map Shelf.top) packs.slabs
    rwa [List.map_map, List.map_map] at same
  have capacities : space.slabs.map Slab.capacity = packing.shelves.map Shelf.capacity := by
    have same := congrArg (List.map Shelf.capacity) packs.slabs
    rwa [List.map_map, List.map_map] at same
  unfold usedBytes slabBytes Packing.used Packing.capacities
  rw [← tops, ← capacities, List.sum_eq_foldl, List.sum_eq_foldl, List.foldl_map, List.foldl_map]
  exact ⟨rfl, rfl⟩

/-- A slab has the position among the slabs that its shelf has among the shelves. -/
theorem Packs.idxOf_serial (label : Nat) :
    (space.slabs.map Slab.serial).reverse.idxOf (base + label) =
      (packing.shelves.map Shelf.label).reverse.idxOf label := by
  have serials : space.slabs.map Slab.serial =
      (packing.shelves.map Shelf.label).map (base + ·) := by
    have same := congrArg (List.map Shelf.label) packs.slabs
    rw [List.map_map, List.map_map] at same
    rw [List.map_map]
    exact same
  rw [serials, ← List.map_reverse]
  generalize (packing.shelves.map Shelf.label).reverse = labels
  induction labels with
  | nil => rfl
  | cons first rest ih =>
      rw [List.map_cons, List.idxOf_cons, List.idxOf_cons, ih]
      have injective : (base + first == base + label) = (first == label) := by
        rw [Bool.eq_iff_iff, beq_iff_eq, beq_iff_eq, Nat.add_left_cancel_iff]
      rw [injective]

end

theorem layoutsAt_append {space : Space} {addresses : List Address} {address : Address}
    {object : HeapObject} (found : space.object? address = some object) :
    space.layoutsAt (addresses ++ [address]) = space.layoutsAt addresses ++ [object.layout] := by
  simp [layoutsAt, List.filterMap_append, found]

/-- The layouts of the first objects are the first layouts. -/
theorem layoutsAt_prefix (space : Space) {some all : List Address} (within : some <+: all) :
    space.layoutsAt some <+: space.layoutsAt all := by
  obtain ⟨rest, rfl⟩ := within
  exact ⟨space.layoutsAt rest, by simp [layoutsAt, List.filterMap_append]⟩

theorem tight_of_mem_layoutsAt {space : Space} {addresses : List Address} {layout : Layout}
    (member : layout ∈ space.layoutsAt addresses) : Packing.Tight layout := by
  obtain ⟨object, _, rfl⟩ := List.mem_map.mp member
  exact Packing.tight_of_laidOut object.laidOut

end Space

namespace Heap

/-- The packing of the survivors of a collection. -/
def packing (heap : Heap) : Packing :=
  .ofLayouts heap.allocator.granularity (heap.mark.space.layoutsAt heap.mark.live.toList)

/-- How far the relocation of the survivors of a heap has come: those moved lie as they are packed,
and the next slab that is acquired gets the label that the packing gives it. -/
structure PacksSoFar (heap : Heap) (moved : List Address) (relocation : Relocation) : Prop where
  packs : relocation.target.Packs heap.allocator.acquired
    (.ofLayouts heap.allocator.granularity (heap.mark.space.layoutsAt moved))
  acquired : relocation.allocator.acquired =
    heap.allocator.acquired + relocation.target.slabs.length

/-- A move packs one more survivor. -/
theorem PacksSoFar.move {heap : Heap} {relocation next : Relocation} {moved : List Address}
    (packing : heap.PacksSoFar moved relocation)
    (sofar : Relocation.Moved heap.mark.space heap.allocator relocation moved) {address : Address}
    {object : HeapObject} (found : heap.mark.space.object? address = some object)
    (moves : relocation.Moves address object (.ok (), next)) :
    heap.PacksSoFar (moved ++ [address]) next := by
  have shaped := sofar.placed.shaped
  obtain ⟨packs, acquired⟩ := packing
  cases moves with
  | bumped slabs bumps =>
      constructor
      · rw [Space.layoutsAt_append found, Packing.ofLayouts_append]
        exact packs.bump slabs bumps _ _
      · rw [slabs] at acquired
        exact acquired
  | @extended slab after full issue issued =>
      obtain ⟨_, _, alike⟩ :=
        sofar.accounts.acquire_ok (Layout.size_bounds object.laidOut).2 issue
      have capacity := sofar.accounts.capacity_eq_slabFor issue issued
      rw [sofar.alike.granularity] at capacity
      have granularity := alike.granularity.trans sofar.alike.granularity
      constructor
      · rw [Space.layoutsAt_append found, Packing.ofLayouts_append]
        unfold Relocation.put
        rw [granularity]
        exact packs.join shaped full (issued.serial.trans acquired) capacity _
      · have one := (relocation.target.perm_join after.granularity
          { slab with top := object.layout.size }).length_eq
        have more := SlabAllocator.acquired_of_ok issue
        rw [List.length_cons] at one
        change after.acquired = heap.allocator.acquired + (relocation.target.join _ _).length
        rw [more, acquired, one, Nat.add_assoc]

/-- The packing is frugal. -/
theorem Sound.frugal {heap : Heap} (sound : heap.Sound) (addresses : List Address) :
    Packing.Frugal heap.allocator.granularity
      ((heap.mark.space.layoutsAt addresses).map Layout.size).sum
      (Packing.ofLayouts heap.allocator.granularity
        (heap.mark.space.layoutsAt addresses)).shelves :=
  Packing.frugal_ofLayouts sound.accounts.granular fun _ member =>
    Space.tight_of_mem_layoutsAt member

/-- The relocation of the survivors packs them. -/
theorem Sound.packsAll {heap : Heap} (sound : heap.Sound) :
    (∀ last, (Relocation.begin heap.allocator heap.mark.space).moveAll heap.mark.live.toList =
        (.ok (), last) → heap.PacksSoFar heap.mark.live.toList last) ∧
      ∀ error last, (Relocation.begin heap.allocator heap.mark.space).moveAll
        heap.mark.live.toList = (.error error, last) →
          Relocation.Stops heap.mark.space heap.allocator heap.mark.live.toList heap.PacksSoFar
            error last :=
  sound.moveAll_induction (motive := heap.PacksSoFar) ⟨Space.packs_empty _ _, rfl⟩
    fun _ _ _ _ sofar found packing _ moves => packing.move sofar found moves

/-- A collection that completes leaves the survivors packed. -/
theorem Sound.packs_collected {start finish : Heap} (sound : start.Sound)
    (ran : start.collectNow = (.ok (), finish)) :
    finish.space.Packs start.allocator.acquired start.packing := by
  obtain ⟨relocation, fixed, updated, completes⟩ := completes_of_ok ran
  have packs := (sound.packsAll.1 relocation completes.moved).packs
  constructor
  · rw [completes.slabs]
    exact packs.slabs
  · rw [completes.places]
    exact packs.places

/-! ## The bounds of a compaction -/

/-- A heap wastes little: it uses at most twice the live bytes, and takes at most three times as
many and a slab.  If nothing is live it takes nothing. -/
structure Frugal (heap : Heap) : Prop where
  used : heap.usedBytes ≤ 2 * heap.stats.liveBytes
  slabs : heap.slabBytes ≤ 3 * heap.stats.liveBytes + heap.config.slabBytes
  vacant : heap.handles.liveHandles = [] → heap.usedBytes = 0 ∧ heap.slabBytes = 0

/-- There is memory enough for the survivors of a collection, and the system grants what the limit
allows. -/
structure Affords (heap : Heap) : Prop where
  available : 3 * heap.mark.liveBytes + heap.config.slabBytes ≤ heap.allocator.available
  granted : ∀ request size, size ≤ heap.config.maxHeapBytes →
    heap.allocator.system.grants request size = true

/-- A completed collection leaves little waste. -/
theorem Sound.frugal_collected {start finish : Heap} (sound : start.Sound) (fitted : start.Fitted)
    (ran : start.collectNow = (.ok (), finish)) : finish.Frugal := by
  have compacts := sound.compacts_mark ran
  have packs := sound.packs_collected ran
  have frugal := sound.frugal start.mark.live.toList
  rw [← Marking.liveBytes_eq] at frugal
  obtain ⟨used, slabs⟩ := frugal.bounds
  obtain ⟨usedEq, slabsEq⟩ := packs.bytes_eq
  have live := liveBytes_of_collectNow ran
  constructor
  · rw [live]
    exact usedEq.trans_le used
  · rw [live, compacts.config, ← fitted.granularity]
    exact slabsEq.trans_le slabs
  · intro vacant
    have none : start.mark.liveBytes = 0 := by
      have bytes := sound.liveBytes_collected ran
      rw [vacant] at bytes
      exact live.symm.trans bytes
    have nil : start.packing.shelves = [] := frugal.eq_nil none
    rw [nil] at usedEq slabsEq
    exact ⟨usedEq, slabsEq⟩

/-- A collection completes if there is room for the packing of the survivors and the system grants
what the limit allows: a slab that is acquired belongs to the packing of the survivors moved so
far, which takes no more room than that of all of them. -/
theorem Sound.completes_of_room {heap : Heap} (sound : heap.Sound) (fitted : heap.Fitted)
    (word : heap.config.maxHeapBytes < wordLimit)
    (granted : ∀ request size, size ≤ heap.config.maxHeapBytes →
      heap.allocator.system.grants request size = true)
    (room : Packing.capacities heap.packing.shelves ≤ heap.allocator.available) :
    ∃ finish, heap.collectNow = (.ok (), finish) ∧
      finish.stats.liveBytes = heap.mark.liveBytes := by
  rcases ran : heap.collectNow with ⟨error | value, finish⟩
  · exfalso
    obtain ⟨relocation, moves, _⟩ := sound.fails_of_error ran
    obtain ⟨traces, _⟩ := sound.mark
    cases sound.packsAll.2 error relocation moves with
    | @refused before _ gone address object _ within found sofar packing move =>
        have least := Packing.capacities_mono heap.allocator.granularity
          (heap.mark.space.layoutsAt_prefix within)
        obtain ⟨packs, _⟩ := packing
        cases move with
        | refused none issue =>
            rw [Space.layoutsAt_append found, Packing.ofLayouts_append,
              Packing.put_of_full _ (packs.full sofar.placed.shaped none),
              Packing.capacities_install, ← packs.bytes_eq.2, Space.slabBytes_eq] at least
            have left := sofar.accounts.available_eq
            have total := sound.accounts.available_eq
            rw [Slab.capacities_append, traces.slabs, sofar.alike.limit] at left
            unfold packing at room
            refine sofar.accounts.not_refused ?_ ?_ ?_ error issue
            · rw [sofar.alike.granularity]
              omega
            · rw [sofar.alike.limit, fitted.limit]
              exact word
            · rw [sofar.alike.limit, sofar.alike.system, fitted.limit]
              exact granted
  · exact ⟨finish, rfl, liveBytes_of_collectNow ran⟩

/-- What a heap can afford suffices for the packing of its survivors. -/
theorem Sound.completes_of_affords {heap : Heap} (sound : heap.Sound) (fitted : heap.Fitted)
    (word : heap.config.maxHeapBytes < wordLimit) (affords : heap.Affords) :
    ∃ finish, heap.collectNow = (.ok (), finish) ∧
      finish.stats.liveBytes = heap.mark.liveBytes := by
  have slabs := (sound.frugal heap.mark.live.toList).bounds.2
  rw [← Marking.liveBytes_eq, fitted.granularity] at slabs
  apply sound.completes_of_room fitted word affords.granted
  unfold packing
  rw [fitted.granularity]
  exact slabs.trans affords.available

/-- The bounds of compaction: each collection that completes leaves little waste; and at any
moment, if there is memory enough for the survivors, a collection that starts then completes. -/
theorem Reachable.compactsFrugally {heap : Heap} (reachable : heap.Reachable) {α : Type}
    {operation : HeapM α} (offered : Operation operation)
    (bounded : (operation.run heap).2.handles.slots < 2 ^ 32) :
    EachCollection heap (operation.run heap).2 (fun _ finish => finish.Frugal) ∧
      (heap.config.maxHeapBytes < wordLimit → ∀ start, heap.Underway start → start.Affords →
        ∃ finish, start.collectNow = (.ok (), finish) ∧
          finish.stats.liveBytes = start.mark.liveBytes) := by
  refine ⟨?_, ?_⟩
  · apply reachable.eachCollection_underway offered bounded
    intro start finish underway ran
    exact (underway.sound reachable.sound).frugal_collected (reachable.fitted_underway underway) ran
  · intro word start underway affords
    obtain ⟨⟨log, course⟩, small⟩ := id underway
    rw [← (course.settings reachable.sound small).1] at word
    exact (underway.sound reachable.sound).completes_of_affords (reachable.fitted_underway underway)
      word affords

/-- A heap with an integer in it, and memory to spare. -/
def roomy : Heap :=
  ((allocInt 7).run (blank {})).2

/-- The roomy heap can afford a collection, which leaves little waste. -/
theorem compactsFrugally_roomy :
    roomy.Reachable ∧ (collect.run roomy).2.handles.slots < 2 ^ 32 ∧
      (collect.run roomy).1 = .ok () ∧ roomy.config.maxHeapBytes < wordLimit ∧
      roomy.Underway roomy ∧ roomy.Affords ∧ roomy.mark.liveBytes = 32 ∧
      EachCollection roomy (collect.run roomy).2 (fun _ finish => finish.Frugal) ∧
      (roomy.config.maxHeapBytes < wordLimit → ∀ start, roomy.Underway start → start.Affords →
        ∃ finish, start.collectNow = (.ok (), finish) ∧
          finish.stats.liveBytes = start.mark.liveBytes) := by
  have start : (blank {}).Reachable := reachable_blank (by decide +kernel)
  have bounded : ((allocInt 7).run (blank {})).2.handles.slots < 2 ^ 32 := by decide +kernel
  have reachable : roomy.Reachable := start.after (.allocInt 7) bounded
  obtain ⟨log, course⟩ := (Operation.allocInt 7).tame.course _ start.sound bounded
  have system : roomy.allocator.system = .spacious := (course.alike start.sound bounded).system
  have limit : roomy.config.maxHeapBytes = 1073741824 := by decide +kernel
  refine ⟨reachable, by decide +kernel, by decide +kernel, by decide +kernel,
    ⟨⟨[], .done _⟩, bounded⟩, ⟨by decide +kernel, ?_⟩, by decide +kernel,
    Reachable.compactsFrugally reachable Operation.collect (by decide +kernel)⟩
  intro request size within
  rw [system]
  exact decide_eq_true (by omega)

end Heap

end CompactingHeap
