import CompactingHeap.Proofs.ExactCollections
import CompactingHeap.Proofs.NextFit

/-!
# Headroom

Before a heap maps a slab near its limit, it makes sure that the survivors of the last collection
could still be relocated.  It estimates the room that they need by their total size, rounded up to
slabs.  But objects are packed whole, so what decides whether a collection completes is the room of
the packing.  The estimate is never larger than that, and it is exact where the survivors fit into
a single slab.
-/

namespace CompactingHeap

namespace Packing

/-- The bytes of the shelves are a multiple of the granularity. -/
theorem dvd_capacities (granularity : Nat) (layouts : List Layout) :
    granularity ∣ capacities (ofLayouts granularity layouts).shelves := by
  induction layouts using List.reverseRecOn with
  | nil => exact Nat.dvd_zero _
  | append_singleton layouts layout ih =>
      rw [ofLayouts_append]
      have grown : granularity ∣
          capacities ((ofLayouts granularity layouts).install granularity layout).shelves := by
        rw [capacities_install]
        exact Nat.dvd_add (Nat.dvd_mul_left _ _) ih
      unfold put
      split
      · exact grown
      · next current earlier shelves =>
        split
        · rw [shelves] at ih
          exact ih
        · exact grown

/-- What is not larger than the granularity gets a shelf of that capacity. -/
theorem slabFor_of_le {granularity size : Nat} (granular : 0 < granularity)
    (small : size ≤ granularity) : slabFor granularity size = granularity := by
  have one : (max size 1 + (granularity - 1)) / granularity = 1 :=
    Nat.div_eq_of_lt_le (by omega) (by omega)
  rw [slabFor, one, Nat.one_mul]

/-- A layout without padding: it consists of words and is aligned to no more than a word. -/
structure Plain (layout : Layout) : Prop where
  align : layout.align = wordBytes
  words : wordBytes ∣ layout.size

/-- Layouts without padding that do not exceed the granularity together share a single shelf. -/
theorem shelves_plain {granularity : Nat} (granular : 0 < granularity)
    (word : granularity + wordBytes ≤ wordLimit) {layouts : List Layout}
    (plain : ∀ layout ∈ layouts, Plain layout)
    (fits : (layouts.map Layout.size).sum ≤ granularity) :
    layouts = [] ∨
      (ofLayouts granularity layouts).shelves =
          [⟨0, granularity, (layouts.map Layout.size).sum⟩] ∧
        wordBytes ∣ (layouts.map Layout.size).sum := by
  induction layouts using List.reverseRecOn with
  | nil => exact Or.inl rfl
  | append_singleton layouts layout ih =>
      rw [List.map_append, List.sum_append, List.map_singleton, List.sum_singleton] at fits ⊢
      obtain ⟨align, words⟩ := plain layout (by simp)
      right
      rw [ofLayouts_append]
      rcases ih (fun other member => plain other (by simp [member])) (by omega) with
        rfl | ⟨single, whole⟩
      · have small : layout.size ≤ granularity := by simpa using fits
        refine ⟨?_, by simpa using words⟩
        simp [ofLayouts, put, install, slabFor_of_le granular small]
      · have rounded : alignUp (layouts.map Layout.size).sum layout.align =
            (layouts.map Layout.size).sum := by
          rw [align, show wordBytes = 2 ^ 3 from rfl, alignUp_two_pow _ (by decide)]
          · obtain ⟨count, same⟩ := whole
            simp only [wordBytes] at same
            omega
          · simp only [wordBytes] at word
            omega
        rw [put_of_fits single granularity (by rw [rounded]; exact fits)]
        exact ⟨by simp only [bump, rounded], Nat.dvd_add whole words⟩

end Packing

/-- What is not larger than the granularity gets a slab of that size. -/
theorem SlabAllocator.slabSize_of_le {allocator : SlabAllocator}
    (granular : 0 < allocator.granularity) (word : allocator.granularity < wordLimit) {size : Nat}
    (small : size ≤ allocator.granularity) :
    allocator.slabSize size = allocator.granularity := by
  have clamped : allocator.slabSize size =
      min (Packing.slabFor allocator.granularity size) maxWord := rfl
  rw [clamped, Packing.slabFor_of_le granular small]
  simp only [maxWord, wordLimit] at *
  omega

/-! ## The room that the survivors need -/

/-- A heap may map at least one slab. -/
theorem Config.slabBytes_le_of_validate {config : Config} (accepted : config.validate = .ok ()) :
    config.slabBytes ≤ config.maxHeapBytes := by
  have noFlaw := validate_eq_ok_iff.mp accepted
  unfold flaw? at noFlaw
  grind

namespace Heap

/-- The bytes of the slabs that relocating the survivors takes. -/
def relocationBytes (heap : Heap) : Nat :=
  Packing.capacities heap.packing.shelves

section
variable {heap finish : Heap} (sound : heap.Sound)
  (ran : heap.collectNow = (.ok (), finish))
include sound ran

/-- A collection that completes has had room for the packing. -/
theorem Sound.relocationBytes_le (provisioned : heap.Provisioned) :
    heap.relocationBytes ≤ heap.allocator.available := by
  obtain ⟨relocation, fixed, updated, completes⟩ := completes_of_ok ran
  have sofar := sound.moved_of_ok completes.moved
  have solvent := (provisioned.moveAll sound completes.moved).1
  have packs := (sound.packsAll.1 relocation completes.moved).packs
  have room : relocation.target.slabBytes = heap.relocationBytes := packs.bytes_eq.2
  have mapped := sofar.accounts.mapped
  have within := solvent.within
  have left := sound.accounts.available_eq
  rw [Space.slabBytes_eq] at room
  rw [Slab.capacities_append, sound.mark.1.slabs] at mapped
  rw [sofar.alike.limit] at within
  omega

/-- A collection that completes has had room for the survivors themselves. -/
theorem Sound.liveBytes_le_relocationBytes : heap.mark.liveBytes ≤ heap.relocationBytes := by
  obtain ⟨relocation, fixed, updated, completes⟩ := completes_of_ok ran
  have sofar := sound.moved_of_ok completes.moved
  have packs := (sound.packsAll.1 relocation completes.moved).packs
  have used : ((heap.mark.space.layoutsAt heap.mark.live.toList).map Layout.size).sum ≤
      relocation.target.usedBytes := by
    refine (sound.moveAll_induction (motive := fun moved relocation =>
      ((heap.mark.space.layoutsAt moved).map Layout.size).sum ≤ relocation.target.usedBytes)
      (Nat.zero_le _) ?_).1 relocation completes.moved
    intro relocation moved address object sofar found below next moves
    rw [Space.layoutsAt_append found, List.map_append, List.sum_append, List.map_singleton,
      List.sum_singleton]
    rw [Space.usedBytes_eq_sum] at below ⊢
    cases moves with
    | @bumped current bumped earlier offset slabs bumps =>
        obtain ⟨rfl, _, _, rfl⟩ := Slab.bump_eq_ok_iff.mp bumps
        have shaped := sofar.placed.shaped current (by simp [slabs])
        have behind := (Layout.alignUp_spec object.laidOut shaped.top_le shaped.pages shaped.word).1
        rw [slabs, List.map_cons, List.sum_cons] at below
        simp only [Relocation.put, Space.add, List.map_cons, List.sum_cons, Slab.used] at below ⊢
        omega
    | @extended slab after _ _ _ =>
        have joined := (relocation.target.perm_join after.granularity
          { slab with top := object.layout.size }).map Slab.used
        simp only [Relocation.put, Space.add]
        rw [joined.sum_nat, List.map_cons, List.sum_cons]
        simp only [Slab.used] at below ⊢
        omega
  rw [← Marking.liveBytes_eq] at used
  exact used.trans ((Space.usedBytes_le sofar.placed).trans (Nat.le_of_eq packs.bytes_eq.2))

end

/-- The estimate is the least multiple of the granularity that holds the survivors, so the room of
a packing that completes is not below it. -/
theorem Sound.slabSize_le_relocationBytes {heap finish : Heap} (sound : heap.Sound)
    (ran : heap.collectNow = (.ok (), finish)) (some : 0 < heap.mark.liveBytes) :
    heap.allocator.slabSize heap.mark.liveBytes ≤ heap.relocationBytes := by
  have live := sound.liveBytes_le_relocationBytes ran
  obtain ⟨size, ⟨_, least⟩, clamped⟩ :=
    SlabAllocator.slabSize_eq sound.accounts.granular heap.mark.liveBytes
  have room : size ≤ heap.relocationBytes :=
    least ⟨Packing.dvd_capacities _ _, by omega⟩
  rw [clamped]
  exact (Nat.min_le_left _ _).trans room

/-- Where no survivor is aligned to more than a word, none of them is padded. -/
theorem Sound.plain_layoutsAt {heap : Heap} (sound : heap.Sound)
    (aligned : ∀ handle layout, heap.Kept handle → heap.layoutOf handle = .ok layout →
      layout.align = wordBytes) :
    ∀ layout ∈ heap.mark.space.layoutsAt heap.mark.live.toList, Packing.Plain layout := by
  intro layout member
  constructor
  · rw [sound.layoutsAt_mark] at member
    obtain ⟨handle, survives, shown⟩ := List.mem_filterMap.mp member
    apply aligned handle layout (sound.mem_survivors_iff.mp survives)
    cases found : heap.layoutOf handle with
    | ok other =>
        rw [found] at shown
        cases shown
        rfl
    | error error =>
        rw [found] at shown
        cases shown
  · obtain ⟨object, _, rfl⟩ := List.mem_map.mp member
    exact Layout.word_dvd_size object.laidOut

/-- Survivors without padding that fit into one slab need no more room than the estimate. -/
theorem Sound.relocationBytes_le_slabSize {heap : Heap} (sound : heap.Sound) (fitted : heap.Fitted)
    (word : heap.config.slabBytes < wordLimit) (fits : heap.mark.liveBytes ≤ heap.config.slabBytes)
    (aligned : ∀ handle layout, heap.Kept handle → heap.layoutOf handle = .ok layout →
      layout.align = wordBytes) :
    heap.relocationBytes ≤ heap.allocator.slabSize heap.mark.liveBytes := by
  have granular := sound.accounts.granular
  have pages := sound.accounts.pages
  rw [← fitted.granularity] at word fits
  rw [SlabAllocator.slabSize_of_le granular word fits]
  unfold relocationBytes packing
  rw [Marking.liveBytes_eq] at fits
  rcases Packing.shelves_plain granular
    (by simp only [pageBytes, wordBytes, wordLimit] at *; omega) (sound.plain_layoutsAt aligned)
    fits with none | ⟨single, _⟩
  · rw [none]
    exact Nat.zero_le _
  · simp [single, Packing.capacities]

/-- What decides whether a heap whose survivors take `total` bytes can collect.  The room of their
packing is enough, and nothing less is.  The estimate, `total` rounded up to slabs, is a lower
bound of that room; it is exact where the survivors fit into one slab without padding. -/
structure Headroom (heap : Heap) (total : Nat) : Prop where
  enough : heap.relocationBytes ≤ heap.allocator.available → (collect.run heap).1 = .ok ()
  needed : heap.config.maxHeapBytes < 2 ^ 63 → (collect.run heap).1 = .ok () →
    heap.relocationBytes ≤ heap.allocator.available
  estimate : (collect.run heap).1 = .ok () → 0 < total →
    heap.allocator.slabSize total ≤ heap.relocationBytes
  bounded : heap.relocationBytes ≤ 3 * total + heap.config.slabBytes
  exact : total ≤ heap.config.slabBytes →
    (∀ handle layout, heap.Kept handle → heap.layoutOf handle = .ok layout →
      layout.align = wordBytes) →
    heap.relocationBytes ≤ heap.allocator.slabSize total

/-- On a system that grants what the limit allows, a collection completes exactly if there is room
for the packing of the objects that are kept. -/
theorem Reachable.collectsWithin {heap : Heap} (reachable : heap.Reachable)
    (word : heap.config.maxHeapBytes < wordLimit)
    (granted : ∀ request size, size ≤ heap.config.maxHeapBytes →
      heap.allocator.system.grants request size = true) {kept : List Handle}
    (distinct : kept.Nodup) (listed : ∀ handle, handle ∈ kept ↔ heap.Kept handle) :
    heap.Headroom (kept.map heap.sizeAt).sum := by
  have sound := reachable.sound
  have fitted := reachable.fitted
  have same : kept.Perm heap.survivors :=
    (List.perm_ext_iff_of_nodup distinct sound.nodup_survivors).mpr fun handle => by
      rw [listed, sound.mem_survivors_iff]
  rw [(same.map heap.sizeAt).sum_nat, ← sound.liveBytes_mark]
  constructor
  · intro room
    obtain ⟨finish, ran, _⟩ := sound.completes_of_room fitted word granted room
    exact congrArg Prod.fst ran
  · intro bounded ran
    exact sound.relocationBytes_le (Prod.ext ran rfl) (reachable.provisioned bounded)
  · intro ran some
    exact sound.slabSize_le_relocationBytes (Prod.ext ran rfl) some
  · have slabs := (sound.frugal heap.mark.live.toList).bounds.2
    rw [← Marking.liveBytes_eq] at slabs
    rw [← fitted.granularity]
    exact slabs
  · intro fits aligned
    refine sound.relocationBytes_le_slabSize fitted ?_ fits aligned
    exact Nat.lt_of_le_of_lt (Config.slabBytes_le_of_validate reachable.settings.1) word

theorem granted_crowded (request size : Nat) (within : size ≤ crowded.config.maxHeapBytes) :
    crowded.allocator.system.grants request size = true := by
  have system : crowded.allocator.system = .spacious := rfl
  have limit : crowded.config.maxHeapBytes = 20480 := rfl
  rw [system]
  exact decide_eq_true (by omega)

/-- The objects of the crowded heap take 6168 bytes, for which the estimate is two slabs.  So many
are left, but packed the objects take three. -/
theorem collectsWithin_crowded :
    crowded.Reachable ∧ crowded.config.maxHeapBytes < wordLimit ∧
      (∀ request size, size ≤ crowded.config.maxHeapBytes →
        crowded.allocator.system.grants request size = true) ∧
      crowded.survivors.Nodup ∧ (∀ handle, handle ∈ crowded.survivors ↔ crowded.Kept handle) ∧
      crowded.survivors.length = 3 ∧ crowded.allocator.slabSize 6168 = 8192 ∧
      crowded.allocator.available = 8192 ∧ crowded.relocationBytes = 12288 ∧
      (crowded.survivors.map crowded.sizeAt).sum = 6168 ∧
      crowded.Headroom (crowded.survivors.map crowded.sizeAt).sum := by
  have sound := reachable_crowded.sound
  exact ⟨reachable_crowded, by decide +kernel, granted_crowded, sound.nodup_survivors,
    fun _ => sound.mem_survivors_iff, by decide +kernel, by decide +kernel, by decide +kernel,
    by decide +kernel, by decide +kernel,
    Reachable.collectsWithin reachable_crowded (by decide +kernel) granted_crowded
      sound.nodup_survivors fun _ => sound.mem_survivors_iff⟩

/-- The estimate is not enough: the crowded heap cannot collect. -/
theorem estimate_insufficient :
    ¬ ∀ heap : Heap, heap.Reachable →
      (∀ request size, size ≤ heap.config.maxHeapBytes →
        heap.allocator.system.grants request size = true) →
      ∀ kept : List Handle, kept.Nodup → (∀ handle, handle ∈ kept ↔ heap.Kept handle) →
        heap.allocator.slabSize (kept.map heap.sizeAt).sum ≤ heap.allocator.available →
        (collect.run heap).1 = .ok () := by
  intro claimed
  have sound := reachable_crowded.sound
  have collects := claimed crowded reachable_crowded granted_crowded crowded.survivors
    sound.nodup_survivors (fun _ => sound.mem_survivors_iff) (by decide +kernel)
  have fails : (collect.run crowded).1 = .error (.outOfMemory 4096 20480) := by decide +kernel
  rw [fails] at collects
  cases collects

end Heap

end CompactingHeap
