import CompactingHeap.Slab.Allocator
import Mathlib.Data.List.Perm.Basic

/-!
# The books of the slab allocator

The slabs that an allocator has handed out and not taken back are outstanding.  The books of the
allocator tally with them: the mapped bytes are those of the outstanding slabs and of the pool, each
acquired slab is outstanding or released, and no two outstanding slabs have the same serial number.
An acquisition adds its slab to the outstanding ones, a failed one adds nothing, and a release takes
its slab off, so what is available depends on the outstanding slabs alone.
-/

namespace CompactingHeap

/-- A mapped region has the size asked for, in whole pages. -/
theorem Region.map_eq_ok {system : MemorySystem} {request size : Nat} {region : Region}
    (mapped : Region.map system request size = .ok region) :
    region.length = size ∧ size % pageBytes = 0 := by
  unfold Region.map at mapped
  grind

/-- A slab consists of whole pages, ends below the end of a word, and is used up to its end at
most. -/
structure Slab.Shaped (slab : Slab) : Prop where
  pages : slab.capacity % pageBytes = 0
  word : slab.capacity < wordLimit
  top_le : slab.top ≤ slab.capacity

/-- The bytes of several slabs together. -/
def Slab.capacities : List Slab → Nat
  | [] => 0
  | slab :: rest => slab.capacity + capacities rest

/-- The order of the slabs does not matter to their bytes. -/
theorem Slab.capacities_perm {slabs reordered : List Slab} (same : slabs.Perm reordered) :
    capacities slabs = capacities reordered := by
  induction same with
  | nil => rfl
  | cons slab _ ih => simp only [capacities, ih]
  | swap first second rest => simp only [capacities, Nat.add_left_comm]
  | trans _ _ ihFirst ihSecond => exact ihFirst.trans ihSecond

theorem Slab.capacities_append (first second : List Slab) :
    capacities (first ++ second) = capacities first + capacities second := by
  induction first with
  | nil => exact (Nat.zero_add _).symm
  | cons slab rest ih => rw [List.cons_append, capacities, capacities, ih, Nat.add_assoc]

namespace SlabAllocator

/-- Two states of one allocator: the system and the bounds are the same. -/
structure Alike (first second : SlabAllocator) : Prop where
  system : first.system = second.system
  granularity : first.granularity = second.granularity
  limit : first.limit = second.limit
  poolLimit : first.poolLimit = second.poolLimit

theorem Alike.refl (allocator : SlabAllocator) : allocator.Alike allocator :=
  ⟨rfl, rfl, rfl, rfl⟩

theorem Alike.trans {first second third : SlabAllocator} (left : first.Alike second)
    (right : second.Alike third) : first.Alike third :=
  ⟨left.system.trans right.system, left.granularity.trans right.granularity,
    left.limit.trans right.limit, left.poolLimit.trans right.poolLimit⟩

/-- The books tally with the outstanding slabs. -/
structure Accounts (allocator : SlabAllocator) (outstanding : List Slab) : Prop where
  granular : 0 < allocator.granularity
  pages : allocator.granularity % pageBytes = 0
  pooled : ∀ region ∈ allocator.pool, region.length = allocator.granularity
  mapped : allocator.mapped =
    Slab.capacities outstanding + allocator.pool.length * allocator.granularity
  balance : allocator.acquired = allocator.released + outstanding.length
  earlier : ∀ slab ∈ outstanding, slab.serial < allocator.acquired
  distinct : (outstanding.map Slab.serial).Nodup

/-- An allocator that has mapped nothing has nothing outstanding. -/
theorem Accounts.new (system : MemorySystem) {granularity : Nat} (limit poolLimit : Nat)
    (granular : 0 < granularity) (pages : granularity % pageBytes = 0) :
    (new system granularity limit poolLimit).Accounts [] := by
  constructor <;> simp [SlabAllocator.new, Slab.capacities, granular, pages]

/-- What is available depends on the outstanding slabs alone. -/
theorem Accounts.available_eq {allocator : SlabAllocator} {outstanding : List Slab}
    (accounts : allocator.Accounts outstanding) :
    allocator.available = allocator.limit - Slab.capacities outstanding := by
  unfold available
  rw [accounts.mapped, Nat.add_sub_cancel]

/-- The order of the outstanding slabs does not matter. -/
theorem Accounts.perm {allocator : SlabAllocator} {outstanding reordered : List Slab}
    (accounts : allocator.Accounts outstanding) (same : outstanding.Perm reordered) :
    allocator.Accounts reordered where
  granular := accounts.granular
  pages := accounts.pages
  pooled := accounts.pooled
  mapped := by rw [accounts.mapped, Slab.capacities_perm same]
  balance := by rw [accounts.balance, same.length_eq]
  earlier slab member := accounts.earlier slab (same.mem_iff.mpr member)
  distinct := (same.map Slab.serial).nodup_iff.mp accounts.distinct

/-- Only the serial number and the capacity of an outstanding slab matter. -/
theorem Accounts.replace {allocator : SlabAllocator} {slab replacement : Slab} {rest : List Slab}
    (accounts : allocator.Accounts (slab :: rest)) (serial : replacement.serial = slab.serial)
    (capacity : replacement.capacity = slab.capacity) :
    allocator.Accounts (replacement :: rest) where
  granular := accounts.granular
  pages := accounts.pages
  pooled := accounts.pooled
  mapped := by simpa [Slab.capacities, capacity] using accounts.mapped
  balance := by simpa using accounts.balance
  earlier := by simpa [serial] using accounts.earlier
  distinct := by simpa [serial] using accounts.distinct

/-- Draining drops regions from the front of the pool and gives back just their bytes. -/
theorem drain_spec {granularity : Nat} (size limit mapped : Nat) {pool : List Region}
    (pooled : ∀ region ∈ pool, region.length = granularity)
    (covered : pool.length * granularity ≤ mapped) :
    ∃ dropped, pool = dropped ++ (drain size limit mapped pool).2 ∧
      mapped = (drain size limit mapped pool).1 + dropped.length * granularity := by
  induction pool generalizing mapped with
  | nil => exact ⟨[], rfl, by simp [drain]⟩
  | cons region rest ih =>
      unfold drain
      split
      · have length := pooled region List.mem_cons_self
        rw [List.length_cons, Nat.succ_mul] at covered
        rcases ih (mapped - region.length)
          (fun other member => pooled other (List.mem_cons_of_mem region member))
          (by omega) with ⟨dropped, split, balance⟩
        refine ⟨region :: dropped, congrArg (region :: ·) split, ?_⟩
        rw [List.length_cons, Nat.succ_mul]
        omega
      · exact ⟨[], rfl, by simp⟩

/-- Giving up pooled regions changes nothing that is outstanding. -/
theorem Accounts.makeRoom {allocator : SlabAllocator} {outstanding : List Slab}
    (accounts : allocator.Accounts outstanding) (size : Nat) :
    (allocator.makeRoom size).Accounts outstanding := by
  have covered : allocator.pool.length * allocator.granularity ≤ allocator.mapped := by
    rw [accounts.mapped]
    exact Nat.le_add_left _ _
  rcases drain_spec size allocator.limit allocator.mapped accounts.pooled covered with
    ⟨dropped, split, balance⟩
  have lengths := congrArg List.length split
  rw [List.length_append] at lengths
  constructor
  · exact accounts.granular
  · exact accounts.pages
  · intro region member
    apply accounts.pooled
    rw [split]
    exact List.mem_append_right dropped member
  · change (drain size allocator.limit allocator.mapped allocator.pool).1 =
      _ + (drain size allocator.limit allocator.mapped allocator.pool).2.length * _
    have mapped := accounts.mapped
    rw [lengths, Nat.add_mul] at mapped
    change _ = _ + _ * allocator.granularity
    omega
  · exact accounts.balance
  · exact accounts.earlier
  · exact accounts.distinct

/-- A slab new to its owner: empty, well shaped, and numbered next. -/
structure Issued (allocator : SlabAllocator) (minBytes : Nat) (slab : Slab) : Prop where
  shaped : slab.Shaped
  empty : slab.top = 0
  serial : slab.serial = allocator.acquired
  large : minBytes ≤ slab.capacity

/-- The books after a slab has been handed out, given what it adds to the mapped bytes. -/
theorem Accounts.issue {allocator next : SlabAllocator} {outstanding : List Slab} {slab : Slab}
    (accounts : allocator.Accounts outstanding) (serial : slab.serial = allocator.acquired)
    (granularity : next.granularity = allocator.granularity)
    (pooled : ∀ region ∈ next.pool, region ∈ allocator.pool)
    (mapped : next.mapped = slab.capacity + Slab.capacities outstanding +
      next.pool.length * next.granularity)
    (acquired : next.acquired = allocator.acquired + 1)
    (released : next.released = allocator.released) : next.Accounts (slab :: outstanding) where
  granular := granularity ▸ accounts.granular
  pages := granularity ▸ accounts.pages
  pooled region member := granularity ▸ accounts.pooled region (pooled region member)
  mapped := by
    rw [mapped, Slab.capacities]
  balance := by
    rw [acquired, released, accounts.balance, List.length_cons]
    omega
  earlier := by
    intro other member
    rw [acquired]
    rcases List.mem_cons.mp member with rfl | member
    · omega
    · exact Nat.lt_succ_of_lt (accounts.earlier other member)
  distinct := by
    rw [List.map_cons, List.nodup_cons]
    refine ⟨?_, accounts.distinct⟩
    rw [List.mem_map]
    rintro ⟨other, member, same⟩
    have before := accounts.earlier other member
    omega

/-- The size of a slab holds the request, as long as the slab can be mapped at all. -/
theorem le_slabSize {allocator : SlabAllocator} {minBytes : Nat}
    (granular : 0 < allocator.granularity) (small : minBytes < wordLimit) :
    minBytes ≤ allocator.slabSize minBytes := by
  have rounded := Nat.lt_div_mul_add granular (a := max minBytes 1 + (allocator.granularity - 1))
  simp only [slabSize, saturatingMul, maxWord]
  omega

/-- The size of a slab is a machine word. -/
theorem slabSize_lt (allocator : SlabAllocator) (minBytes : Nat) :
    allocator.slabSize minBytes < wordLimit := by
  simp only [slabSize, saturatingMul, maxWord, wordLimit]
  omega

/-- A mapping that succeeds issues a slab of the size asked for. -/
theorem Accounts.mapSlab_ok {allocator next : SlabAllocator} {outstanding : List Slab}
    {size : Nat} {slab : Slab} (accounts : allocator.Accounts outstanding)
    (word : size < wordLimit) (issued : allocator.mapSlab size = (.ok slab, next)) :
    next.Accounts (slab :: outstanding) ∧ allocator.Issued size slab ∧ next.Alike allocator := by
  have roomy := accounts.makeRoom size
  unfold mapSlab at issued
  dsimp only at issued
  split at issued
  · cases issued
  · split at issued
    · cases issued
    · next region mapping =>
      cases issued
      obtain ⟨length, pages⟩ := Region.map_eq_ok mapping
      refine ⟨?_, ?_, rfl, rfl, rfl, rfl⟩
      · refine roomy.issue rfl rfl (fun _ member => member) ?_ rfl rfl
        change (allocator.makeRoom size).mapped + size = region.length + _ + _
        rw [roomy.mapped, length]
        change _ = _ + (allocator.makeRoom size).pool.length * (allocator.makeRoom size).granularity
        omega
      · refine ⟨⟨?_, ?_, Nat.zero_le _⟩, rfl, rfl, ?_⟩
        · change region.length % pageBytes = 0
          rw [length, pages]
        · change region.length < wordLimit
          rwa [length]
        · exact Nat.le_of_eq length.symm

/-- A mapping that fails leaves the outstanding slabs alone. -/
theorem Accounts.mapSlab_error {allocator next : SlabAllocator} {outstanding : List Slab}
    {size : Nat} {error : HeapError} (accounts : allocator.Accounts outstanding)
    (failed : allocator.mapSlab size = (.error error, next)) :
    next.Accounts outstanding ∧ error = .outOfMemory size allocator.limit ∧
      next.Alike allocator := by
  have roomy := accounts.makeRoom size
  unfold mapSlab at failed
  dsimp only at failed
  split at failed
  · cases failed
    exact ⟨roomy, rfl, rfl, rfl, rfl, rfl⟩
  · split at failed
    · cases failed
      refine ⟨?_, rfl, rfl, rfl, rfl, rfl⟩
      exact ⟨roomy.granular, roomy.pages, roomy.pooled, roomy.mapped, roomy.balance, roomy.earlier,
        roomy.distinct⟩
    · cases failed

/-- An acquisition that succeeds issues a slab for the bytes asked for. -/
theorem Accounts.acquire_ok {allocator next : SlabAllocator} {outstanding : List Slab}
    {minBytes : Nat} {slab : Slab} (accounts : allocator.Accounts outstanding)
    (small : minBytes < wordLimit) (issued : allocator.acquire minBytes = (.ok slab, next)) :
    next.Accounts (slab :: outstanding) ∧ allocator.Issued minBytes slab ∧
      next.Alike allocator := by
  have large := le_slabSize accounts.granular small
  have word := slabSize_lt allocator minBytes
  have fromSystem (mapping : allocator.mapSlab (allocator.slabSize minBytes) = (.ok slab, next)) :
      next.Accounts (slab :: outstanding) ∧ allocator.Issued minBytes slab ∧
        next.Alike allocator := by
    obtain ⟨books, fresh, alike⟩ := accounts.mapSlab_ok word mapping
    exact ⟨books, ⟨fresh.shaped, fresh.empty, fresh.serial, Nat.le_trans large fresh.large⟩, alike⟩
  unfold acquire at issued
  dsimp only at issued
  split at issued
  · next region rest pool =>
    split at issued
    · next regular =>
      cases issued
      have length : region.length = allocator.granularity :=
        accounts.pooled region (pool ▸ List.mem_cons_self)
      have tally := accounts.mapped
      rw [pool, List.length_cons, Nat.succ_mul] at tally
      refine ⟨?_, ⟨⟨?_, ?_, Nat.zero_le _⟩, rfl, rfl, ?_⟩, rfl, rfl, rfl, rfl⟩
      · refine accounts.issue rfl rfl ?_ ?_ rfl rfl
        · intro other member
          exact pool ▸ List.mem_cons_of_mem region member
        · change allocator.mapped = region.length + _ + rest.length * allocator.granularity
          omega
      · change region.length % pageBytes = 0
        rw [length, accounts.pages]
      · change region.length < wordLimit
        rwa [length, ← regular]
      · change minBytes ≤ region.length
        rwa [length, ← regular]
    · exact fromSystem issued
  · exact fromSystem issued

/-- An acquisition fails for lack of memory only, and leaves the outstanding slabs alone. -/
theorem Accounts.acquire_error {allocator next : SlabAllocator} {outstanding : List Slab}
    {minBytes : Nat} {error : HeapError} (accounts : allocator.Accounts outstanding)
    (failed : allocator.acquire minBytes = (.error error, next)) :
    next.Accounts outstanding ∧
      error = .outOfMemory (allocator.slabSize minBytes) allocator.limit ∧
      next.Alike allocator := by
  unfold acquire at failed
  dsimp only at failed
  split at failed
  · split at failed
    · cases failed
    · exact accounts.mapSlab_error failed
  · exact accounts.mapSlab_error failed

/-- A release takes the slab off the outstanding ones. -/
theorem Accounts.release {allocator : SlabAllocator} {slab : Slab} {rest : List Slab}
    (accounts : allocator.Accounts (slab :: rest)) :
    (allocator.release slab).Accounts rest ∧ (allocator.release slab).Alike allocator := by
  have tally := accounts.mapped
  have balance := accounts.balance
  have distinct := accounts.distinct
  rw [Slab.capacities] at tally
  rw [List.length_cons] at balance
  rw [List.map_cons, List.nodup_cons] at distinct
  have earlier : ∀ other ∈ rest, other.serial < allocator.acquired :=
    fun other member => accounts.earlier other (List.mem_cons_of_mem slab member)
  unfold SlabAllocator.release
  dsimp only
  split
  · next regular =>
    simp only [Bool.and_eq_true, decide_eq_true_eq] at regular
    refine
      ⟨⟨accounts.granular, accounts.pages, ?_, ?_, ?_, earlier, distinct.2⟩, rfl, rfl, rfl, rfl⟩
    · intro region member
      rcases List.mem_cons.mp member with rfl | member
      · exact regular.1.1
      · exact accounts.pooled region member
    · rw [List.length_cons, Nat.succ_mul]
      change allocator.mapped = _ +
        (allocator.pool.length * allocator.granularity + allocator.granularity)
      omega
    · change allocator.acquired = allocator.released + 1 + rest.length
      omega
  · refine ⟨⟨accounts.granular, accounts.pages, accounts.pooled, ?_, ?_, earlier, distinct.2⟩,
      rfl, rfl, rfl, rfl⟩
    · change allocator.mapped - slab.capacity = _ + allocator.pool.length * allocator.granularity
      omega
    · change allocator.acquired = allocator.released + 1 + rest.length
      omega

/-- Releases take the slabs off the outstanding ones. -/
theorem Accounts.releaseAll {allocator : SlabAllocator} {slabs rest : List Slab}
    (accounts : allocator.Accounts (slabs ++ rest)) :
    (allocator.releaseAll slabs).Accounts rest ∧ (allocator.releaseAll slabs).Alike allocator := by
  induction slabs generalizing allocator with
  | nil => exact ⟨accounts, Alike.refl allocator⟩
  | cons slab slabs ih =>
      obtain ⟨books, alike⟩ := accounts.release
      obtain ⟨rest, later⟩ := ih books
      exact ⟨rest, later.trans alike⟩

end SlabAllocator

end CompactingHeap
