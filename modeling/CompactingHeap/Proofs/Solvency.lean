import CompactingHeap.Proofs.Accounts
import Mathlib.Order.Bounds.Basic

/-!
# What an allocator can hand out

An allocator is solvent if it has mapped no more than its limit allows, and its pool is no larger
than it may be and reads as zero.  Acquisitions and releases keep it solvent.  Since the pool is
given up before a request fails, a request succeeds exactly if the slab for it fits into what is
available, unless the system refuses the memory.
-/

namespace CompactingHeap

namespace SlabAllocator

/-! ## The size of a slab -/

/-- The size of a slab is the least multiple of the granularity that is at least one and at least
the request, clamped to a word. -/
theorem slabSize_eq {allocator : SlabAllocator} (granular : 0 < allocator.granularity)
    (minBytes : Nat) :
    ∃ size, IsLeast { size | allocator.granularity ∣ size ∧ max minBytes 1 ≤ size } size ∧
      allocator.slabSize minBytes = min size maxWord := by
  let slabs := (max minBytes 1 + (allocator.granularity - 1)) / allocator.granularity
  refine ⟨slabs * allocator.granularity, ⟨⟨Nat.dvd_mul_left _ _, ?_⟩, ?_⟩, rfl⟩
  · have rounded := Nat.lt_div_mul_add granular (a := max minBytes 1 + (allocator.granularity - 1))
    change _ < slabs * allocator.granularity + _ at rounded
    omega
  · rintro size ⟨⟨count, rfl⟩, large⟩
    rw [Nat.mul_comm]
    apply Nat.mul_le_mul_left
    apply Nat.le_of_lt_succ
    rw [Nat.div_lt_iff_lt_mul granular, Nat.succ_mul, Nat.mul_comm]
    omega

/-- A slab that is not clamped consists of whole pages, at least one. -/
theorem slabSize_pages {allocator : SlabAllocator} (granular : 0 < allocator.granularity)
    (pages : allocator.granularity % pageBytes = 0) {minBytes : Nat}
    (small : allocator.slabSize minBytes < maxWord) :
    0 < allocator.slabSize minBytes ∧ allocator.slabSize minBytes % pageBytes = 0 := by
  obtain ⟨size, ⟨⟨multiple, large⟩, _⟩, same⟩ := slabSize_eq granular minBytes
  have exact : allocator.slabSize minBytes = size := by omega
  rw [exact]
  refine ⟨by omega, ?_⟩
  exact Nat.mod_eq_zero_of_dvd (Nat.dvd_trans (Nat.dvd_of_mod_eq_zero pages) multiple)

/-- No slab is empty. -/
theorem slabSize_pos {allocator : SlabAllocator} (granular : 0 < allocator.granularity)
    (minBytes : Nat) : 0 < allocator.slabSize minBytes := by
  obtain ⟨size, ⟨⟨_, large⟩, _⟩, same⟩ := slabSize_eq granular minBytes
  have word : 0 < maxWord := by decide
  omega

/-- The size of the slab depends on the granularity alone. -/
theorem Alike.slabSize {first second : SlabAllocator} (alike : first.Alike second)
    (minBytes : Nat) :
    first.slabSize minBytes = second.slabSize minBytes := by
  unfold SlabAllocator.slabSize
  rw [alike.granularity]

/-! ## Solvency -/

/-- The allocator keeps its bounds, and the pool reads as zero. -/
structure Solvent (allocator : SlabAllocator) : Prop where
  bounded : allocator.limit < 2 ^ 63
  within : allocator.mapped ≤ allocator.limit
  pooled : allocator.pool.length ≤ allocator.poolLimit
  blank : ∀ region ∈ allocator.pool, ∀ offset, region.byteAt offset = 0

theorem Solvent.new (system : MemorySystem) (granularity : Nat) {limit : Nat} (poolLimit : Nat)
    (bounded : limit < 2 ^ 63) : (new system granularity limit poolLimit).Solvent where
  bounded := bounded
  within := Nat.zero_le limit
  pooled := Nat.zero_le poolLimit
  blank _ member := absurd member List.not_mem_nil

/-- Draining leaves a later part of the pool and no more bytes than before. -/
theorem drain_suffix (size limit mapped : Nat) (pool : List Region) :
    (drain size limit mapped pool).2 <:+ pool ∧ (drain size limit mapped pool).1 ≤ mapped := by
  induction pool generalizing mapped with
  | nil => exact ⟨List.suffix_refl _, Nat.le_refl _⟩
  | cons region rest ih =>
      unfold drain
      split
      · obtain ⟨suffix, less⟩ := ih (mapped - region.length)
        exact ⟨suffix.trans (List.suffix_cons region rest), Nat.le_trans less (Nat.sub_le _ _)⟩
      · exact ⟨List.suffix_refl _, Nat.le_refl _⟩

/-- Draining ends where the request fits or the pool is empty. -/
theorem drain_ends (size limit mapped : Nat) (pool : List Region) :
    saturatingAdd (drain size limit mapped pool).1 size ≤ limit ∨
      (drain size limit mapped pool).2 = [] := by
  induction pool generalizing mapped with
  | nil => exact Or.inr rfl
  | cons region rest ih =>
      unfold drain
      split
      · exact ih (mapped - region.length)
      · next fits => exact Or.inl (Nat.le_of_not_lt fits)

theorem Solvent.makeRoom {allocator : SlabAllocator} (solvent : allocator.Solvent) (size : Nat) :
    (allocator.makeRoom size).Solvent := by
  obtain ⟨suffix, less⟩ := drain_suffix size allocator.limit allocator.mapped allocator.pool
  exact ⟨solvent.bounded, Nat.le_trans less solvent.within,
    Nat.le_trans suffix.length_le solvent.pooled,
    fun region member => solvent.blank region (suffix.subset member)⟩

/-- What an acquisition does: a slab of the size for the request is handed out, empty and zero, or
nothing is. -/
inductive Acquires (allocator : SlabAllocator) (minBytes : Nat) :
    Except HeapError Slab × SlabAllocator → Prop
  | issued {slab : Slab} {next : SlabAllocator} :
      next.Solvent → slab.capacity = allocator.slabSize minBytes → slab.top = 0 →
        (∀ offset, slab.region.byteAt offset = 0) →
        Acquires allocator minBytes (.ok slab, next)
  | refused {next : SlabAllocator} : next.Solvent →
      Acquires allocator minBytes
        (.error (.outOfMemory (allocator.slabSize minBytes) allocator.limit), next)

/-- A region that has just been mapped reads as zero. -/
theorem byteAt_of_map {system : MemorySystem} {request size : Nat} {region : Region}
    (mapped : Region.map system request size = .ok region) (offset : Nat) :
    region.byteAt offset = 0 := by
  unfold Region.map at mapped
  split at mapped
  · cases mapped
  · split at mapped
    · cases mapped
      rfl
    · cases mapped

theorem Solvent.mapSlab {allocator : SlabAllocator} (solvent : allocator.Solvent) {minBytes : Nat} :
    allocator.Acquires minBytes (allocator.mapSlab (allocator.slabSize minBytes)) := by
  have roomy := solvent.makeRoom (allocator.slabSize minBytes)
  have bounded := roomy.bounded
  unfold SlabAllocator.mapSlab
  dsimp only
  split
  · exact Acquires.refused roomy
  · next fits =>
    rw [Nat.not_lt, saturatingAdd_le_iff (by simp only [maxWord, wordLimit]; omega)] at fits
    split
    · exact Acquires.refused ⟨roomy.bounded, roomy.within, roomy.pooled, roomy.blank⟩
    · next region mapping =>
      exact Acquires.issued ⟨roomy.bounded, fits, roomy.pooled, roomy.blank⟩
        (Region.map_eq_ok mapping).1 rfl (byteAt_of_map mapping)

theorem Solvent.acquire {allocator : SlabAllocator} {outstanding : List Slab}
    (solvent : allocator.Solvent) (accounts : allocator.Accounts outstanding) (minBytes : Nat) :
    allocator.Acquires minBytes (allocator.acquire minBytes) := by
  have pooled := solvent.pooled
  unfold SlabAllocator.acquire
  dsimp only
  split
  · next region rest pool =>
    split
    · next regular =>
      have member : region ∈ allocator.pool := pool ▸ List.mem_cons_self
      rw [pool, List.length_cons] at pooled
      refine Acquires.issued ⟨solvent.bounded, solvent.within, Nat.le_of_succ_le pooled, ?_⟩
        ((accounts.pooled region member).trans regular.symm) rfl (solvent.blank region member)
      intro other rested
      exact solvent.blank other (pool ▸ List.mem_cons_of_mem region rested)
    · exact solvent.mapSlab
  · exact solvent.mapSlab

theorem Solvent.release {allocator : SlabAllocator} (solvent : allocator.Solvent) (slab : Slab) :
    (allocator.release slab).Solvent := by
  unfold SlabAllocator.release
  dsimp only
  split
  · next regular =>
    simp only [Bool.and_eq_true, decide_eq_true_eq] at regular
    refine ⟨solvent.bounded, solvent.within, regular.1.2, ?_⟩
    intro region member offset
    rcases List.mem_cons.mp member with rfl | member
    · exact Region.byteAt_discard _ offset
    · exact solvent.blank region member offset
  · exact ⟨solvent.bounded, Nat.le_trans (Nat.sub_le _ _) solvent.within, solvent.pooled,
      solvent.blank⟩

/-! ## When a slab can be acquired -/

/-- A mapping of `size` bytes fits into what is available, and the latest request for it has
failed. -/
structure Denied (allocator : SlabAllocator) (size : Nat) : Prop where
  fits : size ≤ allocator.available
  refused : ∃ request failure, allocator.requests = request + 1 ∧
    Region.map allocator.system request size = .error failure

section

variable {allocator next : SlabAllocator} {outstanding : List Slab}
  (accounts : allocator.Accounts outstanding) {minBytes : Nat}
include accounts

/-- A slab that has been handed out has the size for the request. -/
theorem Accounts.capacity_of_ok {slab : Slab}
    (issued : allocator.acquire minBytes = (.ok slab, next)) :
    slab.capacity = allocator.slabSize minBytes := by
  have ofMap (mapped : allocator.mapSlab (allocator.slabSize minBytes) = (.ok slab, next)) :
      slab.capacity = allocator.slabSize minBytes := by
    unfold SlabAllocator.mapSlab at mapped
    dsimp only at mapped
    split at mapped
    · cases mapped
    · split at mapped
      · cases mapped
      · next region mapping =>
        cases mapped
        exact (Region.map_eq_ok mapping).1
  unfold SlabAllocator.acquire at issued
  dsimp only at issued
  split at issued
  · next region rest pool =>
    split at issued
    · next regular =>
      cases issued
      exact (accounts.pooled region (pool ▸ List.mem_cons_self)).trans regular.symm
    · exact ofMap issued
  · exact ofMap issued

/-- A slab takes its size from what is available. -/
theorem Accounts.available_of_ok {slab : Slab} (small : minBytes < wordLimit)
    (issued : allocator.acquire minBytes = (.ok slab, next)) :
    next.available = allocator.available - allocator.slabSize minBytes := by
  obtain ⟨books, _, alike⟩ := accounts.acquire_ok small issued
  rw [books.available_eq, accounts.available_eq, Slab.capacities, accounts.capacity_of_ok issued,
    alike.limit]
  omega

/-- A refusal leaves what is available as it was. -/
theorem Accounts.available_of_error {error : HeapError}
    (failed : allocator.acquire minBytes = (.error error, next)) :
    next.available = allocator.available := by
  obtain ⟨books, _, alike⟩ := accounts.acquire_error failed
  rw [books.available_eq, accounts.available_eq, alike.limit]

/-- Once the pool has been given up as far as needed, a request that is over the limit exceeds what
is available. -/
theorem Accounts.available_lt_of_over {size : Nat} (positive : 0 < size)
    (beyond : (allocator.makeRoom size).limit <
      saturatingAdd (allocator.makeRoom size).mapped size) : allocator.available < size := by
  have mapped := (accounts.makeRoom size).mapped
  have less : saturatingAdd (allocator.makeRoom size).mapped size ≤
      (allocator.makeRoom size).mapped + size := Nat.min_le_left _ _
  have same : (allocator.makeRoom size).limit = allocator.limit := rfl
  rw [accounts.available_eq]
  rcases drain_ends size allocator.limit allocator.mapped allocator.pool with fits | drained
  · exact absurd beyond (Nat.not_lt.mpr fits)
  · have emptied : (allocator.makeRoom size).pool = [] := drained
    rw [emptied, List.length_nil, Nat.zero_mul] at mapped
    omega

/-- A request fails because its slab exceeds what is available, or because the system refuses it. -/
theorem Accounts.denied_of_error {error : HeapError}
    (failed : allocator.acquire minBytes = (.error error, next)) :
    next.available < allocator.slabSize minBytes ∨ next.Denied (allocator.slabSize minBytes) := by
  have same := accounts.available_of_error failed
  have ofMap (mapped : allocator.mapSlab (allocator.slabSize minBytes) = (.error error, next)) :
      next.available < allocator.slabSize minBytes ∨
        next.Denied (allocator.slabSize minBytes) := by
    by_cases fits : allocator.slabSize minBytes ≤ next.available
    · unfold SlabAllocator.mapSlab at mapped
      dsimp only at mapped
      split at mapped
      · next beyond =>
        have less := accounts.available_lt_of_over (slabSize_pos accounts.granular minBytes) beyond
        omega
      · split at mapped
        · next failure mapping =>
          cases mapped
          exact Or.inr ⟨fits, _, failure, rfl, mapping⟩
        · cases mapped
    · exact Or.inl (Nat.lt_of_not_le fits)
  unfold SlabAllocator.acquire at failed
  dsimp only at failed
  split at failed
  · split at failed
    · cases failed
    · exact ofMap failed
  · exact ofMap failed

end

section

variable {allocator : SlabAllocator} {outstanding : List Slab}
  (accounts : allocator.Accounts outstanding) (solvent : allocator.Solvent) {minBytes : Nat}
include accounts solvent

/-- What is not outstanding is available. -/
theorem Accounts.available_add :
    allocator.available + Slab.capacities outstanding = allocator.limit := by
  have mapped := accounts.mapped
  have within := solvent.within
  rw [accounts.available_eq]
  omega

/-- A slab that is handed out fits into what is available. -/
theorem Accounts.le_available {next : SlabAllocator} {slab : Slab} (small : minBytes < wordLimit)
    (issued : allocator.acquire minBytes = (.ok slab, next)) :
    allocator.slabSize minBytes ≤ allocator.available := by
  obtain ⟨books, _, alike⟩ := accounts.acquire_ok small issued
  have acquires := solvent.acquire accounts minBytes
  rw [issued] at acquires
  cases acquires with
  | issued after capacity _ _ =>
      have total := accounts.available_add solvent
      have totalAfter := books.available_add after
      rw [alike.limit, Slab.capacities, capacity] at totalAfter
      omega

/-- A slab that fits into what is available can be acquired, unless the system refuses it. -/
theorem Accounts.acquire_small (fits : allocator.slabSize minBytes ≤ allocator.available)
    (granted : allocator.system.grants allocator.requests (allocator.slabSize minBytes) = true) :
    ∃ slab next, allocator.acquire minBytes = (.ok slab, next) := by
  have bounded := solvent.bounded
  have total := accounts.available_add solvent
  have room := mt (accounts.available_lt_of_over (slabSize_pos accounts.granular minBytes))
    (Nat.not_lt.mpr fits)
  have unclamped : allocator.slabSize minBytes < maxWord := by
    simp only [maxWord, wordLimit]
    omega
  obtain ⟨positive, pages⟩ := slabSize_pages accounts.granular accounts.pages unclamped
  have mapped :
      ∃ slab next, allocator.mapSlab (allocator.slabSize minBytes) = (.ok slab, next) := by
    unfold SlabAllocator.mapSlab Region.map
    dsimp only
    rw [if_neg room, if_neg (by simp [pages, positive.ne'])]
    have same : (allocator.makeRoom (allocator.slabSize minBytes)).system.grants
        (allocator.makeRoom (allocator.slabSize minBytes)).requests
        (allocator.slabSize minBytes) = true := granted
    rw [if_pos same]
    exact ⟨_, _, rfl⟩
  unfold SlabAllocator.acquire
  dsimp only
  split
  · split
    · exact ⟨_, _, rfl⟩
    · exact mapped
  · exact mapped

end

/-! ## Runs of an allocator -/

/-- The states that a sequence of acquisitions and releases leads to, with the slabs that are
outstanding.  An outstanding slab may be used and written in any way, and may be released once. -/
inductive Run (granularity limit poolLimit : Nat) : SlabAllocator → List Slab → Prop
  | new (system : MemorySystem) :
      Run granularity limit poolLimit (new system granularity limit poolLimit) []
  | acquired {allocator next : SlabAllocator} {outstanding : List Slab} {minBytes : Nat}
      {slab : Slab} : Run granularity limit poolLimit allocator outstanding →
      minBytes < wordLimit → allocator.acquire minBytes = (.ok slab, next) →
      Run granularity limit poolLimit next (slab :: outstanding)
  | refused {allocator next : SlabAllocator} {outstanding : List Slab} {minBytes : Nat}
      {error : HeapError} : Run granularity limit poolLimit allocator outstanding →
      minBytes < wordLimit → allocator.acquire minBytes = (.error error, next) →
      Run granularity limit poolLimit next outstanding
  | used {allocator : SlabAllocator} {before after : List Slab} {slab used : Slab} :
      Run granularity limit poolLimit allocator (before ++ slab :: after) →
      used.serial = slab.serial → used.capacity = slab.capacity →
      Run granularity limit poolLimit allocator (before ++ used :: after)
  | released {allocator : SlabAllocator} {before after : List Slab} {slab : Slab} :
      Run granularity limit poolLimit allocator (before ++ slab :: after) →
      Run granularity limit poolLimit (allocator.release slab) (before ++ after)

/-- What becomes of a request.  A slab has the size for the request, is empty and reads as zero,
and takes its size from what is available; a refusal leaves what is available as it was. -/
inductive Serves (allocator : SlabAllocator) (minBytes : Nat) :
    Except HeapError Slab × SlabAllocator → Prop
  | issued {slab : Slab} {next : SlabAllocator} :
      slab.capacity = allocator.slabSize minBytes → slab.used = 0 →
        (∀ offset < slab.capacity, slab.region.byteAt offset = 0) →
        next.available + slab.capacity = allocator.available →
        Serves allocator minBytes (.ok slab, next)
  | refused {next : SlabAllocator} : next.available = allocator.available →
      Serves allocator minBytes
        (.error (.outOfMemory (allocator.slabSize minBytes) allocator.limit), next)

/-- The books of an allocator balance: what is mapped is outstanding or pooled and within the
limit, and a request is served exactly if its slab fits into what is available, unless the system
refuses it. -/
structure Balances (allocator : SlabAllocator) (granularity limit poolLimit : Nat)
    (outstanding : List Slab) : Prop where
  mapped : allocator.mapped =
    Slab.capacities outstanding + allocator.pool.length * granularity
  within : allocator.mapped ≤ limit
  pooled : allocator.pool.length ≤ poolLimit
  handedOut : allocator.acquired = allocator.released + outstanding.length
  available : allocator.available + Slab.capacities outstanding = limit
  slabSize : ∀ minBytes, ∃ size,
    IsLeast { size | granularity ∣ size ∧ max minBytes 1 ≤ size } size ∧
      allocator.slabSize minBytes = min size maxWord
  serves : ∀ minBytes < wordLimit, Serves allocator minBytes (allocator.acquire minBytes)
  succeeds : ∀ minBytes < wordLimit,
    allocator.system.grants allocator.requests (allocator.slabSize minBytes) = true →
      ((∃ slab, (allocator.acquire minBytes).1 = .ok slab) ↔
        allocator.slabSize minBytes ≤ allocator.available)

section

variable {granularity limit poolLimit : Nat} {allocator : SlabAllocator} {outstanding : List Slab}

/-- Throughout a run the books tally with the outstanding slabs, and the allocator is solvent. -/
theorem Run.accounts (run : Run granularity limit poolLimit allocator outstanding)
    (granular : 0 < granularity) (pages : granularity % pageBytes = 0) (bounded : limit < 2 ^ 63) :
    allocator.Accounts outstanding ∧ allocator.Solvent ∧ allocator.granularity = granularity ∧
      allocator.limit = limit ∧ allocator.poolLimit = poolLimit := by
  induction run with
  | new system =>
      exact ⟨Accounts.new system limit poolLimit granular pages,
        Solvent.new system granularity poolLimit bounded, rfl, rfl, rfl⟩
  | @acquired allocator next outstanding minBytes slab _ small ran ih =>
      obtain ⟨accounts, solvent, granules, limits, pools⟩ := ih
      obtain ⟨books, _, alike⟩ := accounts.acquire_ok small ran
      have acquires := solvent.acquire accounts minBytes
      rw [ran] at acquires
      cases acquires with
      | issued after _ _ _ =>
          exact ⟨books, after, alike.granularity.trans granules, alike.limit.trans limits,
            alike.poolLimit.trans pools⟩
  | @refused allocator next outstanding minBytes error _ _ ran ih =>
      obtain ⟨accounts, solvent, granules, limits, pools⟩ := ih
      obtain ⟨books, _, alike⟩ := accounts.acquire_error ran
      have acquires := solvent.acquire accounts minBytes
      rw [ran] at acquires
      cases acquires with
      | refused after =>
          exact ⟨books, after, alike.granularity.trans granules, alike.limit.trans limits,
            alike.poolLimit.trans pools⟩
  | used _ serial capacity ih =>
      obtain ⟨accounts, rest⟩ := ih
      have front := (accounts.perm List.perm_middle).replace serial capacity
      exact ⟨front.perm List.perm_middle.symm, rest⟩
  | released _ ih =>
      obtain ⟨accounts, solvent, granules, limits, pools⟩ := ih
      obtain ⟨books, alike⟩ := (accounts.perm List.perm_middle).release
      exact ⟨books, solvent.release _, alike.granularity.trans granules, alike.limit.trans limits,
        alike.poolLimit.trans pools⟩

/-- The books of an allocator balance throughout every run. -/
theorem Run.balances (run : Run granularity limit poolLimit allocator outstanding)
    (granular : 0 < granularity) (pages : granularity % pageBytes = 0) (bounded : limit < 2 ^ 63) :
    allocator.Balances granularity limit poolLimit outstanding := by
  obtain ⟨accounts, solvent, rfl, rfl, rfl⟩ := run.accounts granular pages bounded
  refine ⟨accounts.mapped, solvent.within, solvent.pooled, accounts.balance,
    accounts.available_add solvent, slabSize_eq accounts.granular, ?_, ?_⟩
  · intro minBytes small
    have acquires := solvent.acquire accounts minBytes
    rcases ran : allocator.acquire minBytes with ⟨error | slab, next⟩
    · rw [ran] at acquires
      cases acquires with
      | refused _ => exact Serves.refused (accounts.available_of_error ran)
    · have fits := accounts.le_available solvent small ran
      have taken := accounts.available_of_ok small ran
      rw [ran] at acquires
      cases acquires with
      | issued _ capacity top zero =>
          exact Serves.issued capacity top (fun offset _ => zero offset) (by omega)
  · intro minBytes small granted
    constructor
    · rintro ⟨slab, issued⟩
      rcases ran : allocator.acquire minBytes with ⟨result, next⟩
      rw [ran] at issued
      subst issued
      exact accounts.le_available solvent small ran
    · intro fits
      obtain ⟨slab, next, ran⟩ := accounts.acquire_small solvent fits granted
      exact ⟨slab, congrArg Prod.fst ran⟩

end

/-- An allocator of two pages, one of which is pooled: the page has been acquired, written and
released again. -/
def pooling : SlabAllocator :=
  match (new .spacious pageBytes (2 * pageBytes) 1).acquire 1 with
  | (.ok slab, next) => next.release { slab with region := slab.region.fill 0xab }
  | (.error _, next) => next

/-- The pooled page reads as zero again, and a request for both pages gives it up. -/
theorem balances_pooling :
    0 < pageBytes ∧ pageBytes % pageBytes = 0 ∧ 2 * pageBytes < 2 ^ 63 ∧
      pooling.pool.length = 1 ∧ (pooling.acquire (pageBytes + 1)).1.isOk = true ∧
      pooling.Balances pageBytes (2 * pageBytes) 1 [] := by
  have granular : 0 < pageBytes := by decide
  have pages : pageBytes % pageBytes = 0 := by decide
  have bounded : 2 * pageBytes < 2 ^ 63 := by decide
  refine ⟨granular, pages, bounded, by decide +kernel, by decide +kernel, ?_⟩
  have started : Run pageBytes (2 * pageBytes) 1 (new .spacious pageBytes (2 * pageBytes) 1) [] :=
    Run.new .spacious
  have small : 1 < wordLimit := by decide
  have acquired := started.acquired small rfl
  have written := @Run.used _ _ _ _ [] [] ⟨0, ⟨pageBytes, 0, []⟩, 0⟩ ⟨0, ⟨pageBytes, 0xab, []⟩, 0⟩
    acquired rfl rfl
  have released := @Run.released _ _ _ _ [] [] ⟨0, ⟨pageBytes, 0xab, []⟩, 0⟩ written
  exact released.balances granular pages bounded

end SlabAllocator

end CompactingHeap
