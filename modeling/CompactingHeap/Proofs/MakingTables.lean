import CompactingHeap.Proofs.OwnedTables

/-!
# Making tables

To make a table takes the allocation of its object and the making of its bucket array, during which
the table is held.  A new table has no entries, and all its buckets are vacant.
-/

namespace CompactingHeap

open Heap RefTable

namespace RefTable

/-- Bins without entries. -/
def Bins.vacant (power : Nat) (array : RefArray) (backing : Handle) : Bins :=
  ⟨power, fun _ => none, array, backing⟩

theorem Bins.entries_vacant (power : Nat) (array : RefArray) (backing : Handle) :
    (Bins.vacant power array backing).entries = [] := by
  apply List.eq_nil_iff_forall_not_mem.mpr
  intro entry member
  obtain ⟨_, _, taken⟩ := Bins.mem_entries.mp member
  cases taken

theorem Bins.cells_vacant (power : Nat) (array : RefArray) (backing : Handle) :
    (Bins.vacant power array backing).cells = List.replicate (2 * 2 ^ power) none := by
  apply List.eq_replicate_iff.mpr
  refine ⟨Bins.length_cells _, ?_⟩
  intro cell member
  obtain ⟨index, _, rfl⟩ := List.mem_map.mp member
  rfl

/-- A new table gets its bucket array, if nothing on the way fails. -/
theorem run_furnish {table : RefTable} {capacity : Nat} {array : RefArray}
    {heap first second next : Heap}
    (wrote : (writeWord table.handle capacityOffset capacity.toUInt64).run heap = (.ok ⟨⟩, first))
    (stored : (writeRef table.handle bucketsOffset (some array.handle)).run first =
      (.ok ⟨⟩, second))
    (released : (release array.handle).run second = (.ok (), next)) :
    (table.furnish capacity array).run heap = (.ok table, next) := by
  unfold furnish
  rw [HeapM.run_bind, wrote]
  dsimp only
  rw [HeapM.run_bind, stored]
  dsimp only
  rw [HeapM.run_bind, released]
  rfl

/-- A table gets another bucket array, if nothing on the way fails, and that is counted. -/
theorem run_install {table : RefTable} {capacity : UInt64} {array : RefArray}
    {heap first second next : Heap}
    (stored : (writeRef table.handle bucketsOffset (some array.handle)).run heap = (.ok ⟨⟩, first))
    (wrote : (writeWord table.handle capacityOffset capacity).run first = (.ok ⟨⟩, second))
    (released : (release array.handle).run second = (.ok (), next)) :
    (table.install capacity array).run heap = (.ok ⟨⟩, { next with
      counters := { next.counters with tableResizes := next.counters.tableResizes + 1 } }) := by
  unfold install
  rw [HeapM.run_bind, stored]
  dsimp only
  rw [HeapM.run_bind, wrote]
  dsimp only
  rw [HeapM.run_bind, released]
  rfl

end RefTable

namespace Heap

variable {heap next : Heap} {hash : Key → UInt64} {table : RefTable} {bins : Bins}

/-- An array of absent elements is a bucket array without entries. -/
theorem Lists.stores {array : RefArray} {backing : Handle} {power : Nat}
    (lists : heap.Lists array (List.replicate (2 * 2 ^ power) none) (2 * 2 ^ power)
      (some backing)) : heap.Stores (Bins.vacant power array backing) where
  lists := by
    rw [Bins.cells_vacant]
    exact lists
  keys entry member := by
    rw [Bins.entries_vacant] at member
    cases member

/-- The parts of a table are sane. -/
theorem Maps.sane (maps : heap.Maps hash table bins) {handle : Handle}
    (part : handle ∈ parts table bins) {view : View} (seen : heap.view? handle = some view) :
    view.Sane := by
  rcases List.mem_cons.mp part with rfl | stored
  · exact maps.record.sane (Or.inr rfl) seen
  · exact maps.stores.lists.sane stored seen

/-! ## Making -/

/-- The objects of a table are no strings, so that a run that writes them is steady. -/
theorem classOf_record {heap next : Heap} {handle : Handle} {first second other otherToo : UInt64}
    {storage storageToo : Option Handle}
    (before : heap.Record Registry.hashtableClass handle first second storage)
    (after : next.Record Registry.hashtableClass handle other otherToo storageToo) :
    ∀ written ∈ [handle], ∃ id, id ≠ ClassId.string ∧ heap.classOf written = .ok id ∧
      next.classOf written = .ok id := by
  intro written member
  cases List.mem_singleton.mp member
  exact ⟨.hashtable, by decide, before.classOf, after.classOf⟩

/-- A new table gets its bucket array. -/
theorem Stores.furnish {array : RefArray} {backing : Handle} {power : Nat}
    (stores : heap.Stores (Bins.vacant power array backing)) (sound : heap.Sound)
    (record : heap.Record Registry.hashtableClass table.handle 0 0 none)
    (held : heap.holds array.handle = .ok 1)
    (apart : table.handle ∉ Lists.parts array (some backing)) :
    ∃ next, (table.furnish (2 ^ power) array).run heap = (.ok table, next) ∧
      heap.Leaves next [] [table.handle] ∧
      next.Maps hash table (Bins.vacant power array backing) ∧
      heap.GivesUp next array.handle := by
  obtain ⟨first, wrote, alters, recordFirst⟩ :=
    record.writeSecond (Or.inr rfl) sound (2 ^ power : Nat).toUInt64
  have present : first.Present (some array.handle) := by
    rintro handle same
    cases same
    exact (stores.left_of_record sound alters (Or.inr rfl) record apart).lists.record.isLive
  obtain ⟨middle, stored, altersToo, recordMiddle⟩ :=
    recordFirst.writeStorage (Or.inr rfl) (alters.sound sound) present
  have both : heap.Alters middle [table.handle] := (alters.trans altersToo).mono (by simp)
  have fit : Bins.Fit (Bins.vacant power array backing) hash := by
    refine ⟨probed_vacant _ _, ?_⟩
    rw [Bins.entries_vacant]
    exact Nat.two_pow_pos power
  have recordVacant : middle.Record Registry.hashtableClass table.handle
      (Bins.vacant power array backing).entries.length.toUInt64 (2 ^ power : Nat).toUInt64
      (some array.handle) := by
    rw [Bins.entries_vacant]
    exact recordMiddle
  have maps : middle.Maps hash table (Bins.vacant power array backing) :=
    ⟨recordVacant, stores.left_of_record sound both (Or.inr rfl) record apart, fit⟩
  have uninterned : middle.isInterned array.handle = false :=
    isInterned_of_classOf maps.stores.lists.record.classOf (by decide)
  obtain ⟨next, released, _, recounts, givesUp⟩ :=
    (both.sound sound).exists_release uninterned ((both.holds array.handle).trans held)
  exact ⟨next, run_furnish wrote stored released,
    (both.leaves.trans recounts.leaves).mono (by simp),
    maps.of_views (both.sound sound) recounts.view?,
    (both.steady sound (classOf_record record recordMiddle)).givesUp givesUp⟩

/-- The handle of the array that a program has made, if it has made one. -/
def handlesMade : Except HeapError RefArray → List Handle
  | .ok array => [array.handle]
  | .error _ => []

/-- The making of a bucket array for a table that is held succeeds, or memory runs out and the
table is given up. -/
inductive Buckets (heap : Heap) (handle : Handle) (length : Nat) :
    Except HeapError RefArray × Heap → Prop
  | made {array : RefArray} {backing : Handle} {next : Heap} :
      next.Lists array (List.replicate length none) length (some backing) →
        (∀ part ∈ Lists.parts array (some backing), heap.isLive part = false) →
        heap.Leaves next (Lists.parts array (some backing)) [] → next.isLive handle = true →
        next.holds array.handle = .ok 1 → heap.Steady next [array.handle] →
        Buckets heap handle length (.ok array, next)
  | refused {size limit : Nat} {new : List Handle} {next : Heap} :
      heap.GivesUp next handle → heap.Leaves next new [] →
        (∀ other ∈ new, next.isLive other = true → heap.isLive other = false) →
        next.counters.collections ≤ heap.counters.collections + 2 →
        Buckets heap handle length (.error (.outOfMemory size limit), next)

section

variable {during after : Heap} {handle : Handle} {length : Nat}
  (holding : heap.Held during [handle]) (held : heap.holds handle = .ok 1)
  (drops : after.Holds next fun other count => count - after.charge [handle] other)

include holding held drops

/-- An array that is made while a table is held is there when the hold has been given back. -/
theorem Made.buckets {array : RefArray} {storage : Option Handle}
    (made : during.Made after array (List.replicate length none) length storage)
    (filled : length ≠ 0) (steady : heap.Steady next [array.handle]) :
    heap.Buckets handle length (.ok array, next) := by
  obtain ⟨backing, rfl⟩ := Option.ne_none_iff_exists'.mp fun bare =>
    filled (made.lists.bare.mp bare)
  have begins := holding.adds.recounts
  have recounts := drops.recounts
  have new (part : Handle) (listed : part ∈ Lists.parts array (some backing)) :
      heap.isLive part = false := (begins.isLive part).symm.trans (made.new part listed)
  have apart := ne_of_new (isLive_of_holds held) (new array.handle List.mem_cons_self)
  obtain ⟨live, _, _⟩ := steady.held_once (by simpa using apart) held
  refine Buckets.made ?_ new ?_ live ?_ steady
  · exact made.lists.congr fun other _ => congrFun recounts.view? other
  · exact ((begins.leaves.trans made.leaves).trans recounts.leaves).mono (by simp)
  · exact (drops.holds_unlisted (by simpa using apart.symm)).trans made.held

/-- A table that is held while memory runs out is given up. -/
theorem Undone.buckets {size limit : Nat} (undone : during.Undone after)
    (few : after.counters.collections ≤ during.counters.collections + 2) (nextSound : next.Sound)
    (plain : heap.isInterned handle = false) (steady : heap.Steady next []) :
    ∃ last, (release handle).run next = (.ok (), last) ∧
      heap.Buckets handle length (.error (.outOfMemory size limit), last) := by
  have begins := holding.adds.recounts
  have recounts := drops.recounts
  obtain ⟨_, interned, heldStill⟩ := steady.held_once List.not_mem_nil held
  obtain ⟨last, released, _, recountsToo, givesUp⟩ :=
    nextSound.exists_release (interned.trans plain) heldStill
  have ended := recounts.trans recountsToo
  obtain ⟨new, fresh, leaves⟩ := undone.leaves
  refine ⟨last, released, Buckets.refused (steady.givesUp givesUp)
    (((begins.leaves.trans leaves).trans ended.leaves).mono (by simp)) ?_ ?_⟩
  · intro other member live
    rw [ended.isLive] at live
    exact (begins.isLive other).symm.trans (fresh other (by simpa using member) live)
  · rw [begins.rest] at few
    rw [ended.rest]
    exact few

end

/-- A bucket array is made while the table is held. -/
theorem Assured.buckets {handle : Handle} {length : Nat} (filled : length ≠ 0)
    (plain : heap.isInterned handle = false) (held : heap.holds handle = .ok 1)
    (assured : heap.Assured ((RefArray.orRelease handle
      (withHeld [handle] (RefArray.filled length))).run heap).2 []) :
    heap.Buckets handle length ((RefArray.orRelease handle
      (withHeld [handle] (RefArray.filled length))).run heap) := by
  have tame := RefArray.tame_filled length
  have bounded := Nat.lt_of_le_of_lt (RefArray.slots_le_orRelease handle
    (withHeld [handle] (RefArray.filled length)) heap) assured.bounded
  have whole : heap.Assured ((withHeld [handle] (RefArray.filled length)).run heap).2 [] :=
    ⟨assured.sound, assured.numbered, bounded, lasting_nil _ _⟩
  have makes {held after : Heap} {result : Except HeapError RefArray}
      (holding : heap.Held held [handle]) (runs : (RefArray.filled length).run held =
        (result, after)) : held.Makes (List.replicate length none) length (result, after) := by
    rw [← runs]
    apply Assured.filled
    rw [runs]
    exact holding.assured tame whole runs
  obtain ⟨during, after, next, result, holding, runs, ran, drops, steady⟩ :=
    assured.sound.withHeld_steady handlesMade (by simpa using isLive_of_holds held)
      (holdable_singleton held) bounded (by
        intro during result after holding runs _
        cases makes holding runs with
        | made made =>
            exact ⟨made.steady, by simpa [handlesMade] using made.new _ List.mem_cons_self⟩
        | refused undone _ => exact ⟨undone.steady, by simp [handlesMade]⟩)
  have nextSound := (tame_withHeld [handle] tame).sound assured.sound
  rw [ran] at nextSound bounded
  cases makes holding runs with
  | made made =>
      rw [RefArray.run_orRelease_ok ran]
      exact made.buckets holding held drops filled steady
  | refused undone few =>
      obtain ⟨last, released, buckets⟩ :=
        undone.buckets holding held drops few (nextSound bounded) plain steady
      rw [RefArray.run_orRelease_error ran released]
      exact buckets

/-- A new table has no entries.  It is held once, and apart from it and its bucket array everything
that is still live is as it was. -/
structure MadeTable (heap next : Heap) (hash : Key → UInt64) (table : RefTable) (bins : Bins) :
    Prop where
  maps : next.Maps hash table bins
  new : heap.isLive table.handle = false
  leaves : heap.Leaves next (Maps.parts table bins) []
  held : next.holds table.handle = .ok 1
  steady : heap.Steady next [table.handle]

/-- Making a table succeeds, or memory runs out. -/
inductive MakesTable (heap : Heap) (hash : Key → UInt64) (capacity : Nat) :
    Except HeapError RefTable × Heap → Prop
  | made {table : RefTable} {power : Nat} {array : RefArray} {backing : Handle} {next : Heap} :
      nextPowerOfTwo capacity = 2 ^ power →
        heap.MadeTable next hash table (Bins.vacant power array backing) →
        MakesTable heap hash capacity (.ok table, next)
  | refused {size limit : Nat} {next : Heap} :
      heap.Undone next → MakesTable heap hash capacity (.error (.outOfMemory size limit), next)

section

variable {middle after : Heap} {handle : Handle} {capacity power : Nat}
  (size : nextPowerOfTwo capacity = 2 ^ power) (sound : heap.Sound)
  (allocates : heap.Allocates middle (View.fresh Registry.hashtableClass 0) handle)

include size sound allocates

/-- A new object and its bucket array become a table. -/
theorem Allocates.madeTable {array : RefArray} (middleSound : middle.Sound)
    (afterSound : after.Sound)
    (buckets : middle.Buckets handle (2 * 2 ^ power) (.ok array, after)) :
    heap.MakesTable hash capacity ((RefTable.furnish ⟨handle⟩ (2 ^ power) array).run after) := by
  have record := allocates.record (Or.inr rfl)
  cases buckets with
  | @made _ backing _ lists new leaves live held steady =>
      have outside := not_mem_of_new record.isLive new
      have shown := record.congr (leaves.views handle outside List.not_mem_nil live)
      obtain ⟨next, furnished, leavesToo, maps, givesUp⟩ :=
        lists.stores.furnish afterSound shown held outside
      have begun := allocates.steady sound middleSound
      have ended := givesUp.settle steady middleSound (new _ List.mem_cons_self)
      obtain ⟨_, _, heldStill⟩ := ended.held_once List.not_mem_nil allocates.held
      rw [furnished]
      apply MakesTable.made size
      refine ⟨maps, allocates.new, ?_, heldStill,
        begun.trans (ended.mono (List.nil_subset [handle]))⟩
      have whole : heap.Leaves next
          (Maps.parts ⟨handle⟩ (Bins.vacant power array backing) ++ []) [] :=
        ((allocates.leaves.trans leaves).trans leavesToo).settle (by simp)
      rwa [List.append_nil] at whole

/-- A new table gets a bucket array, or memory runs out. -/
theorem Allocates.constructTable {log : List (Heap × Heap)} (course : Course heap log middle)
    (few : middle.counters.collections ≤ heap.counters.collections + 1)
    (assured : middle.Assured ((RefTable.construct (2 ^ power) handle).run middle).2 []) :
    heap.MakesTable hash capacity ((RefTable.construct (2 ^ power) handle).run middle) := by
  have record := allocates.record (Or.inr rfl)
  have plain := isInterned_of_classOf record.classOf (by decide)
  have tame : Tame (RefArray.orRelease handle
      (withHeld [handle] (RefArray.filled (2 * 2 ^ power)))) :=
    RefArray.tame_orRelease handle (tame_withHeld _ (RefArray.tame_filled _))
  have stages := assured.stages tame (RefTable.tame_furnish ⟨handle⟩ (2 ^ power))
  have filled : 2 * 2 ^ power ≠ 0 := by
    have positive := Nat.two_pow_pos power
    omega
  have buckets : middle.Assured _ [] → _ := Assured.buckets filled plain allocates.held
  have follows := tame.course middle assured.sound
  unfold RefTable.construct at assured ⊢
  generalize (RefArray.orRelease handle (withHeld [handle] (RefArray.filled (2 * 2 ^ power))) >>=
    RefTable.furnish ⟨handle⟩ (2 ^ power)).run middle = result at stages
  cases stages with
  | stopped ran assuredFirst =>
      rw [ran] at buckets follows
      obtain ⟨later, follows⟩ := follows assuredFirst.bounded
      cases buckets assuredFirst with
      | @refused _ _ new _ givesUp leaves fresh brief =>
          have begun := allocates.steady sound assured.sound
          apply MakesTable.refused
          refine ⟨givesUp.settle begun sound allocates.new, [handle] ++ new, ?_,
            (allocates.leaves.trans leaves).mono (by simp)⟩
          intro other member live
          rcases List.mem_append.mp member with member | member
          · cases List.mem_singleton.mp member
            exact allocates.new
          · exact sound.not_isLive_of_course course follows assuredFirst.bounded
              (by dsimp only; omega) (fresh other member live) live
  | went ran assuredFirst assuredRest =>
      rw [ran] at buckets
      exact allocates.madeTable size sound assured.sound assuredRest.sound (buckets assuredFirst)

end

/-- A table is made, or memory runs out. -/
theorem Assured.madeTable {capacity : Nat}
    (assured : heap.Assured ((RefTable.withCapacity capacity).run heap).2 []) :
    heap.MakesTable hash capacity ((RefTable.withCapacity capacity).run heap) := by
  obtain ⟨power, size⟩ := isPowerOfTwo_iff.mp (isPowerOfTwo_nextPowerOfTwo capacity)
  rw [RefTable.withCapacity_eq, size] at assured ⊢
  by_cases large : wordLimit ≤ 2 * 2 ^ power
  · rw [if_pos large]
    exact MakesTable.refused (Undone.refl assured.sound)
  · rw [if_neg large] at assured ⊢
    have tame := tame_allocate .hashtable 0
    have stages := assured.stages tame (RefTable.tame_construct (2 ^ power))
    have known : heap.classes.get .hashtable = .ok Registry.hashtableClass :=
      assured.sound.get_builtin rfl
    have allocating := assured.sound.allocating known 0
    have brief : ((allocate .hashtable 0).run heap).2.handles.slots < 2 ^ 32 →
        ((allocate .hashtable 0).run heap).2.counters.collections ≤
          heap.counters.collections + 1 :=
      assured.sound.collections_allocate
    have follows := tame.course heap assured.sound
    have ended := tame.sound assured.sound
    generalize (allocate .hashtable 0 >>= RefTable.construct (2 ^ power)).run heap = result
      at stages
    cases stages with
    | stopped ran assuredFirst =>
        rw [ran] at allocating ended
        cases allocating assuredFirst.bounded with
        | refused retains =>
            exact MakesTable.refused (retains.undone assured.sound (ended assuredFirst.bounded))
    | @went handle middle ran assuredFirst assuredRest =>
        rw [ran] at allocating brief follows
        obtain ⟨log, course⟩ := follows assuredFirst.bounded
        cases allocating assuredFirst.bounded with
        | placed allocates =>
            exact allocates.constructTable size assured.sound course (brief assuredFirst.bounded)
              assuredRest

/-- A new table owns its buckets. -/
theorem OwnsBins.of_made (apart : heap.Apart []) (made : heap.MadeTable next hash table bins) :
    next.OwnsBins hash table bins :=
  ⟨made.maps, apart.of_new made.leaves fun _ part _ seen => made.maps.sane part seen⟩

end Heap

end CompactingHeap
