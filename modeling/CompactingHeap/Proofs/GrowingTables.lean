import CompactingHeap.Proofs.LoadFactor
import CompactingHeap.Proofs.MakingTables

/-!
# Growing tables

When one more entry would overload a table, its entries move to a bucket array of twice the
capacity while the table, the key and the value are held; all that can go wrong is that memory runs
out, and then the table is as it was.
-/

namespace CompactingHeap

open Heap RefTable

namespace Heap

variable {heap next : Heap} {hash : Key → UInt64} {table : RefTable} {bins : Bins}

/-! ## Growing -/

/-- A table gets a new bucket array. -/
theorem Stores.install (stores : heap.Stores bins) (sound : heap.Sound) (fit : bins.Fit hash)
    {second : UInt64} {storage : Option Handle}
    (record : heap.Record Registry.hashtableClass table.handle bins.entries.length.toUInt64 second
      storage)
    (held : heap.holds bins.array.handle = .ok 1)
    (apart : table.handle ∉ Lists.parts bins.array (some bins.backing)) :
    ∃ next, (table.install bins.capacity.toUInt64 bins.array).run heap = (.ok ⟨⟩, next) ∧
      next.Sound ∧ heap.Leaves next [] [table.handle] ∧ next.Maps hash table bins ∧
      heap.GivesUp next bins.array.handle := by
  have present : heap.Present (some bins.array.handle) := by
    rintro handle same
    cases same
    exact stores.lists.record.isLive
  obtain ⟨first, stored, alters, recordFirst⟩ := record.writeStorage (Or.inr rfl) sound present
  obtain ⟨middle, wrote, altersToo, recordMiddle⟩ :=
    recordFirst.writeSecond (Or.inr rfl) (alters.sound sound) bins.capacity.toUInt64
  have both : heap.Alters middle [table.handle] := (alters.trans altersToo).mono (by simp)
  have middleSound := both.sound sound
  have maps : middle.Maps hash table bins :=
    ⟨recordMiddle, stores.left_of_record sound both (Or.inr rfl) record apart, fit⟩
  obtain ⟨after, released, afterSound, recounts, givesUp⟩ := middleSound.exists_release
    (isInterned_of_classOf maps.stores.lists.record.classOf (by decide))
    ((both.holds bins.array.handle).trans held)
  have counted := leaves_count after
    { after.counters with tableResizes := after.counters.tableResizes + 1 }
  have ran := run_install stored wrote released
  have nextSound := (table.tame_install bins.capacity.toUInt64 bins.array).sound sound
  rw [ran] at nextSound
  refine ⟨_, ran, nextSound afterSound.bounded, ?_, ?_, ?_⟩
  · exact ((both.leaves.trans recounts.leaves).trans counted).mono (by simp)
  · exact maps.of_views middleSound recounts.view?
  · refine ((both.steady sound (classOf_record record recordMiddle)).givesUp givesUp).trans ?_
    exact counted.steady afterSound (nextSound afterSound.bounded) (fun _ => rfl)
      (fun _ _ => rfl) (by simp) rfl

section

variable (maps : heap.Maps hash table bins) (sound : heap.Sound) {array : RefArray}
    {backing : Handle}
  (lists : heap.Lists array (List.replicate (2 * 2 ^ (bins.power + 1)) none)
    (2 * 2 ^ (bins.power + 1)) (some backing))
  (apart : ∀ handle ∈ Maps.parts table bins, handle ∉ Lists.parts array (some backing))

include maps sound lists apart

/-- The entries of a table enter the buckets of an array of twice the capacity. -/
theorem Maps.reinserts : ∃ entered, ∃ others : Bins,
    (table.reinsertFrom bins.array array (bins.capacity.toUInt64 * 2) 0 bins.capacity hash).run
        heap =
        (.ok (), entered) ∧
      heap.Alters entered [backing] ∧ entered.Stores others ∧ others.Fit hash ∧
      others.array = array ∧ others.backing = backing ∧ others.capacity = 2 * bins.capacity ∧
      others.entries.Perm bins.entries := by
  have doubled : (Bins.vacant (bins.power + 1) array backing).capacity = 2 * bins.capacity := by
    unfold Bins.capacity Bins.vacant
    rw [Nat.pow_succ, Nat.mul_comm]
  have word : bins.capacity.toUInt64 * 2 =
      (Bins.vacant (bins.power + 1) array backing).capacity.toUInt64 := by
    rw [doubled, Nat.mul_comm]
    simp
  have room := maps.fit.room
  have start : (0 : UInt64).toNat + bins.capacity = bins.capacity := by simp
  have unlike : ∀ handle ∈ Lists.parts bins.array (some bins.backing), handle ≠ backing := by
    rintro handle part rfl
    exact apart _ (List.mem_cons_of_mem _ part) (by simp [Lists.parts])
  obtain ⟨entered, buckets, ran, alters, stores, probed, perm⟩ :=
    maps.stores.reinsertFrom lists.stores sound maps.fit.probed
      (probed_vacant _ _) (by rw [doubled]; omega) unlike bins.capacity start
      (by
        rw [Bins.entries_vacant]
        exact List.Perm.refl _)
  have entries : Bins.entries { Bins.vacant (bins.power + 1) array backing with buckets } =
    listed (Bins.vacant (bins.power + 1) array backing).capacity buckets := rfl
  have fit : Bins.Fit { Bins.vacant (bins.power + 1) array backing with buckets } hash := by
    refine ⟨probed, ?_⟩
    rw [entries, perm.length_eq]
    change _ < (Bins.vacant (bins.power + 1) array backing).capacity
    omega
  rw [word]
  exact ⟨entered, _, ran, alters, stores, fit, rfl, rfl, doubled, perm⟩

/-- The entries of a table move to a bucket array of twice the capacity. -/
theorem Maps.moveTo (held : heap.holds array.handle = .ok 1) :
    ∃ next others, (table.moveTo bins.capacity.toUInt64 (bins.capacity.toUInt64 * 2) hash array).run
        heap = (.ok ⟨⟩, next) ∧ next.Sound ∧
      heap.Leaves next [] [backing, table.handle] ∧ next.Maps hash table others ∧
      parts table others = table.handle :: Lists.parts array (some backing) ∧
      others.capacity = 2 * bins.capacity ∧ others.entries.Perm bins.entries ∧
      heap.GivesUp next array.handle := by
  obtain ⟨entered, others, ran, alters, stores, fit, rfl, rfl, doubled, perm⟩ :=
    maps.reinserts sound lists apart
  have size : bins.capacity.toUInt64.toNat = bins.capacity := toNat_toUInt64 maps.small_capacity
  have word : others.capacity.toUInt64 = bins.capacity.toUInt64 * 2 := by
    rw [doubled, Nat.mul_comm]
    simp
  have apartTable := apart _ List.mem_cons_self
  have record := maps.record.congr (alters.views table.handle fun member =>
    apartTable (List.mem_cons_of_mem _ member))
  rw [← perm.length_eq] at record
  obtain ⟨next, installed, nextSound, leaves, done, givesUp⟩ :=
    stores.install (alters.sound sound) fit record ((alters.holds _).trans held) apartTable
  refine ⟨next, others, ?_, nextSound, alters.leaves.trans leaves, done, rfl, doubled, perm, ?_⟩
  · unfold RefTable.moveTo
    rw [HeapM.run_bind, HeapM.run_ask, maps.buckets]
    dsimp only
    rw [HeapM.run_bind, size, ran, ← word]
    exact installed
  · refine (alters.steady sound ?_).givesUp givesUp
    intro handle member
    have same := List.mem_singleton.mp member
    exact ⟨.vector, by decide, same ▸ (lists.backed _ rfl).classOf,
      same ▸ (stores.lists.backed _ rfl).classOf⟩

end

/-- What a resize does: the entries move to twice as many buckets, in a bucket array that is new,
or memory runs out. -/
inductive Resizes (heap : Heap) (hash : Key → UInt64) (table : RefTable) (bins : Bins) :
    Except HeapError PUnit × Heap → Prop
  | resized {others : Bins} {next : Heap} :
      next.Sound → next.OwnsBins hash table others → others.capacity = 2 * bins.capacity →
        others.entries.Perm bins.entries →
        (∀ handle ∈ Lists.parts others.array (some others.backing), heap.isLive handle = false) →
        heap.Leaves next (Lists.parts others.array (some others.backing)) [table.handle] →
        heap.Steady next [] → Resizes heap hash table bins (.ok ⟨⟩, next)
  | refused {size limit : Nat} {next : Heap} :
      next.Sound → next.OwnsBins hash table bins → heap.Undone next →
        Resizes heap hash table bins (.error (.outOfMemory size limit), next)

/-- Resizing is steady. -/
theorem Resizes.steady {outcome : Except HeapError PUnit × Heap}
    (resizes : heap.Resizes hash table bins outcome) : heap.Steady outcome.2 [] := by
  cases resizes with
  | resized _ _ _ _ _ _ steady => exact steady
  | refused _ _ undone => exact undone.steady

/-- A table that has moved to a new bucket array owns it. -/
theorem OwnsBins.grown (owns : heap.OwnsBins hash table bins) {others : Bins}
    (new : ∀ handle ∈ Lists.parts others.array (some others.backing), heap.isLive handle = false)
    (leaves : heap.Leaves next (Lists.parts others.array (some others.backing)) [table.handle])
    (maps : next.Maps hash table others) : next.OwnsBins hash table others := by
  refine ⟨maps, owns.apart.replaces leaves ?_⟩
  constructor
  · simp [Maps.parts]
  · exact fun handle part => List.mem_cons_of_mem _ part
  · intro handle part
    rcases List.mem_cons.mp part with rfl | stored
    · exact Or.inr List.mem_cons_self
    · exact Or.inl stored
  · intro handle part old
    rcases List.mem_cons.mp part with rfl | stored
    · rw [maps.record.classOf, owns.maps.record.classOf]
    · exact absurd stored old
  · intro handle part unlisted view target seen refers member
    -- what is given up is the old bucket array and its run: the one refers to the other
    have lists := owns.maps.stores.lists
    rcases List.mem_cons.mp part with rfl | stored
    · exact unlisted List.mem_cons_self
    · rcases List.mem_cons.mp stored with rfl | backed
      · obtain ⟨shown, there, _, _, _, ref⟩ := lists.record.shown
        rw [seen] at there
        cases there
        rw [refers] at ref
        cases ref
        rcases List.mem_cons.mp member with same | fresh
        · exact owns.maps.apart.2 same.symm
        · have live := owns.maps.isLive bins.backing
            (List.mem_cons_of_mem _ (by simp [Lists.parts]))
          exact ne_of_new live (new _ fresh) rfl
      · obtain ⟨shown, there, vector, _⟩ :=
          (lists.backed handle (Option.mem_toList.mp backed)).shown
        rw [seen] at there
        cases there
        have bare : TraceEntry.ref storageOffset ∉ view.descriptor.trace := by
          rw [vector]
          decide
        rw [ref_eq_none seen bare] at refers
        cases refers
  · exact fun handle part view seen => maps.sane part seen

/-- A table that still owns its bucket array moves to a new one of twice the capacity. -/
theorem OwnsBins.resizeInto {middle : Heap} {array : RefArray} {storage : Option Handle}
    (owns : heap.OwnsBins hash table bins) (sound : heap.Sound) (middleSound : middle.Sound)
    (kept : middle.Maps hash table bins)
    (made : heap.Made middle array (List.replicate (2 * 2 ^ (bins.power + 1)) none)
      (2 * 2 ^ (bins.power + 1)) storage) :
    heap.Resizes hash table bins ((table.moveTo bins.capacity.toUInt64
      (bins.capacity.toUInt64 * 2) hash array).run middle) := by
  have filled : 2 * 2 ^ (bins.power + 1) ≠ 0 := by
    have positive := Nat.two_pow_pos (bins.power + 1)
    omega
  obtain ⟨backing, rfl⟩ := Option.ne_none_iff_exists'.mp fun bare =>
    filled (made.lists.bare.mp bare)
  have apart : ∀ handle ∈ Maps.parts table bins, handle ∉ Lists.parts array (some backing) :=
    fun handle part => not_mem_of_new (owns.maps.isLive handle part) made.new
  obtain ⟨next, others, moved, nextSound, leaves, done, same, doubled, perm, givesUp⟩ :=
    kept.moveTo middleSound made.lists apart made.held
  have stored : Lists.parts others.array (some others.backing) =
      Lists.parts array (some backing) := (List.cons.inj same).2
  have whole : heap.Leaves next (Lists.parts array (some backing)) [table.handle] := by
    have both : heap.Leaves next (Lists.parts array (some backing) ++ []) [table.handle] :=
      (made.leaves.trans leaves).settle (by simp [Lists.parts])
    rwa [List.append_nil] at both
  have new := made.new
  rw [← stored] at whole new
  rw [moved]
  exact Resizes.resized nextSound (owns.grown new whole done) doubled perm new whole
    (givesUp.settle made.steady sound (made.new _ List.mem_cons_self))

/-- The length of the bucket array after growing, as the program computes it. -/
theorem Maps.resized_length (maps : heap.Maps hash table bins) :
    (2 * (bins.capacity.toUInt64 * 2)).toNat = 2 * 2 ^ (bins.power + 1) := by
  have small := maps.stores.small
  have word := toNat_toUInt64 maps.small_capacity
  have double : 2 * 2 ^ (bins.power + 1) = 2 * (bins.capacity * 2) := by
    rw [Nat.pow_succ]
    rfl
  rw [double, UInt64.toNat_mul, UInt64.toNat_mul, word]
  simp only [UInt64.reduceToNat]
  omega

theorem OwnsBins.resize (owns : heap.OwnsBins hash table bins)
    {roots : List Handle} (stays : heap.Grasped table.handle ∨ table.handle ∈ roots)
    (assured : heap.Assured ((table.resize (bins.capacity.toUInt64 * 2) hash).run heap).2 roots) :
    heap.Resizes hash table bins ((table.resize (bins.capacity.toUInt64 * 2) hash).run heap) := by
  have maps := owns.maps
  rw [RefTable.resize_eq, HeapM.run_bind, HeapM.run_ask, maps.capacityWord] at assured ⊢
  dsimp only at assured ⊢
  rw [maps.resized_length] at assured ⊢
  have tame := RefArray.tame_filled (2 * 2 ^ (bins.power + 1))
  have stages := assured.stages tame
    (table.tame_moveTo bins.capacity.toUInt64 (bins.capacity.toUInt64 * 2) hash)
  have filled : heap.Assured ((RefArray.filled (2 * 2 ^ (bins.power + 1))).run heap).2 [] → _ :=
    Assured.filled
  have still := owns.elsewhere (.filledArray (2 * 2 ^ (bins.power + 1)))
  generalize (RefArray.filled (2 * 2 ^ (bins.power + 1)) >>= _).run heap = result at stages ⊢
  cases stages with
  | stopped ran assuredFirst =>
      rw [ran] at filled still
      cases filled (assuredFirst.mono (List.nil_subset roots)) with
      | refused undone few =>
          obtain ⟨sound, _, kept⟩ := still (assuredFirst.lasting_of_steady tame ran
            maps.record.isLive stays undone.steady (by simp) (Nat.lt_of_le_of_lt few (by simp)))
          exact Resizes.refused sound kept undone
  | went ran assuredFirst assuredRest =>
      rw [ran] at filled still
      cases filled (assuredFirst.mono (List.nil_subset roots)) with
      | made made =>
          obtain ⟨sound, _, kept⟩ := still (assuredFirst.lasting_of_steady tame ran
            maps.record.isLive stays made.steady (by simpa using made.new _ List.mem_cons_self)
            (Nat.lt_of_le_of_lt made.few (by simp)))
          exact owns.resizeInto assured.sound sound kept.maps made

/-! ## Making room -/

/-- The load factor is one that a heap accepts: it has been validated, and it is a 32-bit number. -/
structure Loadable (config : Config) : Prop where
  valid : config.flaw? = none
  admits : Binary.Format.single.Admits config.tableLoadFactor

/-- A table that one more entry does not overload has a vacant bucket left when it has entered. -/
theorem Maps.room_of_not_overloaded (maps : heap.Maps hash table bins) {config : Config}
    (loadable : Loadable config)
    (light : config.overloaded (bins.entries.length + 1) bins.capacity = false) :
    bins.entries.length + 1 < bins.capacity := by
  apply Nat.lt_of_le_of_ne maps.fit.room
  intro (full : bins.entries.length + 1 = bins.capacity)
  have small : bins.power ≤ 104 := by
    have := maps.stores.power_lt
    omega
  have heavy := Config.overloaded_full loadable.valid loadable.admits small
  change config.overloaded bins.capacity bins.capacity = true at heavy
  rw [full, heavy] at light
  cases light

/-- What counts of a key is the same where it is not written, or is compared by identity. -/
theorem Leaves.ofHandle {new altered : List Handle} (leaves : heap.Leaves next new altered)
    (sound : heap.Sound) {key : Handle} {identity : Key}
    (known : Key.ofHandle heap key = .ok identity) (old : key ∉ new)
    (live : next.isLive key = true)
    (plain : key ∈ altered → ∃ id, id ∉ Key.contentClasses ∧ heap.classOf key = .ok id ∧
      next.classOf key = .ok id) : Key.ofHandle next key = .ok identity := by
  by_cases written : key ∈ altered
  · obtain ⟨id, content, before, after⟩ := plain written
    have named := (Key.classOf_of_ofHandle sound known).1
    rw [before] at named
    cases named
    exact Key.ofHandle_of_same sound known (after.trans before.symm) fun inside =>
      absurd inside content
  · exact sound.ofHandle_congr known (leaves.views key old written live)

/-- What is left of a table when a new key does not enter.  Memory has run out, or a count of holds
has come to its bound, so that a hold cannot be given back. -/
structure Unentered (heap next : Heap) (hash : Key → UInt64) (table : RefTable) (bins : Bins)
    (key value : Handle) (error : HeapError) : Prop where
  sound : next.Sound
  owns : ∃ others, next.OwnsBins hash table others ∧ others.entries.Perm bins.entries
  reason : error.IsOutOfMemory ∨ ¬ heap.Holdable [table.handle, key, value] ∧
    ∃ handle, error = .staleHandle handle ∨ error = .notRooted handle

/-- Room is made for a key, while it is held together with the table and the value.  The holds
balance, unless a count comes to its bound. -/
inductive MakesRoom (heap : Heap) (hash : Key → UInt64) (table : RefTable) (bins : Bins)
    (key value : Handle) (identity : Key) : Except HeapError PUnit × Heap → Prop
  | made {others : Bins} {next : Heap} :
      next.OwnsBins hash table others → others.entries.Perm bins.entries →
        others.entries.length + 1 < others.capacity →
        Key.ofHandle next key = .ok identity → next.isLive value = true →
        (heap.Holdable [table.handle, key, value] → heap.Steady next []) →
        MakesRoom heap hash table bins key value identity (.ok ⟨⟩, next)
  | failed {error : HeapError} {next : Heap} :
      heap.Unentered next hash table bins key value error →
        (heap.Holdable [table.handle, key, value] → heap.Undone next) →
        MakesRoom heap hash table bins key value identity (.error error, next)

section

variable {key value : Handle} {identity : Key} {roots : List Handle}
  (stays : heap.Holdable [table.handle, key, value] ∨ table.handle ∈ roots)

include stays

/-- What resizing does while the table, the key and the value are held. -/
theorem OwnsBins.resizes_held (owns : heap.OwnsBins hash table bins)
    (assured : heap.Assured ((withHeld [table.handle, key, value]
      (table.resize (bins.capacity.toUInt64 * 2) hash)).run heap).2 roots)
    {held after : Heap} {result : Except HeapError PUnit}
    (holding : heap.Held held [table.handle, key, value])
    (runs : (table.resize (bins.capacity.toUInt64 * 2) hash).run held = (result, after)) :
    held.Resizes hash table bins (result, after) := by
  have inner := holding.assured (table.tame_resize (bins.capacity.toUInt64 * 2) hash) assured runs
  have heldStays : held.Grasped table.handle ∨ table.handle ∈ roots :=
    stays.imp_left fun room => holding.grasped room table.handle List.mem_cons_self
  rw [← runs]
  apply (owns.of_views assured.sound holding.adds.recounts.view?).resize heldStays
  rw [runs]
  exact inner

omit stays in
/-- Whether a table has been resized or not, it owns its bucket array when holds have been given
back. -/
theorem Resizes.exists_owns {held after : Heap} {result : Except HeapError PUnit}
    (resizes : held.Resizes hash table bins (result, after)) (recounts : after.Recounts next) :
    ∃ others, next.OwnsBins hash table others ∧ others.entries.Perm bins.entries := by
  cases resizes with
  | resized afterSound grown _ perm => exact ⟨_, grown.of_views afterSound recounts.view?, perm⟩
  | refused afterSound kept =>
      exact ⟨bins, kept.of_views afterSound recounts.view?, List.Perm.refl _⟩

omit stays in
/-- Room has been made when the table has been resized and the holds have been given back. -/
theorem OwnsBins.madeRoom (owns : heap.OwnsBins hash table bins)
    (known : Key.ofHandle heap key = .ok identity) (sound : heap.Sound) {held after : Heap}
    (holding : heap.Held held [table.handle, key, value])
    (resizes : held.Resizes hash table bins (.ok ⟨⟩, after)) (recounts : after.Recounts next)
    (still : ∀ handle ∈ [table.handle, key, value], after.isLive handle = true)
    (steady : heap.Holdable [table.handle, key, value] → heap.Steady next []) :
    heap.MakesRoom hash table bins key value identity (.ok ⟨⟩, next) := by
  have views := holding.adds.recounts.view?
  have heldMaps := (owns.of_views sound views).maps
  have heldKnown : Key.ofHandle held key = .ok identity :=
    sound.ofHandle_congr known (congrFun views key)
  cases resizes with
  | @resized others _ afterSound grown doubled perm new leaves _ =>
      have old := not_mem_of_new (Key.isLive_of_ofHandle holding.sound heldKnown) new
      have afterKnown := leaves.ofHandle holding.sound heldKnown old (still key (by simp)) (by
        intro member
        cases List.mem_singleton.mp member
        exact ⟨.hashtable, by decide, heldMaps.record.classOf, grown.maps.record.classOf⟩)
      have fits := owns.maps.fit.room
      apply MakesRoom.made (grown.of_views afterSound recounts.view?) perm
      · rw [perm.length_eq]
        omega
      · exact afterSound.ofHandle_congr afterKnown (congrFun recounts.view? key)
      · rw [recounts.isLive]
        exact still value (by simp)
      · exact steady

theorem OwnsBins.resizeHeld (owns : heap.OwnsBins hash table bins)
    (known : Key.ofHandle heap key = .ok identity) (live : heap.isLive value = true)
    (assured : heap.Assured ((withHeld [table.handle, key, value]
      (table.resize (bins.capacity.toUInt64 * 2) hash)).run heap).2 roots) :
    heap.MakesRoom hash table bins key value identity ((withHeld [table.handle, key, value]
      (table.resize (bins.capacity.toUInt64 * 2) hash)).run heap) := by
  have alive : ∀ handle ∈ [table.handle, key, value], heap.isLive handle = true := by
    simp [owns.maps.record.isLive, Key.isLive_of_ofHandle assured.sound known, live]
  have resizes {held after : Heap} {result : Except HeapError PUnit}
      (holding : heap.Held held [table.handle, key, value])
      (runs : (table.resize (bins.capacity.toUInt64 * 2) hash).run held = (result, after)) :=
    owns.resizes_held stays assured holding runs
  have nextSound := (assured.after
    (tame_withHeld _ (table.tame_resize (bins.capacity.toUInt64 * 2) hash))).1
  have holding := assured.sound.run_withHeld _ _ assured.bounded
  rcases ran : (withHeld [table.handle, key, value]
    (table.resize (bins.capacity.toUInt64 * 2) hash)).run heap with ⟨outcome, next⟩
  rw [ran] at holding nextSound
  cases holding with
  | unheld listed dead _ => exact absurd (alive _ listed) (by simp [dead])
  | @ran held after _ _ holding runs _ still drops _ =>
      have recounts := drops.recounts
      have steady (room : heap.Holdable [table.handle, key, value]) : heap.Steady next [] :=
        assured.sound.steady_withHeld alive assured.bounded
          (fun _ _ _ holding runs => (resizes holding runs).steady) room ran
      have resized := resizes holding runs
      have owned := resized.exists_owns recounts
      cases outcome with
      | ok => exact owns.madeRoom known assured.sound holding resized recounts still steady
      | error error =>
          cases resized with
          | refused _ _ undone =>
              exact MakesRoom.failed ⟨nextSound, owned, Or.inl ⟨_, _, rfl⟩⟩
                fun room => holding.undone undone recounts (steady room)
  | @unreleased held after _ result error holding runs _ recounts failed =>
      obtain ⟨handle, _, said⟩ := releaseAll_error failed
      have bound : ¬ heap.Holdable [table.handle, key, value] := by
        apply assured.sound.not_holdable_of_unreleased alive assured.bounded
          (fun _ _ _ holding runs => (resizes holding runs).steady) _ ran failed
        intro held error after holding runs
        cases resizes holding runs with
        | refused => exact ⟨_, _, rfl⟩
      exact MakesRoom.failed ⟨nextSound, (resizes holding runs).exists_owns recounts,
        Or.inr ⟨bound, handle, said⟩⟩ fun room => absurd room bound

/-- Making room for a key that the table does not have. -/
theorem OwnsBins.makeRoom (owns : heap.OwnsBins hash table bins) (loadable : Loadable heap.config)
    (known : Key.ofHandle heap key = .ok identity) (live : heap.isLive value = true)
    (assured : heap.Assured ((table.makeRoom bins.entries.length.toUInt64 key value hash).run
      heap).2 roots) :
    heap.MakesRoom hash table bins key value identity
      ((table.makeRoom bins.entries.length.toUInt64 key value hash).run heap) := by
  have maps := owns.maps
  have count : (bins.entries.length.toUInt64 + 1).toNat = bins.entries.length + 1 := by
    have := maps.small_entries
    rw [UInt64.toNat_add, toNat_toUInt64 maps.small_entries]
    simp only [UInt64.reduceToNat]
    omega
  have size := toNat_toUInt64 maps.small_capacity
  have fits : ¬ wordLimit ≤ bins.capacity * 2 := by
    have := maps.small_capacity
    unfold wordLimit
    omega
  have sound := assured.sound
  unfold RefTable.makeRoom at assured ⊢
  rw [HeapM.run_bind, HeapM.run_ask, maps.capacityWord] at assured ⊢
  dsimp only at assured ⊢
  rw [HeapM.run_bind, HeapM.run_get] at assured ⊢
  dsimp only at assured ⊢
  rw [count, size] at assured ⊢
  cases heavy : heap.config.overloaded (bins.entries.length + 1) bins.capacity with
  | false =>
      rw [heavy] at assured
      exact MakesRoom.made owns (List.Perm.refl _) (maps.room_of_not_overloaded loadable heavy)
        known live fun _ => Steady.refl sound
  | true =>
      rw [heavy, if_pos rfl, if_neg fits] at assured
      rw [if_pos rfl, if_neg fits]
      exact owns.resizeHeld stays known live assured

end

end Heap

end CompactingHeap
