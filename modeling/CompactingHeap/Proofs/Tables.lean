import CompactingHeap.Proofs.Buckets

/-!
# Tables

A table records the number of its entries and of its buckets and refers to its bucket array.  This
module tells what the questions to such a table answer, and what the programs do that write it
where it is: the value of a key is replaced, a new key enters where there is room, and a key is
removed.
-/

namespace CompactingHeap

open Heap RefTable

/-- A handle of an array names the array. -/
theorem RefArray.ofHandle_of_classOf {heap : Heap} {handle : Handle}
    (known : heap.classOf handle = .ok .array) :
    RefArray.ofHandle heap handle = .ok ⟨handle⟩ := by
  unfold RefArray.ofHandle expect
  unfold Heap.classOf at known
  cases found : heap.objectOf handle with
  | error error =>
      rw [found] at known
      cases known
  | ok object =>
      rw [found] at known
      dsimp only [bind, Except.bind]
      rw [if_pos (Except.ok.inj known)]
      rfl

namespace Heap

/-- The table has the entries of the bins, and a probe can find them. -/
structure Maps (heap : Heap) (hash : Key → UInt64) (table : RefTable) (bins : Bins) : Prop where
  record : heap.Record Registry.hashtableClass table.handle bins.entries.length.toUInt64
    bins.capacity.toUInt64 (some bins.array.handle)
  stores : heap.Stores bins
  fit : bins.Fit hash

namespace Maps

/-- The objects that a table consists of. -/
def parts (table : RefTable) (bins : Bins) : List Handle :=
  table.handle :: Lists.parts bins.array (some bins.backing)

variable {heap next : Heap} {hash : Key → UInt64} {table : RefTable} {bins : Bins}

section

variable (maps : heap.Maps hash table bins)

include maps

theorem nodup : (bins.entries.map RefTable.Entry.identity).Nodup :=
  maps.fit.probed.nodup

theorem small_entries : bins.entries.length < 2 ^ 32 := by
  have room := maps.fit.room
  have small := maps.stores.small
  omega

theorem small_capacity : bins.capacity < 2 ^ 32 := by
  have small := maps.stores.small
  omega

/-- The table is another object than its bucket array and the run behind it. -/
theorem apart : table.handle ≠ bins.array.handle ∧ table.handle ≠ bins.backing := by
  have lists := maps.stores.lists
  exact ⟨ne_of_classOf maps.record.classOf lists.record.classOf (by decide),
    ne_of_classOf maps.record.classOf (lists.backed _ rfl).classOf (by decide)⟩

theorem isLive : ∀ handle ∈ parts table bins, heap.isLive handle = true := by
  intro handle member
  rcases List.mem_cons.mp member with rfl | member
  · exact maps.record.isLive
  · exact maps.stores.lists.isLive handle member

/-- The parts of a table are a table, an array and a vector. -/
theorem classOf_part {handle : Handle} (part : handle ∈ parts table bins) :
    heap.classOf handle =
      .ok (if handle = table.handle then .hashtable
        else if handle = bins.array.handle then .array else .vector) := by
  rcases List.mem_cons.mp part with rfl | part
  · rw [if_pos rfl]
    exact maps.record.classOf
  · have unlike : handle ≠ table.handle := by
      rintro rfl
      obtain ⟨notArray, notVector⟩ := maps.apart
      rcases List.mem_cons.mp part with same | stored
      · exact notArray same
      · exact notVector (List.mem_singleton.mp stored)
    rw [if_neg unlike]
    exact maps.stores.lists.classOf_part part

/-- The parts of a table are compared by identity. -/
theorem plain : ∀ handle ∈ parts table bins, ∃ id,
    heap.classOf handle = .ok id ∧ id ∉ Key.contentClasses := by
  intro handle part
  refine ⟨_, maps.classOf_part part, ?_⟩
  split_ifs <;> decide

/-! ### Questions -/

theorem countWord : table.countWord heap = .ok bins.entries.length.toUInt64 :=
  maps.record.readFirst (Or.inr rfl)

theorem count : table.count heap = .ok bins.entries.length := by
  unfold RefTable.count
  rw [maps.countWord]
  exact congrArg Except.ok (toNat_toUInt64 maps.small_entries)

theorem isEmpty : table.isEmpty heap = .ok bins.entries.isEmpty := by
  unfold RefTable.isEmpty
  rw [maps.countWord]
  change Except.ok (bins.entries.length.toUInt64 == 0) = _
  congr 1
  rw [Bool.eq_iff_iff, beq_iff_eq, toUInt64_eq_zero_iff maps.small_entries, List.isEmpty_iff,
    List.length_eq_zero_iff]

theorem capacityWord : table.capacityWord heap = .ok bins.capacity.toUInt64 :=
  maps.record.readSecond (Or.inr rfl)

theorem capacity : table.capacity heap = .ok bins.capacity := by
  unfold RefTable.capacity
  rw [maps.capacityWord]
  exact congrArg Except.ok (toNat_toUInt64 maps.small_capacity)

theorem buckets : table.buckets heap = .ok bins.array := by
  have array := maps.stores.lists.record.classOf
  have read : heap.readRef table.handle bucketsOffset = .ok (some bins.array.handle) :=
    maps.record.readStorage (Or.inr rfl)
  unfold RefTable.buckets
  rw [read]
  exact RefArray.ofHandle_of_classOf array

/-- The entries of the buckets are read in bucket order. -/
theorem entriesFrom_eq (count : Nat) {index : UInt64} (rest : index.toNat + count ≤ bins.capacity) :
    table.entriesFrom heap bins.array index count =
      .ok (((List.range' index.toNat count).filterMap bins.buckets).map
        fun entry => (entry.key, entry.value)) := by
  induction count generalizing index with
  | zero => rfl
  | succ count ih =>
      have inside : index.toNat < bins.capacity := by omega
      have following := maps.stores.toNat_succ inside
      have later := @ih (index + 1) (by omega)
      rw [following] at later
      unfold RefTable.entriesFrom
      rw [maps.stores.getKey inside, later, List.range'_succ]
      cases taken : bins.buckets index.toNat with
      | none =>
          rw [List.filterMap_cons_none taken]
          rfl
      | some entry =>
          have value := maps.stores.getValue inside
          rw [taken] at value
          rw [List.filterMap_cons_some taken]
          dsimp only [Option.map, bind, Except.bind]
          rw [value]
          rfl

theorem entries : table.entries heap =
    .ok (bins.entries.map fun entry => (entry.key, entry.value)) := by
  unfold RefTable.entries
  rw [maps.buckets, maps.countWord, maps.capacity]
  have start : (0 : UInt64).toNat + bins.capacity ≤ bins.capacity := by
    rw [UInt64.toNat_zero, Nat.zero_add]
  have all := maps.entriesFrom_eq bins.capacity start
  rw [UInt64.toNat_zero, ← List.range_eq_range'] at all
  exact all

theorem keys : table.keys heap = .ok (bins.entries.map RefTable.Entry.key) := by
  unfold RefTable.keys
  rw [maps.entries]
  change Except.ok ((bins.entries.map fun entry => (entry.key, entry.value)).map Prod.fst) = _
  rw [List.map_map]
  rfl

end

/-- Looking for a key finds its bucket, or tells that the table does not have the key. -/
inductive Looks (bins : Bins) (identity : Key) : Option (RefArray × UInt64) → Prop
  | found {bucket : UInt64} {entry : RefTable.Entry} :
      bucket.toNat < bins.capacity → bins.buckets bucket.toNat = some entry →
        entry.identity = identity → Looks bins identity (some (bins.array, bucket))
  | missing : (∀ entry ∈ bins.entries, entry.identity ≠ identity) → Looks bins identity none

section

variable (maps : heap.Maps hash table bins) (sound : heap.Sound) {key : Handle} {identity : Key}

include maps sound

theorem find? (known : Key.ofHandle heap key = .ok identity) :
    ∃ result, table.find? heap key hash = .ok result ∧ Looks bins identity result := by
  obtain ⟨result, probed, finds⟩ :=
    maps.stores.probe sound known maps.fit.exists_vacant
  unfold RefTable.find?
  rw [maps.buckets, maps.capacityWord]
  dsimp only [bind, Except.bind]
  rw [probed]
  cases finds with
  | found inside taken same => exact ⟨_, rfl, Looks.found inside taken same⟩
  | vacant inside vacant passed =>
      refine ⟨_, rfl, Looks.missing ?_⟩
      intro entry member
      obtain ⟨position, within, taken⟩ := Bins.mem_entries.mp member
      exact passed.absent (bins.home_lt hash) maps.fit.probed inside vacant within taken

/-- A stale key is not looked for. -/
theorem find?_stale (stale : heap.isLive key = false) :
    table.find? heap key hash = .error (.staleHandle key) := by
  unfold RefTable.find? RefTable.probe RefTable.home
  rw [maps.buckets, maps.capacityWord, Key.ofHandle_stale sound stale]
  rfl

theorem get? (known : Key.ofHandle heap key = .ok identity) :
    table.get? heap key hash = .ok ((lookup bins.entries identity).map Prod.snd) := by
  obtain ⟨result, found, looks⟩ := maps.find? sound known
  unfold RefTable.get?
  rw [found]
  cases looks with
  | @found bucket entry inside taken same =>
      have value := maps.stores.getValue inside
      have listed : (⟨identity, entry.key, entry.value⟩ : RefTable.Entry) ∈ bins.entries := by
        rw [← same]
        exact Bins.mem_entries.mpr ⟨_, inside, taken⟩
      rw [taken] at value
      rw [(lookup_eq_some_iff maps.nodup).mpr listed]
      exact value
  | missing absent =>
      rw [lookup_eq_none_iff.mpr absent]
      rfl

theorem contains (known : Key.ofHandle heap key = .ok identity) :
    table.contains heap key hash = .ok (lookup bins.entries identity).isSome := by
  obtain ⟨result, found, looks⟩ := maps.find? sound known
  unfold RefTable.contains
  rw [found]
  cases looks with
  | @found bucket entry inside taken same =>
      have listed : (⟨identity, entry.key, entry.value⟩ : RefTable.Entry) ∈ bins.entries := by
        rw [← same]
        exact Bins.mem_entries.mpr ⟨_, inside, taken⟩
      rw [(lookup_eq_some_iff maps.nodup).mpr listed]
      rfl
  | missing absent =>
      rw [lookup_eq_none_iff.mpr absent]
      rfl

end

/-! ### Writing -/

section

variable (maps : heap.Maps hash table bins) (sound : heap.Sound)

include maps

/-- Writing the number of entries leaves the bucket array as it is. -/
theorem counted {middle : Heap} (others : Bins) (same : parts table others = parts table bins)
    (stores : middle.Stores others) (middleSound : middle.Sound)
    (record : middle.Record Registry.hashtableClass table.handle bins.entries.length.toUInt64
      bins.capacity.toUInt64 (some bins.array.handle))
    (sameCapacity : others.capacity = bins.capacity) (fit : others.Fit hash) :
    ∃ next, (Heap.writeWord table.handle countOffset others.entries.length.toUInt64).run middle =
        (.ok ⟨⟩, next) ∧
      middle.Alters next [table.handle] ∧ next.Maps hash table others := by
  obtain ⟨next, wrote, alters, recordToo⟩ := record.writeFirst (Or.inr rfl) middleSound
    others.entries.length.toUInt64
  have sameParts := List.cons.inj same
  have sameArray : others.array = bins.array := by
    have first := (List.cons.inj sameParts.2).1
    exact congrArg RefArray.mk first
  have apart : table.handle ∉ Lists.parts others.array (some others.backing) := by
    intro part
    have there : table.handle ∈ Lists.parts bins.array (some bins.backing) := by
      rw [← show Lists.parts others.array (some others.backing) = _ from sameParts.2]
      exact part
    rcases List.mem_cons.mp there with named | stored
    · exact maps.apart.1 named
    · exact maps.apart.2 (List.mem_singleton.mp stored)
  refine ⟨next, wrote, alters, ?_,
    stores.left_of_record middleSound alters (Or.inr rfl) record apart, fit⟩
  rw [sameCapacity, sameArray]
  exact recordToo

include sound

/-- The value of a key is replaced. -/
theorem replace {bucket : UInt64} {entry : RefTable.Entry} (inside : bucket.toNat < bins.capacity)
    (taken : bins.buckets bucket.toNat = some entry) {value : Handle}
    (live : heap.isLive value = true) :
    ∃ next others, (bins.array.set (valueIndex bucket) (some value)).run heap = (.ok ⟨⟩, next) ∧
      heap.Alters next (parts table bins) ∧ next.Maps hash table others ∧
      parts table others = parts table bins ∧
      lookup others.entries =
        Function.update (lookup bins.entries) entry.identity (some (entry.key, value)) := by
  obtain ⟨next, ran, alters, stores⟩ := maps.stores.replace sound inside taken live
  have taking : bins.entries.Perm
      (entry :: listed bins.capacity (Function.update bins.buckets bucket.toNat none)) :=
    listed_update_none inside taken
  have perm : (bins.set bucket.toNat (some { entry with value })).entries.Perm
      ({ entry with value } :: listed bins.capacity
        (Function.update bins.buckets bucket.toNat none)) := by
    have vacant := Function.update_self bucket.toNat none bins.buckets
    have filled := listed_update inside vacant { entry with value }
    rwa [Function.update_idem] at filled
  have length : (bins.set bucket.toNat (some { entry with value })).entries.length =
      bins.entries.length := by
    rw [perm.length_eq, taking.length_eq]
    rfl
  have fit : (bins.set bucket.toNat (some { entry with value })).Fit hash := by
    refine ⟨maps.fit.probed.replace taken rfl, ?_⟩
    rw [length]
    exact maps.fit.room
  have record := maps.record.congr (alters.views table.handle (by simp [maps.apart.2]))
  rw [← length] at record
  have distinct : ((bins.set bucket.toNat (some { entry with value })).entries.map
      RefTable.Entry.identity).Nodup := fit.probed.nodup
  refine ⟨next, _, ran, alters.mono (by simp [parts, Lists.parts]), ⟨record, stores, fit⟩, rfl, ?_⟩
  rw [lookup_perm distinct perm, lookup_cons, lookup_taken maps.nodup taking, Function.update_idem]

/-- A new key enters where there is room. -/
theorem enter {key value : Handle} {identity : Key}
    (known : Key.ofHandle heap key = .ok identity) (live : heap.isLive value = true)
    (absent : ∀ entry ∈ bins.entries, entry.identity ≠ identity)
    (room : bins.entries.length + 1 < bins.capacity) :
    ∃ next others, (table.enter bins.entries.length.toUInt64 key value hash).run heap =
        (.ok none, next) ∧
      heap.Alters next (parts table bins) ∧ next.Maps hash table others ∧
      parts table others = parts table bins ∧
      lookup others.entries =
        Function.update (lookup bins.entries) identity (some (key, value)) := by
  have entered := maps.stores.enter sound maps.fit
    (show Key.ofHandle heap (RefTable.Entry.mk identity key value).key = .ok identity from known)
    live absent
  obtain ⟨slot, middle, probed, ran, alters, stores, found, perm⟩ := entered
  have length : (bins.set slot.toNat (some ⟨identity, key, value⟩)).entries.length =
      bins.entries.length + 1 := perm.length_eq
  have record := maps.record.congr (alters.views table.handle (by simp [maps.apart.2]))
  have fit : (bins.set slot.toNat (some ⟨identity, key, value⟩)).Fit hash :=
    ⟨found, by rw [length]; exact room⟩
  obtain ⟨next, wrote, altersToo, done⟩ :=
    maps.counted (bins.set slot.toNat (some ⟨identity, key, value⟩)) rfl stores (alters.sound sound)
      record rfl fit
  have word : (bins.set slot.toNat (some ⟨identity, key, value⟩)).entries.length.toUInt64 =
      bins.entries.length.toUInt64 + 1 := by
    rw [length]
    simp
  rw [word] at wrote
  refine ⟨next, _, ?_, (alters.trans altersToo).mono (by simp [parts, Lists.parts]), done, rfl, ?_⟩
  · unfold RefTable.enter
    rw [HeapM.run_bind, HeapM.run_ask, maps.buckets]
    dsimp only
    rw [HeapM.run_bind, HeapM.run_ask, maps.capacityWord]
    dsimp only
    rw [HeapM.run_bind, HeapM.run_ask, probed]
    dsimp only
    rw [HeapM.run_bind, ran]
    dsimp only
    rw [HeapM.run_bind, wrote]
    rfl
  · rw [lookup_perm done.nodup perm, lookup_cons]

/-- An entry is taken out of a table, and one entry less is counted. -/
theorem takeOut {bucket : UInt64} {entry : RefTable.Entry} (inside : bucket.toNat < bins.capacity)
    (taken : bins.buckets bucket.toNat = some entry) :
    ∃ final shifted cleared next others,
      (shiftBack bins.array (bins.capacity.toUInt64 - 1) bucket
        ((bucket + 1) &&& (bins.capacity.toUInt64 - 1)) ((bins.capacity.toUInt64 - 1).toNat + 1)
        hash).run heap = (.ok final, shifted) ∧
      (fillBucket bins.array final none none).run shifted = (.ok ⟨⟩, cleared) ∧
      table.countWord cleared = .ok bins.entries.length.toUInt64 ∧
      (Heap.writeWord table.handle countOffset (bins.entries.length.toUInt64 - 1)).run cleared =
        (.ok ⟨⟩, next) ∧
      heap.Alters next (parts table bins) ∧ next.Maps hash table others ∧
      parts table others = parts table bins ∧ bins.entries.Perm (entry :: others.entries) := by
  obtain ⟨final, shifted, cleared, buckets, ran, emptied, alters, stores, probed, perm⟩ :=
    maps.stores.takeOut sound maps.fit inside taken
  have record := maps.record.congr (alters.views table.handle (by simp [maps.apart.2]))
  have fewer : bins.entries.Perm (entry :: Bins.entries { bins with buckets }) :=
    (listed_update_none inside taken).trans (List.Perm.cons entry perm.symm)
  have length : bins.entries.length = (Bins.entries { bins with buckets }).length + 1 :=
    fewer.length_eq
  have fit : Bins.Fit { bins with buckets } hash := by
    refine ⟨probed, ?_⟩
    have room := maps.fit.room
    change _ < bins.capacity
    omega
  obtain ⟨next, wrote, counted, done⟩ :=
    maps.counted { bins with buckets } rfl stores (alters.sound sound) record rfl fit
  have word : bins.entries.length.toUInt64 - 1 =
      (Bins.entries { bins with buckets }).length.toUInt64 := by
    rw [length]
    simp
  rw [← word] at wrote
  exact ⟨final, shifted, cleared, next, _, ran, emptied, record.readFirst (Or.inr rfl), wrote,
    (alters.trans counted).mono (by simp [parts, Lists.parts]), done, rfl, fewer⟩

/-- A key is removed. -/
theorem remove {key : Handle} {identity : Key} (known : Key.ofHandle heap key = .ok identity) :
    ∃ next others, (table.remove key hash).run heap =
        (.ok ((lookup bins.entries identity).map Prod.snd), next) ∧
      heap.Alters next (parts table bins) ∧ next.Maps hash table others ∧
      parts table others = parts table bins ∧
      lookup others.entries = Function.update (lookup bins.entries) identity none := by
  obtain ⟨result, found, looks⟩ := maps.find? sound known
  unfold RefTable.remove
  rw [HeapM.run_bind, HeapM.run_ask, found]
  cases looks with
  | missing absent =>
      have none := lookup_eq_none_iff.mpr absent
      refine ⟨heap, bins, ?_, (Alters.refl heap).mono (by simp), maps, rfl, ?_⟩
      · rw [none]
        rfl
      · rw [← none, Function.update_eq_self]
  | @found bucket entry inside taken same =>
      have value := maps.stores.getValue inside
      rw [taken] at value
      obtain ⟨final, shifted, cleared, next, others, ran, emptied, counted, wrote, alters, done,
        sameParts, perm⟩ := maps.takeOut sound inside taken
      have there : lookup bins.entries identity = some (entry.key, entry.value) := by
        rw [← same, lookup_perm maps.nodup perm, lookup_cons, Function.update_self]
      refine ⟨next, others, ?_, alters, done, sameParts, by rw [lookup_taken maps.nodup perm, same]⟩
      dsimp only
      rw [HeapM.run_bind, HeapM.run_ask, value]
      dsimp only [Option.map]
      rw [HeapM.run_bind, HeapM.run_ask, maps.capacityWord]
      dsimp only
      rw [HeapM.run_bind, ran]
      dsimp only
      rw [HeapM.run_bind, emptied]
      dsimp only
      rw [HeapM.run_bind, HeapM.run_ask, counted]
      dsimp only
      rw [HeapM.run_bind, wrote, there]
      rfl

end

end Maps

end Heap

end CompactingHeap
