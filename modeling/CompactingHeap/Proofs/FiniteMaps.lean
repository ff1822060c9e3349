import CompactingHeap.Proofs.GrowableLists
import CompactingHeap.Proofs.GrowingTables

/-!
# Tables are finite maps

From its making on a table behaves as a finite map from keys to values, whatever goes on in the
heap meanwhile, as long as its handle lasts and nothing else writes it, its bucket array or one of
its keys that are compared by content.  A history of a table follows the heap through the changes
of the table and the operations elsewhere, together with the map that the changes amount to.  There
is always a vacant bucket, so that every probe ends.
-/

namespace CompactingHeap

open Heap

namespace RefTable

/-! ## Changes of a map -/

/-- The operations that change a table. -/
inductive Change where
  | insert (key value : Handle)
  | remove (key : Handle)

namespace Change

/-- The program of a change.  It answers what value is replaced or removed. -/
def program (table : RefTable) (hash : Key → UInt64) : Change → HeapM (Option Handle)
  | insert key value => table.insert key value hash
  | remove key => table.remove key hash

/-- The key that a change is about. -/
def key : Change → Handle
  | insert key _ => key
  | remove key => key

/-- The objects that a change names. -/
def operands : Change → List Handle
  | insert key value => [value, key]
  | remove key => [key]

/-- The objects that a change holds while the table grows. -/
def held (table : RefTable) : Change → List Handle
  | insert key value => [table.handle, key, value]
  | remove _ => []

/-- What a change does to a map, which gives for each key what the table stores: the first key that
was inserted for it, and its value. -/
def apply (identity : Key) (map : Key → Option (Handle × Handle)) :
    Change → Key → Option (Handle × Handle)
  | insert key value => Function.update map identity
      (some (((map identity).map Prod.fst).getD key, value))
  | remove _ => Function.update map identity none

theorem tame_program (table : RefTable) (hash : Key → UInt64) (change : Change) :
    Tame (change.program table hash) := by
  cases change with
  | insert key value => exact table.tame_insert key value hash
  | remove key => exact table.tame_remove key hash

end Change

end RefTable

namespace Heap

variable {heap next : Heap} {hash : Key → UInt64} {table : RefTable} {bins : RefTable.Bins}

/-- A table that is written where it is leaves everything steady. -/
theorem Maps.steady {others : RefTable.Bins} (maps : heap.Maps hash table bins) (sound : heap.Sound)
    (alters : heap.Alters next (Maps.parts table bins)) (written : next.Maps hash table others)
    (same : Maps.parts table others = Maps.parts table bins) : heap.Steady next [] := by
  have stored := (List.cons.inj same).2
  have arrays := (List.cons.inj stored).1
  apply alters.steady sound
  intro handle part
  rcases List.mem_cons.mp part with rfl | part
  · exact ⟨.hashtable, by decide, maps.record.classOf, written.record.classOf⟩
  · refine ⟨_, ?_, maps.stores.lists.classOf_part part, ?_⟩
    · split <;> decide
    · rw [← arrays]
      exact written.stores.lists.classOf_part (stored ▸ part)

/-- What a change of a table that owns its buckets does.  The holds balance, unless a count comes
to its bound. -/
inductive ChangesBins (heap : Heap) (hash : Key → UInt64) (table : RefTable)
    (bins : RefTable.Bins) (change : RefTable.Change) :
    Except HeapError (Option Handle) × Heap → Prop
  | refused {handle : Handle} : handle ∈ change.operands → heap.isLive handle = false →
      ChangesBins heap hash table bins change (.error (.staleHandle handle), heap)
  | done {identity : Key} {others : RefTable.Bins} {next : Heap} :
      (∀ handle ∈ change.operands, heap.isLive handle = true) →
        Key.ofHandle heap change.key = .ok identity → next.Sound →
        next.OwnsBins hash table others →
        RefTable.lookup others.entries = change.apply identity (RefTable.lookup bins.entries) →
        (heap.Holdable (change.held table) → heap.Steady next []) →
        ChangesBins heap hash table bins change
          (.ok ((RefTable.lookup bins.entries identity).map Prod.snd), next)
  | failed {key value : Handle} {error : HeapError} {next : Heap} : change = .insert key value →
      (∀ handle ∈ change.operands, heap.isLive handle = true) →
        heap.Unentered next hash table bins key value error →
        (heap.Holdable (change.held table) → heap.Undone next) →
        ChangesBins heap hash table bins change (.error error, next)

/-- The class of a stale object cannot be told. -/
theorem Sound.classOf_stale (sound : heap.Sound) {handle : Handle}
    (stale : heap.isLive handle = false) : heap.classOf handle = .error (.staleHandle handle) := by
  unfold Heap.classOf
  rw [sound.objectOf_stale (sound.isLive_eq_false_iff.mp stale)]
  rfl

theorem Sound.exists_classOf (sound : heap.Sound) {handle : Handle}
    (live : heap.isLive handle = true) : ∃ id, heap.classOf handle = .ok id := by
  obtain ⟨view, seen⟩ := sound.isLive_iff.mp live
  exact ⟨_, classOf_of_view seen⟩

/-- Inserting a key that a table has: its value is replaced. -/
theorem OwnsBins.insertKnown {key value : Handle} (owns : heap.OwnsBins hash table bins)
    (sound : heap.Sound) {identity : Key}
    (live : ∀ handle ∈ (RefTable.Change.insert key value).operands, heap.isLive handle = true)
    (known : Key.ofHandle heap key = .ok identity) {bucket : UInt64} {entry : RefTable.Entry}
    (inside : bucket.toNat < bins.capacity) (taken : bins.buckets bucket.toNat = some entry)
    (same : entry.identity = identity) :
    heap.ChangesBins hash table bins (.insert key value) ((do
      let previous ← HeapM.ask fun heap => bins.array.get heap (RefTable.valueIndex bucket)
      bins.array.set (RefTable.valueIndex bucket) (some value)
      return previous : HeapM (Option Handle)).run heap) := by
  have there : RefTable.lookup bins.entries identity = some (entry.key, entry.value) := by
    rw [RefTable.lookup_eq_some_iff owns.maps.nodup, ← same]
    exact RefTable.Bins.mem_entries.mpr ⟨_, inside, taken⟩
  have previous := owns.maps.stores.getValue inside
  rw [taken] at previous
  obtain ⟨next, others, ran, alters, done, parts, updated⟩ :=
    owns.maps.replace sound inside taken (live value List.mem_cons_self)
  rw [HeapM.run_bind, HeapM.run_ask, previous]
  dsimp only
  rw [HeapM.run_bind, ran]
  dsimp only
  have answer : some entry.value = (RefTable.lookup bins.entries identity).map Prod.snd := by
    rw [there]
    rfl
  change heap.ChangesBins hash table bins _ (.ok (some entry.value), next)
  rw [answer]
  apply ChangesBins.done live known (alters.sound sound) (owns.written sound alters done parts)
  · rw [updated, same]
    unfold RefTable.Change.apply
    rw [there]
    rfl
  · exact fun _ => owns.maps.steady sound alters done parts

section

variable {key value : Handle} {roots : List Handle}
  (stays : heap.Holdable [table.handle, key, value] ∨ table.handle ∈ roots)

include stays

/-- Inserting a key that a table does not have: room is made, and the key enters. -/
theorem OwnsBins.insertNew (owns : heap.OwnsBins hash table bins) (loadable : Loadable heap.config)
    {identity : Key}
    (live : ∀ handle ∈ (RefTable.Change.insert key value).operands, heap.isLive handle = true)
    (known : Key.ofHandle heap key = .ok identity)
    (absent : ∀ entry ∈ bins.entries, entry.identity ≠ identity)
    (assured : heap.Assured ((table.makeRoom bins.entries.length.toUInt64 key value hash >>=
      fun _ => table.enter bins.entries.length.toUInt64 key value hash).run heap).2 roots) :
    heap.ChangesBins hash table bins (.insert key value)
      ((table.makeRoom bins.entries.length.toUInt64 key value hash >>= fun _ =>
        table.enter bins.entries.length.toUInt64 key value hash).run heap) := by
  have none := RefTable.lookup_eq_none_iff.mpr absent
  have stages := assured.stages
    (table.tame_makeRoom bins.entries.length.toUInt64 key value hash)
    fun _ => table.tame_enter bins.entries.length.toUInt64 key value hash
  have makes := owns.makeRoom stays loadable known (live value List.mem_cons_self)
  generalize (table.makeRoom bins.entries.length.toUInt64 key value hash >>= fun _ =>
    table.enter bins.entries.length.toUInt64 key value hash).run heap = outcome at stages ⊢
  cases stages with
  | stopped ran assuredFirst =>
      rw [ran] at makes
      cases makes assuredFirst with
      | failed unentered undone => exact ChangesBins.failed rfl live unentered undone
  | @went _ middle ran assuredFirst assuredRest =>
      rw [ran] at makes
      cases makes assuredFirst with
      | @made others _ grown perm room knownThen liveThen steady =>
          have still := RefTable.lookup_perm grown.maps.nodup perm
          have absentThen : ∀ entry ∈ others.entries, entry.identity ≠ identity :=
            fun entry listed => absent entry (perm.mem_iff.mp listed)
          obtain ⟨next, last, entered, alters, done, parts, updated⟩ :=
            grown.maps.enter assuredRest.sound knownThen liveThen absentThen room
          have answer : (Option.none : Option Handle) =
              (RefTable.lookup bins.entries identity).map Prod.snd := by
            rw [none]
            rfl
          rw [← perm.length_eq, entered, answer]
          apply ChangesBins.done live known (alters.sound assuredRest.sound)
            (grown.written assuredRest.sound alters done parts)
          · rw [updated, still]
            unfold RefTable.Change.apply
            rw [none]
            rfl
          · exact fun room =>
              (steady room).trans (grown.maps.steady assuredRest.sound alters done parts)

/-- Inserting into a table that owns its buckets. -/
theorem OwnsBins.insert (owns : heap.OwnsBins hash table bins) (loadable : Loadable heap.config)
    (assured : heap.Assured ((table.insert key value hash).run heap).2 roots) :
    heap.ChangesBins hash table bins (.insert key value)
      ((table.insert key value hash).run heap) := by
  have maps := owns.maps
  have sound := assured.sound
  unfold RefTable.insert at assured ⊢
  rw [HeapM.run_bind, HeapM.run_ask] at assured ⊢
  cases live : heap.isLive value with
  | false =>
      rw [sound.classOf_stale live]
      exact ChangesBins.refused List.mem_cons_self live
  | true =>
      obtain ⟨id, classed⟩ := sound.exists_classOf live
      rw [classed] at assured ⊢
      dsimp only at assured ⊢
      rw [HeapM.run_bind, HeapM.run_ask] at assured ⊢
      cases liveKey : heap.isLive key with
      | false =>
          rw [maps.find?_stale sound liveKey]
          exact ChangesBins.refused (by simp [RefTable.Change.operands]) liveKey
      | true =>
          obtain ⟨identity, known⟩ := Key.exists_ofHandle sound owns.apart.sane liveKey
          have operands : ∀ handle ∈ (RefTable.Change.insert key value).operands,
              heap.isLive handle = true := by
            simp [RefTable.Change.operands, live, liveKey]
          obtain ⟨result, found, looks⟩ := maps.find? sound known
          rw [found] at assured ⊢
          dsimp only at assured ⊢
          cases looks with
          | found inside taken same =>
              exact owns.insertKnown sound operands known inside taken same
          | missing absent =>
              rw [HeapM.run_bind, HeapM.run_ask, maps.countWord] at assured ⊢
              dsimp only at assured ⊢
              exact owns.insertNew stays loadable operands known absent assured

end

/-- Removing from a table that owns its buckets. -/
theorem OwnsBins.remove (owns : heap.OwnsBins hash table bins) (sound : heap.Sound) (key : Handle) :
    heap.ChangesBins hash table bins (.remove key) ((table.remove key hash).run heap) := by
  cases live : heap.isLive key with
  | false =>
      unfold RefTable.remove
      rw [HeapM.run_bind, HeapM.run_ask, owns.maps.find?_stale sound live]
      exact ChangesBins.refused List.mem_cons_self live
  | true =>
      obtain ⟨identity, known⟩ := Key.exists_ofHandle sound owns.apart.sane live
      obtain ⟨next, others, ran, alters, done, parts, updated⟩ := owns.maps.remove sound known
      rw [ran]
      exact ChangesBins.done (by simpa [RefTable.Change.operands] using live) known
        (alters.sound sound) (owns.written sound alters done parts) updated
        fun _ => owns.maps.steady sound alters done parts

/-- A step of a map is what a change of a table that owns its buckets is. -/
theorem OwnsBins.change (owns : heap.OwnsBins hash table bins) (loadable : Loadable heap.config)
    (change : RefTable.Change) {roots : List Handle}
    (stays : heap.Holdable (change.held table) ∨ table.handle ∈ roots)
    (assured : heap.Assured ((change.program table hash).run heap).2 roots) :
    heap.ChangesBins hash table bins change ((change.program table hash).run heap) := by
  cases change with
  | insert key value => exact owns.insert stays loadable assured
  | remove key => exact owns.remove assured.sound key

end Heap

namespace RefTable

/-! ## Histories -/

/-- The objects that a table consists of: its own, its bucket array and the run that backs it. -/
def parts (table : RefTable) (heap : Heap) : List Handle :=
  match table.buckets heap with
  | .ok array => table.handle :: array.parts heap
  | .error _ => [table.handle]

/-- The keys of a table that are compared by content. -/
def contentKeys (table : RefTable) (heap : Heap) : List Handle :=
  match table.keys heap with
  | .ok keys => keys.filter fun key =>
      match heap.classOf key with
      | .ok id => id ∈ Key.contentClasses
      | .error _ => false
  | .error _ => []

/-- The heaps that lead on from the making of a table, with the map that its changes amount to.
The table lasts throughout, and it is used with one hash function. -/
inductive History (hash : Key → UInt64) (table : RefTable) :
    Heap → (Key → Option (Handle × Handle)) → Prop
  | made {heap next : Heap} (capacity : Nat) :
      heap.Reachable → Binary.Format.single.Admits heap.config.tableLoadFactor →
        (withCapacity capacity).run heap = (.ok table, next) → next.handles.slots < 2 ^ 32 →
        History hash table next fun _ => none
  | created {heap next : Heap} :
      heap.Reachable → Binary.Format.single.Admits heap.config.tableLoadFactor →
        new.run heap = (.ok table, next) → next.handles.slots < 2 ^ 32 →
        History hash table next fun _ => none
  | changed {heap next : Heap} {map : Key → Option (Handle × Handle)} (change : Change)
      {identity : Key} {answer : Option Handle} :
      History hash table heap map → Key.ofHandle heap change.key = .ok identity →
        (change.program table hash).run heap = (.ok answer, next) →
        next.handles.slots < 2 ^ 32 → heap.Lasting next [table.handle] →
        History hash table next (change.apply identity map)
  | failed {heap next : Heap} {map : Key → Option (Handle × Handle)} (change : Change)
      {error : HeapError} :
      History hash table heap map → (change.program table hash).run heap = (.error error, next) →
        next.handles.slots < 2 ^ 32 → heap.Lasting next [table.handle] → History hash table next map
  | elsewhere {heap next : Heap} {map : Key → Option (Handle × Handle)} {α : Type}
      {operation : HeapM α} :
      History hash table heap map →
        heap.Elsewhere (table.parts heap) (table.contentKeys heap) operation →
        (operation.run heap).2 = next → next.handles.slots < 2 ^ 32 →
        heap.Lasting next [table.handle] → History hash table next map

/-- The table shows the listed entries, each key once, and they are the given map. -/
structure Shows (table : RefTable) (heap : Heap) (map : Key → Option (Handle × Handle))
    (contents : List Entry) : Prop where
  distinct : (contents.map Entry.identity).Nodup
  looksUp : lookup contents = map
  keyed : ∀ entry ∈ contents, Key.ofHandle heap entry.key = .ok entry.identity
  live : ∀ entry ∈ contents, heap.isLive entry.key = true ∧ heap.isLive entry.value = true
  count : table.count heap = .ok contents.length
  isEmpty : table.isEmpty heap = .ok contents.isEmpty
  entries : table.entries heap = .ok (contents.map fun entry => (entry.key, entry.value))
  keys : table.keys heap = .ok (contents.map Entry.key)

/-- The bucket array has two elements for each bucket, a power of two of them: the key and the
value of the entry in it, or nothing if it is vacant.  There are fewer entries than buckets, so
that a bucket is vacant. -/
structure Layout (table : RefTable) (heap : Heap) (contents : List Entry) (power : Nat)
    (array : RefArray) (buckets : Nat → Option Entry) : Prop where
  capacity : table.capacity heap = .ok (2 ^ power)
  refers : table.buckets heap = .ok array
  length : array.length heap = .ok (2 * 2 ^ power)
  listed : contents = listed (2 ^ power) buckets
  keyOf : ∀ position < 2 ^ power,
    array.get heap (2 * position) = .ok ((buckets position).map Entry.key)
  valueOf : ∀ position < 2 ^ power,
    array.get heap (2 * position + 1) = .ok ((buckets position).map Entry.value)
  room : contents.length < 2 ^ power
  vacant : ∃ position < 2 ^ power, buckets position = none

/-- What becomes of a change of a table that shows a map.  It is refused because an object that it
names is stale, and the heap is left alone; or it does to the table what it does to the map; or an
insertion fails and leaves the map as it was.  In the last case memory has run out, or a count of
holds has come to its bound. -/
inductive Outcome (hash : Key → UInt64) (table : RefTable) (heap : Heap)
    (map : Key → Option (Handle × Handle)) (change : Change) :
    Except HeapError (Option Handle) × Heap → Prop
  | refused {handle : Handle} : handle ∈ change.operands → heap.isLive handle = false →
      Outcome hash table heap map change (.error (.staleHandle handle), heap)
  | done {identity : Key} {contents : List Entry} {next : Heap} :
      (∀ handle ∈ change.operands, heap.isLive handle = true) →
        Key.ofHandle heap change.key = .ok identity →
        table.Shows next (change.apply identity map) contents →
        Outcome hash table heap map change (.ok ((map identity).map Prod.snd), next)
  | failed {key value : Handle} {contents : List Entry} {error : HeapError} {next : Heap} :
      change = .insert key value → (∀ handle ∈ change.operands, heap.isLive handle = true) →
        table.Shows next map contents →
        (error.IsOutOfMemory ∨ ¬ heap.Holdable [table.handle, key, value] ∧
          ∃ handle, error = .staleHandle handle ∨ error = .notRooted handle) →
        Outcome hash table heap map change (.error error, next)

/-- The table shows the map and changes as the map does. -/
structure ActsAsMap (hash : Key → UInt64) (table : RefTable) (heap : Heap)
    (map : Key → Option (Handle × Handle)) : Prop where
  shows : ∃ contents power array buckets,
    table.Shows heap map contents ∧ table.Layout heap contents power array buckets
  keyed : ∀ key, heap.isLive key = true → ∃ identity, Key.ofHandle heap key = .ok identity
  get : ∀ key identity, Key.ofHandle heap key = .ok identity →
    table.get? heap key hash = .ok ((map identity).map Prod.snd)
  contains : ∀ key identity, Key.ofHandle heap key = .ok identity →
    table.contains heap key hash = .ok (map identity).isSome
  stale : ∀ key, heap.isLive key = false →
    table.get? heap key hash = .error (.staleHandle key) ∧
      table.contains heap key hash = .error (.staleHandle key)
  outcome : ∀ change, ((change.program table hash).run heap).2.handles.slots < 2 ^ 32 →
    heap.Lasting ((change.program table hash).run heap).2 [table.handle] →
      Outcome hash table heap map change ((change.program table hash).run heap)

end RefTable

namespace Heap

section

variable {heap next : Heap} {hash : Key → UInt64} {table : RefTable} {bins : RefTable.Bins}

theorem Maps.parts_eq (maps : heap.Maps hash table bins) :
    table.parts heap = Maps.parts table bins := by
  unfold RefTable.parts
  rw [maps.buckets]
  dsimp only
  rw [maps.stores.lists.parts_eq]
  rfl

theorem Maps.contentKeys_eq (maps : heap.Maps hash table bins) (sound : heap.Sound) :
    table.contentKeys heap = Maps.contentKeys bins := by
  unfold RefTable.contentKeys
  rw [maps.keys]
  dsimp only
  rw [List.filter_map]
  unfold Maps.contentKeys
  apply congrArg
  apply List.filter_congr
  intro entry member
  have named := (Key.classOf_of_ofHandle sound (maps.stores.keys entry member)).1
  simp only [Function.comp_apply, named]

theorem Maps.shows (maps : heap.Maps hash table bins) :
    table.Shows heap (RefTable.lookup bins.entries) bins.entries where
  distinct := maps.nodup
  looksUp := rfl
  keyed := maps.stores.keys
  live entry member := by
    obtain ⟨position, inside, taken⟩ := RefTable.Bins.mem_entries.mp member
    exact maps.stores.isLive inside taken
  count := maps.count
  isEmpty := maps.isEmpty
  entries := maps.entries
  keys := maps.keys

theorem Maps.layout (maps : heap.Maps hash table bins) :
    table.Layout heap bins.entries bins.power bins.array bins.buckets where
  capacity := maps.capacity
  refers := maps.buckets
  length := by
    rw [maps.stores.lists.length, bins.length_cells]
    rfl
  listed := rfl
  keyOf position inside := by
    rw [maps.stores.lists.get, RefTable.Bins.getElem?_cells_key inside]
  valueOf position inside := by
    rw [maps.stores.lists.get, RefTable.Bins.getElem?_cells_value inside]
  room := maps.fit.room
  vacant := maps.fit.exists_vacant

/-- A table that owns its buckets acts as a map. -/
theorem OwnsBins.behavesAsMap (owns : heap.OwnsBins hash table bins) (sound : heap.Sound)
    (numbered : heap.classes.Numbered) (loadable : Loadable heap.config) :
    table.ActsAsMap hash heap (RefTable.lookup bins.entries) where
  shows := ⟨_, _, _, _, owns.maps.shows, owns.maps.layout⟩
  keyed _ live := Key.exists_ofHandle sound owns.apart.sane live
  get _ _ known := owns.maps.get? sound known
  contains _ _ known := owns.maps.contains sound known
  stale key stale := by
    have missed := owns.maps.find?_stale sound stale
    unfold RefTable.get? RefTable.contains
    rw [missed]
    exact ⟨rfl, rfl⟩
  outcome change bounded lasting := by
    have changes := owns.change loadable change (Or.inr List.mem_cons_self)
      ⟨sound, numbered, bounded, lasting⟩
    generalize (change.program table hash).run heap = result at changes
    cases changes with
    | refused listed stale => exact RefTable.Outcome.refused listed stale
    | done live known _ changed updated _ =>
        have shows := changed.maps.shows
        rw [updated] at shows
        exact RefTable.Outcome.done live known shows
    | failed same live unentered _ =>
        obtain ⟨others, kept, perm⟩ := unentered.owns
        have shows := kept.maps.shows
        rw [RefTable.lookup_perm kept.maps.nodup perm] at shows
        exact RefTable.Outcome.failed same live shows unentered.reason

end

end Heap

namespace RefTable

variable {hash : Key → UInt64} {table : RefTable} {heap next : Heap}
  {map : Key → Option (Handle × Handle)}

/-- What is known of a table throughout its history: it owns its buckets, and these hold the
entries of the map. -/
structure Keeps (hash : Key → UInt64) (table : RefTable) (heap : Heap)
    (map : Key → Option (Handle × Handle)) : Prop where
  sound : heap.Sound
  numbered : heap.classes.Numbered
  loadable : Loadable heap.config
  owns : ∃ bins, heap.OwnsBins hash table bins ∧ lookup bins.entries = map

/-- The settings do not change while a program runs. -/
theorem Keeps.of_course (keeps : table.Keeps hash heap map) {α : Type} {program : HeapM α}
    (tame : Tame program) (bounded : (program.run heap).2.handles.slots < 2 ^ 32) :
    (program.run heap).2.Sound ∧ (program.run heap).2.classes.Numbered ∧
      Loadable (program.run heap).2.config := by
  obtain ⟨log, course⟩ := tame.course heap keeps.sound bounded
  obtain ⟨config, numbered⟩ := course.settings keeps.sound bounded
  exact ⟨tame.sound keeps.sound bounded, numbered keeps.numbered, config ▸ keeps.loadable⟩

/-- A change that has been run is a step of the map, and what else is known of the heap remains. -/
theorem Keeps.change_of_run (keeps : table.Keeps hash heap map) {bins : Bins}
    (owns : heap.OwnsBins hash table bins) (change : Change)
    {result : Except HeapError (Option Handle)}
    (ran : (change.program table hash).run heap = (result, next))
    (bounded : next.handles.slots < 2 ^ 32) (lasting : heap.Lasting next [table.handle]) :
    (next.Sound ∧ next.classes.Numbered ∧ Loadable next.config) ∧
      heap.ChangesBins hash table bins change (result, next) := by
  have assured : heap.Assured ((change.program table hash).run heap).2 [table.handle] :=
    ⟨keeps.sound, keeps.numbered, by rw [ran]; exact bounded, by rw [ran]; exact lasting⟩
  have changes := owns.change keeps.loadable change (Or.inr List.mem_cons_self) assured
  have after := keeps.of_course (change.tame_program table hash) assured.bounded
  rw [ran] at changes after
  exact ⟨after, changes⟩

/-- A new table owns its buckets. -/
theorem keeps_of_made {capacity : Nat} (reachable : heap.Reachable)
    (admits : Binary.Format.single.Admits heap.config.tableLoadFactor)
    (ran : (withCapacity capacity).run heap = (.ok table, next))
    (bounded : next.handles.slots < 2 ^ 32) : table.Keeps hash next fun _ => none := by
  have accepted : heap.config.flaw? = none :=
    Config.validate_eq_ok_iff.mp reachable.settings.1
  have tame := tame_withCapacity capacity
  have small : ((withCapacity capacity).run heap).2.handles.slots < 2 ^ 32 := by
    rw [ran]
    exact bounded
  obtain ⟨log, course⟩ := tame.course heap reachable.sound small
  obtain ⟨config, numbered⟩ := course.settings reachable.sound small
  have nextSound := tame.sound reachable.sound small
  have makes : heap.MakesTable hash capacity ((withCapacity capacity).run heap) :=
    (reachable.assured small).madeTable
  rw [ran] at config numbered nextSound makes
  cases makes with
  | made _ made =>
      refine ⟨nextSound, numbered reachable.settings.2, ?_, _,
        OwnsBins.of_made reachable.apart made, ?_⟩
      · rw [show next.config = heap.config from config]
        exact ⟨accepted, admits⟩
      · rw [Bins.entries_vacant]
        rfl

theorem History.keeps (history : table.History hash heap map) : table.Keeps hash heap map := by
  induction history with
  | made capacity reachable admits ran bounded => exact keeps_of_made reachable admits ran bounded
  | created reachable admits ran bounded =>
      unfold RefTable.new at ran
      rw [HeapM.run_bind, HeapM.run_get] at ran
      exact keeps_of_made reachable admits ran bounded
  | @changed heap next map change identity answer _ known ran bounded lasting ih =>
      obtain ⟨bins, owns, rfl⟩ := ih.owns
      obtain ⟨⟨sound, numbered, loadable⟩, changes⟩ :=
        ih.change_of_run owns change ran bounded lasting
      cases changes with
      | done _ knownToo _ owned updated _ =>
          rw [known] at knownToo
          cases knownToo
          exact ⟨sound, numbered, loadable, _, owned, updated⟩
  | @failed heap next map change error _ ran bounded lasting ih =>
      obtain ⟨bins, owns, rfl⟩ := ih.owns
      obtain ⟨⟨sound, numbered, loadable⟩, changes⟩ :=
        ih.change_of_run owns change ran bounded lasting
      cases changes with
      | refused _ _ => exact ih
      | failed _ _ unentered _ =>
          obtain ⟨others, owned, perm⟩ := unentered.owns
          exact ⟨sound, numbered, loadable, others, owned, lookup_perm owned.maps.nodup perm⟩
  | @elsewhere heap next map _ operation _ elsewhere same bounded lasting ih =>
      obtain ⟨bins, owns, rfl⟩ := ih.owns
      subst same
      rw [owns.maps.parts_eq, owns.maps.contentKeys_eq ih.sound] at elsewhere
      have guarded := (owns.maps.compound ih.sound owns.apart.sane).guarded ih.sound owns.apart
      have tame := (elsewhere.keeps ((owns.maps.compound ih.sound owns.apart.sane).within ih.sound)
        guarded).1
      have after := ih.of_course tame bounded
      obtain ⟨_, _, still⟩ := owns.elsewhere elsewhere ⟨ih.sound, ih.numbered, bounded, lasting⟩
      exact ⟨after.1, after.2.1, after.2.2, bins, still, rfl⟩

/-- A table is a finite map: throughout its history it shows the map that its changes amount to. -/
theorem History.actsAsMap (history : table.History hash heap map) :
    table.ActsAsMap hash heap map := by
  have keeps := history.keeps
  obtain ⟨bins, owns, rfl⟩ := keeps.owns
  exact owns.behavesAsMap keeps.sound keeps.numbered keeps.loadable

/-! ## A history, and a table that is not left alone -/

/-- A heap with a new table of one bucket. -/
def begun : Heap :=
  ((withCapacity 1).run (blank {})).2

/-- Two integers have been allocated beside the table. -/
def furnished : Heap :=
  ((Heap.allocInt 8).run ((Heap.allocInt 7).run begun).2).2

/-- The first integer has been mapped to the second one, which took two buckets. -/
def inserted : Heap :=
  ((Change.program ⟨⟨0, 0⟩⟩ Key.hash (.insert ⟨3, 0⟩ ⟨4, 0⟩)).run furnished).2

/-- The hold on the first integer has been given up. -/
def released : Heap :=
  ((Heap.release ⟨3, 0⟩).run inserted).2

/-- A collection has run. -/
def collected : Heap :=
  (Heap.collect.run released).2

theorem history_collected : History Key.hash ⟨⟨0, 0⟩⟩ collected
    (Function.update (fun _ => none) (.int 7) (some (⟨3, 0⟩, ⟨4, 0⟩))) := by
  have ran : (withCapacity 1).run (blank {}) = (.ok ⟨⟨0, 0⟩⟩, begun) :=
    Prod.ext (by decide +kernel) (by rw [begun])
  have start : History Key.hash ⟨⟨0, 0⟩⟩ begun fun _ => none :=
    History.made 1 (reachable_blank (by decide +kernel)) (by decide +kernel) ran (by decide +kernel)
  have first : History Key.hash ⟨⟨0, 0⟩⟩ ((Heap.allocInt 7).run begun).2 fun _ => none :=
    start.elsewhere (.allocInt 7) rfl (by decide +kernel)
      (lasting_of_counter start.keeps.sound (by decide +kernel) (by decide +kernel))
  have between : History Key.hash ⟨⟨0, 0⟩⟩ furnished fun _ => none :=
    first.elsewhere (.allocInt 8) (by rw [furnished]) (by decide +kernel)
      (lasting_of_counter first.keeps.sound (by decide +kernel) (by decide +kernel))
  have ran : (Change.program ⟨⟨0, 0⟩⟩ Key.hash (.insert ⟨3, 0⟩ ⟨4, 0⟩)).run furnished =
      (.ok none, inserted) :=
    Prod.ext (by decide +kernel) (by rw [inserted])
  have known : Key.ofHandle furnished (Change.insert ⟨3, 0⟩ ⟨4, 0⟩).key = .ok (.int 7) := by
    decide +kernel
  have changed : History Key.hash ⟨⟨0, 0⟩⟩ inserted
      (Function.update (fun _ => none) (.int 7) (some (⟨3, 0⟩, ⟨4, 0⟩))) :=
    between.changed (.insert ⟨3, 0⟩ ⟨4, 0⟩) known ran (by decide +kernel)
      (lasting_of_counter between.keeps.sound (by decide +kernel) (by decide +kernel))
  have dropped : History Key.hash ⟨⟨0, 0⟩⟩ released
      (Function.update (fun _ => none) (.int 7) (some (⟨3, 0⟩, ⟨4, 0⟩))) :=
    changed.elsewhere (.release ⟨3, 0⟩) (by rw [released]) (by decide +kernel)
      (lasting_of_counter changed.keeps.sound (by decide +kernel) (by decide +kernel))
  exact dropped.elsewhere .collect (by rw [collected]) (by decide +kernel)
    (lasting_of_isLive dropped.keeps.sound (by decide +kernel) (by decide +kernel)
      (by decide +kernel) (by decide +kernel))

/-- The key is held by nothing but the table when a collection has run. -/
theorem actsAsMap_collected : ActsAsMap Key.hash ⟨⟨0, 0⟩⟩ collected
    (Function.update (fun _ => none) (.int 7) (some (⟨3, 0⟩, ⟨4, 0⟩))) :=
  History.actsAsMap history_collected

/-- Two tables of two buckets, the first with one entry.  A direct write makes the bucket array of
the first one the bucket array of the second one as well. -/
def lend : HeapM (RefTable × RefTable × Handle) := do
  let first ← withCapacity 2
  let second ← withCapacity 2
  let key ← Heap.allocInt 1
  let value ← Heap.allocInt 10
  let _ ← first.insert key value
  let buckets ← HeapM.ask fun heap => heap.readRef first.handle bucketsOffset
  Heap.writeRef second.handle bucketsOffset buckets
  return (first, second, key)

/-- The second table maps the key of the first one to another value.  What the first one maps it to
before and after that is told. -/
def overwrite : HeapM (Option Handle × Option Handle) := do
  let (first, second, key) ← lend
  let before ← HeapM.ask fun heap => first.get? heap key
  let other ← Heap.allocInt 20
  let _ ← second.insert key other
  let after ← HeapM.ask fun heap => first.get? heap key
  return (before, after)

/-- A table whose bucket array another table has borrowed does not keep its entries. -/
theorem borrowed_buckets_change :
    (overwrite.run (blank {})).1 = .ok (some ⟨7, 0⟩, some ⟨8, 0⟩) := by
  decide +kernel

/-! ## Every probe ends -/

/-- The number of buckets is a power of two and half the length of the bucket array, and there are
fewer entries, so that a bucket is vacant.  A key that is found has been counted.  No question to
the table and no change of it probes without end. -/
structure ProbesEnd (hash : Key → UInt64) (table : RefTable) (heap : Heap) : Prop where
  room : ∃ power count array, table.capacity heap = .ok (2 ^ power) ∧
    table.count heap = .ok count ∧ count < 2 ^ power ∧ table.buckets heap = .ok array ∧
      array.length heap = .ok (2 * 2 ^ power) ∧
        ∃ position < 2 ^ power, array.get heap (2 * position) = .ok none
  counted : ∀ key, table.contains heap key hash = .ok true →
    ∃ count, table.count heap = .ok count ∧ 0 < count
  questions : ∀ key, table.get? heap key hash ≠ .error (.fault .endlessProbe) ∧
    table.contains heap key hash ≠ .error (.fault .endlessProbe)
  changes : ∀ change : Change, ((change.program table hash).run heap).2.handles.slots < 2 ^ 32 →
    heap.Lasting ((change.program table hash).run heap).2 [table.handle] →
      ((change.program table hash).run heap).1 ≠ .error (.fault .endlessProbe)

/-- Where a table acts as a map, every probe ends. -/
theorem ActsAsMap.endsProbes (acts : table.ActsAsMap hash heap map) :
    table.ProbesEnd hash heap where
  room := by
    obtain ⟨contents, power, array, buckets, shows, layout⟩ := acts.shows
    obtain ⟨position, inside, vacant⟩ := layout.vacant
    refine ⟨power, _, array, layout.capacity, shows.count, layout.room, layout.refers,
      layout.length, position, inside, ?_⟩
    rw [layout.keyOf position inside, vacant]
    rfl
  counted key has := by
    obtain ⟨contents, _, _, _, shows, _⟩ := acts.shows
    refine ⟨_, shows.count, ?_⟩
    cases live : heap.isLive key with
    | false =>
        rw [(acts.stale key live).2] at has
        cases has
    | true =>
        obtain ⟨identity, known⟩ := acts.keyed key live
        rw [acts.contains key identity known, ← shows.looksUp] at has
        cases contents with
        | nil => cases has
        | cons entry rest => exact Nat.succ_pos rest.length
  questions key := by
    cases live : heap.isLive key with
    | false =>
        rw [(acts.stale key live).1, (acts.stale key live).2]
        exact ⟨by simp, by simp⟩
    | true =>
        obtain ⟨identity, known⟩ := acts.keyed key live
        rw [acts.get key identity known, acts.contains key identity known]
        exact ⟨by simp, by simp⟩
  changes change bounded lasting := by
    have outcome := acts.outcome change bounded lasting
    generalize (change.program table hash).run heap = result at outcome
    cases outcome with
    | refused _ _ => simp
    | done _ _ _ => simp
    | failed _ _ _ reason =>
        rcases reason with ⟨size, limit, rfl⟩ | ⟨_, handle, rfl | rfl⟩
        all_goals simp

/-- Throughout the history of a table every probe ends. -/
theorem History.probesEnd (history : table.History hash heap map) :
    table.ProbesEnd hash heap := by
  have keeps := history.keeps
  obtain ⟨bins, owns, rfl⟩ := keeps.owns
  exact (owns.behavesAsMap keeps.sound keeps.numbered keeps.loadable).endsProbes

theorem probesEnd_collected : ProbesEnd Key.hash ⟨⟨0, 0⟩⟩ collected :=
  History.probesEnd history_collected

/-- The second table takes in another key.  The number of entries of the first one and the elements
of its bucket array are told, and whether the first one has a third key. -/
def crowd : HeapM (Nat × List (Option Handle) × Except HeapError Bool) := do
  let (first, second, _) ← lend
  let key ← Heap.allocInt 2
  let _ ← second.insert key key
  let count ← HeapM.ask first.count
  let buckets ← HeapM.ask first.buckets
  let cells ← HeapM.ask buckets.toList
  let absent ← Heap.allocInt 3
  let has ← HeapM.attempt (HeapM.ask fun heap => first.contains heap absent)
  return (count, cells, has)

/-- A table with one entry and two buckets, the array of which another table has borrowed and
filled up, has no vacant bucket, and looks for an absent key without end. -/
theorem borrowed_buckets_full : (crowd.run (blank {})).1 =
    .ok (1, [some ⟨8, 0⟩, some ⟨8, 0⟩, some ⟨6, 0⟩, some ⟨7, 0⟩],
      .error (.fault .endlessProbe)) := by
  decide +kernel

end RefTable

end CompactingHeap
