import CompactingHeap.Proofs.Counts
import CompactingHeap.Proofs.ExactCollections
import CompactingHeap.Proofs.Provisions
import CompactingHeap.Proofs.Sturdiness
import CompactingHeap.Proofs.Tending

/-!
# Heaps without faults

No operation on a reachable heap meets a fault, and nothing that is computed on the way leaves the
range of a machine word, as long as there are fewer than `2 ^ 32` handle slots and no count of
holds comes to its bound.  An allocation must name a class that has been registered, and the tables
and arrays must have been left alone that an operation searches or lets grow.
-/

namespace CompactingHeap

open Heap

/-! ## Tables -/

namespace Heap

/-- A change of a table that owns its buckets meets no fault. -/
theorem ChangesBins.noFault {heap : Heap} {hash : Key → UInt64} {table : RefTable}
    {bins : RefTable.Bins} {change : RefTable.Change}
    {result : Except HeapError (Option Handle) × Heap}
    (changes : heap.ChangesBins hash table bins change result) : NoFault result.1 := by
  cases changes with
  | refused _ _ => exact NoFault.error nofun
  | done _ _ _ _ _ _ => exact NoFault.ok _
  | failed _ _ unentered _ =>
      rcases unentered.reason with ⟨size, limit, rfl⟩ | ⟨_, handle, rfl | rfl⟩
      all_goals exact NoFault.error nofun

end Heap

namespace RefTable

variable {hash : Key → UInt64} {table : RefTable} {heap : Heap}

/-- A change that does not get over the search fails as the search does. -/
theorem noFault_change_of_missed (sound : heap.Sound) {error : HeapError}
    (missed : ∀ key, table.find? heap key hash = .error error)
    (other : ∀ fault, error ≠ .fault fault) (change : Change) :
    NoFault ((change.program table hash).run heap).1 := by
  cases change with
  | insert key value =>
      unfold Change.program RefTable.insert
      rw [HeapM.run_bind, HeapM.run_ask]
      have classes := sound.noFault_classOf value
      cases classed : heap.classOf value with
      | error error =>
          rw [classed] at classes
          exact classes.failed
      | ok id =>
          dsimp only
          rw [HeapM.run_bind, HeapM.run_ask, missed]
          exact NoFault.error other
  | remove key =>
      unfold Change.program RefTable.remove
      rw [HeapM.run_bind, HeapM.run_ask, missed]
      exact NoFault.error other

/-- What becomes of a search in a usable table: it ends in a table that is in use, and fails
otherwise. -/
theorem Usable.noFault_find? (usable : table.Usable hash heap) (key : Handle) :
    NoFault (table.find? heap key hash) := by
  rcases usable with tended | ⟨derived, stale⟩
  · obtain ⟨derived, inOrder⟩ := tended.inOrder
    have sound := derived.sound
    cases inOrder with
    | owned _ owns =>
        cases live : heap.isLive key with
        | false =>
            rw [owns.maps.find?_stale sound live]
            exact NoFault.error nofun
        | true =>
            obtain ⟨identity, known⟩ := Key.exists_ofHandle sound owns.apart.sane live
            obtain ⟨result, found, _⟩ := owns.maps.find? sound known
            rw [found]
            exact NoFault.ok result
    | bare bare =>
        rw [bare.find?]
        exact NoFault.error nofun
  · rw [find?_stale derived.sound stale]
    exact NoFault.error nofun

theorem Usable.sound (usable : table.Usable hash heap) : heap.Sound := by
  rcases usable with tended | ⟨derived, _⟩
  · exact tended.inOrder.1.sound
  · exact derived.sound

theorem Usable.noFault_get? (usable : table.Usable hash heap) (key : Handle) :
    NoFault (table.get? heap key hash) := by
  unfold get?
  apply (usable.noFault_find? key).bind
  intro found
  cases found with
  | none => exact NoFault.ok none
  | some place => exact RefArray.noFault_get usable.sound place.1 (valueIndex place.2)

theorem Usable.noFault_contains (usable : table.Usable hash heap) (key : Handle) :
    NoFault (table.contains heap key hash) :=
  (usable.noFault_find? key).map _

/-- A change of a usable table meets no fault, provided that the table lasts or can be held. -/
theorem Usable.noFault_change (usable : table.Usable hash heap) (change : Change)
    (stays : heap.Holdable (change.held table) ∨
      heap.Lasting ((change.program table hash).run heap).2 [table.handle])
    (bounded : ((change.program table hash).run heap).2.handles.slots < 2 ^ 32) :
    NoFault ((change.program table hash).run heap).1 := by
  rcases usable with tended | ⟨derived, stale⟩
  · obtain ⟨derived, inOrder⟩ := tended.inOrder
    cases inOrder with
    | owned loadable owns =>
        rcases stays with room | lasting
        · exact (owns.change loadable change (Or.inl room)
            (derived.assured bounded (lasting_nil heap _))).noFault
        · exact (owns.change loadable change (Or.inr List.mem_cons_self)
            (derived.assured bounded lasting)).noFault
    | bare bare =>
        exact noFault_change_of_missed derived.sound (fun key => bare.find? key hash) nofun change
  · exact noFault_change_of_missed derived.sound
      (fun key => find?_stale derived.sound stale key hash) nofun change

end RefTable

/-! ## Exact arrays and tables -/

/-- The sizes of an array fit: there are no more elements than slots, twice as many slots can be
counted in a word, and the run has them all. -/
structure RefArray.Exact (array : RefArray) (heap : Heap) : Prop where
  sizes : ∃ length capacity, array.length heap = .ok length ∧ array.capacity heap = .ok capacity ∧
    length ≤ capacity ∧ capacity < 2 ^ 32 ∧ (0 < capacity → ∃ backing,
      array.backing heap = .ok backing ∧ heap.runLength backing = .ok capacity)
  elements : ∃ elements, array.toList heap = .ok elements

/-- Every probe of a table ends, its bucket array is exact, and its entries can be listed. -/
structure RefTable.Exact (hash : Key → UInt64) (table : RefTable) (heap : Heap) : Prop where
  probesEnd : table.ProbesEnd hash heap
  buckets : ∃ buckets, table.buckets heap = .ok buckets ∧ buckets.Exact heap
  entries : ∃ entries, table.entries heap = .ok entries

namespace Heap

variable {heap : Heap}

theorem Lists.exact {array : RefArray} {elements : List (Option Handle)} {capacity : Nat}
    {storage : Option Handle} (lists : heap.Lists array elements capacity storage) :
    array.Exact heap where
  sizes := by
    refine ⟨_, _, lists.length, lists.capacity_eq, lists.fits, lists.small, ?_⟩
    intro room
    obtain ⟨backing, here⟩ := lists.exists_backing room
    refine ⟨backing, lists.backing here, ?_⟩
    rw [(lists.backed backing here).length, length_padded lists.fits]
  elements := ⟨elements, lists.toList⟩

theorem OwnsBins.exact {hash : Key → UInt64} {table : RefTable} {bins : RefTable.Bins}
    (owns : heap.OwnsBins hash table bins) (sound : heap.Sound)
    (numbered : heap.classes.Numbered) (loadable : Loadable heap.config) :
    table.Exact hash heap where
  probesEnd := (owns.behavesAsMap sound numbered loadable).endsProbes
  buckets := ⟨_, owns.maps.buckets, owns.maps.stores.lists.exact⟩
  entries := ⟨_, owns.maps.entries⟩

end Heap

/-- An array in use is exact. -/
theorem RefArray.Usable.exact {array : RefArray} {heap : Heap} (usable : array.Usable heap)
    (live : heap.isLive array.handle = true) : array.Exact heap := by
  rcases usable with tended | ⟨_, stale⟩
  · obtain ⟨_, elements, capacity, storage, owns⟩ := tended.owns
    exact owns.lists.exact
  · rw [live] at stale
    cases stale

/-- A table that has been made as such is exact for as long as it lasts. -/
theorem RefTable.History.exact {hash : Key → UInt64} {table : RefTable} {heap : Heap}
    {map : Key → Option (Handle × Handle)} (history : table.History hash heap map) :
    table.Exact hash heap := by
  have keeps := history.keeps
  obtain ⟨bins, owns, _⟩ := keeps.owns
  exact owns.exact keeps.sound keeps.numbered keeps.loadable

namespace Heap

/-! ## Questions and orderly operations -/

/-- The questions that can be asked of a heap, an array or a table.  A table that is searched or
listed has been left alone. -/
inductive Question (heap : Heap) : {α : Type} → (Heap → Except HeapError α) → Prop
  | total {α : Type} (answer : Heap → α) : Question heap fun heap => .ok (answer heap)
  | lookupClass (name : String) : Question heap fun heap => heap.lookupClass name
  | classOf (handle : Handle) : Question heap fun heap => heap.classOf handle
  | descriptorOf (handle : Handle) : Question heap fun heap => heap.descriptorOf handle
  | tailLength (handle : Handle) : Question heap fun heap => heap.tailLength handle
  | payloadOffset (handle : Handle) : Question heap fun heap => heap.payloadOffset handle
  | readRef (handle : Handle) (offset : Nat) : Question heap fun heap => heap.readRef handle offset
  | readWord (handle : Handle) (offset : Nat) :
      Question heap fun heap => heap.readWord handle offset
  | runLength (handle : Handle) : Question heap fun heap => heap.runLength handle
  | runGet (handle : Handle) (index : Nat) : Question heap fun heap => heap.runGet handle index
  | bytes (handle : Handle) : Question heap fun heap => heap.bytes handle
  | int (handle : Handle) : Question heap fun heap => heap.int handle
  | float (handle : Handle) : Question heap fun heap => heap.float handle
  | bool (handle : Handle) : Question heap fun heap => heap.bool handle
  | char (handle : Handle) : Question heap fun heap => heap.char handle
  | string (handle : Handle) : Question heap fun heap => heap.string handle
  | car (cell : Handle) : Question heap fun heap => heap.car cell
  | cdr (cell : Handle) : Question heap fun heap => heap.cdr cell
  | holds (handle : Handle) : Question heap fun heap => heap.holds handle
  | verify : Question heap fun heap => heap.verify
  | array (handle : Handle) : Question heap fun heap => RefArray.ofHandle heap handle
  | arrayLength (array : RefArray) : Question heap array.length
  | arrayIsEmpty (array : RefArray) : Question heap array.isEmpty
  | arrayCapacity (array : RefArray) : Question heap array.capacity
  | arrayGet (array : RefArray) (index : Nat) : Question heap fun heap => array.get heap index
  | arrayToList (array : RefArray) : Question heap array.toList
  | table (handle : Handle) : Question heap fun heap => RefTable.ofHandle heap handle
  | tableCount (table : RefTable) : Question heap table.count
  | tableIsEmpty (table : RefTable) : Question heap table.isEmpty
  | tableCapacity (table : RefTable) : Question heap table.capacity
  | tableEntries {hash : Key → UInt64} {table : RefTable} : table.Usable hash heap →
      Question heap table.entries
  | tableKeys {hash : Key → UInt64} {table : RefTable} : table.Usable hash heap →
      Question heap table.keys
  | tableGet {hash : Key → UInt64} {table : RefTable} (key : Handle) : table.Usable hash heap →
      Question heap fun heap => table.get? heap key hash
  | tableContains {hash : Key → UInt64} {table : RefTable} (key : Handle) :
      table.Usable hash heap → Question heap fun heap => table.contains heap key hash

/-- The operations that a heap offers, when they are in order: an allocation names a class that has
been registered, and an array that is pushed to or a table that is searched has been left alone.  A
table can be held while it grows, or lasts anyway. -/
inductive Orderly (heap : Heap) : {α : Type} → HeapM α → Prop
  | ask {α : Type} {question : Heap → Except HeapError α} : heap.Question question →
      Orderly heap (HeapM.ask question)
  | register (name : String) (size align : Nat) (trace : List TraceEntry) (byteTail : Bool) :
      Orderly heap (Heap.register name size align trace byteTail)
  | allocate {id : ClassId} (extra : Nat) : id.index < heap.classes.classes.size →
      Orderly heap (Heap.allocate id extra)
  | allocateBytes {id : ClassId} (bytes : Bytes) : id.index < heap.classes.classes.size →
      Orderly heap (Heap.allocateBytes id bytes)
  | allocInt (value : Int64) : Orderly heap (Heap.allocInt value)
  | allocFloat (bits : UInt64) : Orderly heap (Heap.allocFloat bits)
  | allocBool (value : Bool) : Orderly heap (Heap.allocBool value)
  | allocChar (value : Char) : Orderly heap (Heap.allocChar value)
  | allocString (bytes : Bytes) : Orderly heap (Heap.allocString bytes)
  | allocVector (length : Nat) : Orderly heap (Heap.allocVector length)
  | cons (car cdr : Option Handle) : Orderly heap (Heap.cons car cdr)
  | setCar (cell : Handle) (value : Option Handle) : Orderly heap (Heap.setCar cell value)
  | setCdr (cell : Handle) (value : Option Handle) : Orderly heap (Heap.setCdr cell value)
  | writeRef (handle : Handle) (offset : Nat) (value : Option Handle) :
      Orderly heap (Heap.writeRef handle offset value)
  | writeWord (handle : Handle) (offset : Nat) (value : UInt64) :
      Orderly heap (Heap.writeWord handle offset value)
  | runSet (handle : Handle) (index : Nat) (value : Option Handle) :
      Orderly heap (Heap.runSet handle index value)
  | retain (handle : Handle) : Orderly heap (Heap.retain handle)
  | release (handle : Handle) : Orderly heap (Heap.release handle)
  | registerRoot (source : RootSource) (handle : Handle) :
      Orderly heap (Heap.registerRoot source handle)
  | unregisterRoot (source : RootSource) (handle : Handle) :
      Orderly heap (Heap.unregisterRoot source handle)
  | unregisterSource (source : RootSource) : Orderly heap (Heap.unregisterSource source)
  | addScanner (report : List Handle) : Orderly heap (Heap.addScanner report)
  | setReport (id : ScannerId) (report : List Handle) : Orderly heap (Heap.setReport id report)
  | removeScanner (id : ScannerId) : Orderly heap (Heap.removeScanner id)
  | intern (bytes : Bytes) : Orderly heap (Heap.intern bytes)
  | qualify (scope name : Handle) : Orderly heap (Heap.qualify scope name)
  | qualifyPath (segments : List Bytes) : Orderly heap (Heap.qualifyPath segments)
  | collect : Orderly heap Heap.collect
  | newArray : Orderly heap RefArray.new
  | arrayWithCapacity (capacity : Nat) : Orderly heap (RefArray.withCapacity capacity)
  | filledArray (length : Nat) : Orderly heap (RefArray.filled length)
  | arraySet (array : RefArray) (index : Nat) (value : Option Handle) :
      Orderly heap (array.set index value)
  | arrayPush {array : RefArray} (value : Option Handle) : array.Usable heap →
      Orderly heap (array.push value)
  | arrayPop (array : RefArray) : Orderly heap array.pop
  | arrayClear (array : RefArray) : Orderly heap array.clear
  | newTable : Orderly heap RefTable.new
  | tableWithCapacity (capacity : Nat) : Orderly heap (RefTable.withCapacity capacity)
  | tableInsert {hash : Key → UInt64} {table : RefTable} (key value : Handle) :
      table.Usable hash heap → (heap.Holdable [table.handle, key, value] ∨
        heap.Lasting ((table.insert key value hash).run heap).2 [table.handle]) →
      Orderly heap (table.insert key value hash)
  | tableRemove {hash : Key → UInt64} {table : RefTable} (key : Handle) :
      table.Usable hash heap → Orderly heap (table.remove key hash)

section

variable {heap : Heap} {α : Type}

/-- Every orderly operation is one that a heap offers. -/
theorem Orderly.operation {operation : HeapM α} (orderly : heap.Orderly operation) :
    Operation operation := by
  cases orderly with
  | ask _ => exact .ask _
  | register name size align trace byteTail => exact .register name size align trace byteTail
  | allocate extra _ => exact .allocate _ extra
  | allocateBytes bytes _ => exact .allocateBytes _ bytes
  | allocInt value => exact .allocInt value
  | allocFloat bits => exact .allocFloat bits
  | allocBool value => exact .allocBool value
  | allocChar value => exact .allocChar value
  | allocString bytes => exact .allocString bytes
  | allocVector length => exact .allocVector length
  | cons car cdr => exact .cons car cdr
  | setCar cell value => exact .setCar cell value
  | setCdr cell value => exact .setCdr cell value
  | writeRef handle offset value => exact .writeRef handle offset value
  | writeWord handle offset value => exact .writeWord handle offset value
  | runSet handle index value => exact .runSet handle index value
  | retain handle => exact .retain handle
  | release handle => exact .release handle
  | registerRoot source handle => exact .registerRoot source handle
  | unregisterRoot source handle => exact .unregisterRoot source handle
  | unregisterSource source => exact .unregisterSource source
  | addScanner report => exact .addScanner report
  | setReport id report => exact .setReport id report
  | removeScanner id => exact .removeScanner id
  | intern bytes => exact .intern bytes
  | qualify scope name => exact .qualify scope name
  | qualifyPath segments => exact .qualifyPath segments
  | collect => exact .collect
  | newArray => exact .newArray
  | arrayWithCapacity capacity => exact .arrayWithCapacity capacity
  | filledArray length => exact .filledArray length
  | arraySet array index value => exact .arraySet array index value
  | arrayPush value _ => exact .arrayPush _ value
  | arrayPop array => exact .arrayPop array
  | arrayClear array => exact .arrayClear array
  | newTable => exact .newTable
  | tableWithCapacity capacity => exact .tableWithCapacity capacity
  | tableInsert key value _ _ => exact .tableInsert _ key value _
  | tableRemove key _ => exact .tableRemove _ key _

/-- A name is looked up without a fault: an identifier that the index gives belongs to a class. -/
theorem noFault_lookupClass (numbered : heap.classes.Numbered) (name : String) :
    NoFault (heap.lookupClass name) := by
  apply NoFault.map
  unfold Registry.lookup
  split
  · next found =>
    obtain ⟨descriptor, known⟩ := numbered.exists_get found
    rw [known]
    exact NoFault.ok descriptor
  · exact NoFault.error nofun

theorem Question.noFault {question : Heap → Except HeapError α} (asked : heap.Question question)
    (sound : heap.Sound) (numbered : heap.classes.Numbered) : NoFault (question heap) := by
  cases asked with
  | total answer => exact NoFault.ok _
  | lookupClass name => exact noFault_lookupClass numbered name
  | classOf handle => exact sound.noFault_classOf handle
  | descriptorOf handle => exact (sound.noFault_objectOf handle).map _
  | tailLength handle => exact (sound.noFault_objectOf handle).map _
  | payloadOffset handle => exact (sound.noFault_residentOf handle).map _
  | readRef handle offset => exact sound.noFault_readRef handle offset
  | readWord handle offset => exact sound.noFault_readWord handle offset
  | runLength handle => exact (sound.noFault_runOf handle).map _
  | runGet handle index => exact sound.noFault_runGet handle index
  | bytes handle => exact sound.noFault_bytes handle
  | int handle => exact (sound.noFault_scalar handle (by simp)).map _
  | float handle => exact sound.noFault_scalar handle (by simp)
  | bool handle => exact (sound.noFault_scalar handle (by simp)).map _
  | char handle => exact sound.noFault_char handle
  | string handle => exact sound.noFault_string handle
  | car cell => exact sound.noFault_readPair cell 0
  | cdr cell => exact sound.noFault_readPair cell wordBytes
  | holds handle => exact (heap.handles.noFault_find handle).map _
  | verify =>
      dsimp only
      rw [sound.verify]
      exact NoFault.ok ()
  | array handle => exact RefArray.noFault_ofHandle sound handle
  | arrayLength array => exact RefArray.noFault_length sound array
  | arrayIsEmpty array => exact (sound.noFault_readWord array.handle _).map _
  | arrayCapacity array => exact (sound.noFault_readWord array.handle _).map _
  | arrayGet array index => exact RefArray.noFault_get sound array index
  | arrayToList array => exact RefArray.noFault_toList sound array
  | table handle => exact RefTable.noFault_ofHandle sound handle
  | tableCount table => exact (sound.noFault_readWord table.handle _).map _
  | tableIsEmpty table => exact (sound.noFault_readWord table.handle _).map _
  | tableCapacity table => exact (sound.noFault_readWord table.handle _).map _
  | tableEntries _ => exact RefTable.noFault_entries sound _
  | tableKeys _ => exact (RefTable.noFault_entries sound _).map _
  | tableGet key usable => exact usable.noFault_get? key
  | tableContains key usable => exact usable.noFault_contains key

/-- The classes that have been registered are known. -/
theorem exists_get {id : ClassId} (registered : id.index < heap.classes.classes.size) :
    ∃ descriptor, heap.classes.get id = .ok descriptor :=
  ⟨_, Registry.get_eq_ok_iff.mpr (Array.getElem?_eq_getElem registered)⟩

/-- No orderly operation meets a fault. -/
theorem Orderly.noFault {operation : HeapM α} (orderly : heap.Orderly operation)
    (sound : heap.Sound) (numbered : heap.classes.Numbered)
    (bounded : (operation.run heap).2.handles.slots < 2 ^ 32) :
    NoFault (operation.run heap).1 := by
  have always {program : HeapM α} (sturdy : Sturdy program)
      (bounded : (program.run heap).2.handles.slots < 2 ^ 32) : NoFault (program.run heap).1 :=
    sturdy.sure heap sound bounded
  cases orderly with
  | ask asked =>
      rw [HeapM.run_ask]
      exact asked.noFault sound numbered
  | register name size align trace byteTail =>
      exact always (sturdy_register name size align trace byteTail) bounded
  | allocate extra registered =>
      obtain ⟨descriptor, known⟩ := exists_get registered
      exact sound.noFault_allocate known extra bounded
  | allocateBytes bytes registered =>
      obtain ⟨descriptor, known⟩ := exists_get registered
      exact sound.noFault_allocateBytes known bytes bounded
  | allocInt value => exact always (sturdy_allocScalar (by simp) _) bounded
  | allocFloat bits => exact always (sturdy_allocScalar (by simp) _) bounded
  | allocBool value => exact always (sturdy_allocScalar (by simp) _) bounded
  | allocChar value => exact always (sturdy_allocScalar (by simp) _) bounded
  | allocString bytes => exact always (sturdy_allocString bytes) bounded
  | allocVector length => exact always (sturdy_allocate rfl length) bounded
  | cons car cdr => exact always (sturdy_cons car cdr) bounded
  | setCar cell value => exact always (sturdy_writePair cell 0 value) bounded
  | setCdr cell value => exact always (sturdy_writePair cell wordBytes value) bounded
  | writeRef handle offset value => exact always (sturdy_writeRef handle offset value) bounded
  | writeWord handle offset value => exact always (sturdy_writeWord handle offset value) bounded
  | runSet handle index value => exact always (sturdy_runSet handle index value) bounded
  | retain handle => exact always (sturdy_retain handle) bounded
  | release handle => exact always (sturdy_release handle) bounded
  | registerRoot source handle => exact always (sturdy_registerRoot source handle) bounded
  | unregisterRoot source handle => exact always (sturdy_unregisterRoot source handle) bounded
  | unregisterSource source => exact always (sturdy_unregisterSource source) bounded
  | addScanner report => exact always (sturdy_addScanner report) bounded
  | setReport id report => exact always (sturdy_setReport id report) bounded
  | removeScanner id => exact always (sturdy_removeScanner id) bounded
  | intern bytes => exact always (sturdy_intern bytes) bounded
  | qualify scope name => exact always (sturdy_qualify scope name) bounded
  | qualifyPath segments => exact always (sturdy_qualifyPath segments) bounded
  | collect => exact always sturdy_collect bounded
  | newArray => exact always (RefArray.sturdy_withCapacity 0) bounded
  | arrayWithCapacity capacity => exact always (RefArray.sturdy_withCapacity capacity) bounded
  | filledArray length => exact always (RefArray.sturdy_filled length) bounded
  | arraySet array index value => exact always (array.sturdy_set index value) bounded
  | arrayPush value _ => exact always (RefArray.sturdy_push _ value) bounded
  | arrayPop array => exact always array.sturdy_pop bounded
  | arrayClear array => exact always array.sturdy_clear bounded
  | newTable => exact always RefTable.sturdy_new bounded
  | tableWithCapacity capacity => exact always (RefTable.sturdy_withCapacity capacity) bounded
  | tableInsert key value usable stays =>
      exact usable.noFault_change (.insert key value) stays bounded
  | tableRemove key usable =>
      have room : heap.Holdable [] := fun _ count _ => count.toNat_lt
      exact usable.noFault_change (.remove key) (Or.inl room) bounded

end

/-! ## What is promised -/

section

variable {heap : Heap}

/-- Wherever programs lead from a reachable heap, everything is computed exactly. -/
theorem Reachable.exact (reachable : heap.Reachable) (limit : heap.config.maxHeapBytes < 2 ^ 63)
    {next : Heap} (follows : heap.Follows next) (bounded : next.handles.slots < 2 ^ 32) :
    next.Exact ∧ next.CollectsExactly ∧ next.allocator.Accounts next.space.slabs := by
  obtain ⟨log, course⟩ := follows.course
  have sound := (course.traced reachable.sound bounded).sound
  have balanced := follows.balanced reachable.balanced
  have numbered := (course.settings reachable.sound bounded).2 reachable.settings.2
  have provisioned :=
    course.provisioned reachable.sound bounded (reachable.provisioned limit)
  exact ⟨sound.exact balanced numbered provisioned.solvent,
    sound.collectsExactly balanced provisioned.solvent, sound.accounts⟩

end

end Heap

end CompactingHeap
