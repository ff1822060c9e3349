import CompactingHeap.Proofs.OwnedArrays
import CompactingHeap.Proofs.Tables

/-!
# Tables that own their buckets

A table owns its bucket array if no other array or table has its parts for storage.  What goes on
elsewhere leaves such a table as it is, as long as it writes none of the keys that are compared by
content.
-/

namespace CompactingHeap

open Heap RefTable

namespace Heap

/-- What counts of a key is the same where its view is. -/
theorem Sound.ofHandle_congr {heap next : Heap} (sound : heap.Sound) {handle : Handle}
    {identity : Key} (known : Key.ofHandle heap handle = .ok identity)
    (same : next.view? handle = heap.view? handle) : Key.ofHandle next handle = .ok identity := by
  obtain ⟨view, seen⟩ := sound.isLive_iff.mp (Key.isLive_of_ofHandle sound known)
  rw [Key.ofHandle_of_view seen] at known
  rw [Key.ofHandle_of_view (same.trans seen)]
  exact known

namespace Maps

variable {heap next : Heap} {hash : Key → UInt64} {table : RefTable} {bins : Bins}

/-- The keys that are compared by content. -/
def contentKeys (bins : Bins) : List Handle :=
  (bins.entries.filter fun entry => entry.identity.id ∈ Key.contentClasses).map RefTable.Entry.key

/-- The keys of a table. -/
def storedKeys (bins : Bins) : List Handle :=
  bins.entries.map RefTable.Entry.key

section

variable (maps : heap.Maps hash table bins)

include maps

/-- A table has the same entries where its parts show the same and the same counts of its keys. -/
theorem congr (same : ∀ handle ∈ parts table bins, next.view? handle = heap.view? handle)
    (keys : ∀ entry ∈ bins.entries, Key.ofHandle next entry.key = .ok entry.identity) :
    next.Maps hash table bins where
  record := maps.record.congr (same _ List.mem_cons_self)
  stores := ⟨maps.stores.lists.congr fun handle part => same handle (List.mem_cons_of_mem _ part),
    keys⟩
  fit := maps.fit

theorem of_views (sound : heap.Sound) (same : next.view? = heap.view?) :
    next.Maps hash table bins :=
  maps.congr (fun handle _ => congrFun same handle) fun entry member =>
    sound.ofHandle_congr (maps.stores.keys entry member) (congrFun same _)

omit maps in
theorem exists_entry_of_mem_contentKeys {handle : Handle} (member : handle ∈ contentKeys bins) :
    ∃ entry ∈ bins.entries, entry.key = handle ∧ entry.identity.id ∈ Key.contentClasses := by
  obtain ⟨entry, listed, same⟩ := List.mem_map.mp member
  obtain ⟨there, content⟩ := List.mem_filter.mp listed
  exact ⟨entry, there, same, by simpa using content⟩

/-! ### What hangs on a table -/

theorem hangs_array :
    Hangs [table.handle] (heap.partOf (parts table bins ++ contentKeys bins))
      bins.array.handle := by
  obtain ⟨view, seen, _, _, _, refers⟩ := maps.record.shown
  have part : table.handle ∈ parts table bins ++ contentKeys bins := by simp [parts]
  exact Hangs.refers (Hangs.root List.mem_cons_self) ((partOf_of_mem part).trans seen)
    (Or.inl ⟨storageOffset, refers⟩)

theorem hangs_backing :
    Hangs [table.handle] (heap.partOf (parts table bins ++ contentKeys bins)) bins.backing := by
  obtain ⟨view, seen, _, _, _, refers⟩ := maps.stores.lists.record.shown
  have part : bins.array.handle ∈ parts table bins ++ contentKeys bins := by
    simp [parts, Lists.parts]
  exact Hangs.refers maps.hangs_array ((partOf_of_mem part).trans seen)
    (Or.inl ⟨storageOffset, refers⟩)

theorem hangs_part {handle : Handle} (part : handle ∈ parts table bins) :
    Hangs [table.handle] (heap.partOf (parts table bins ++ contentKeys bins)) handle := by
  rcases List.mem_cons.mp part with rfl | part
  · exact Hangs.root List.mem_cons_self
  · rcases List.mem_cons.mp part with rfl | part
    · exact maps.hangs_array
    · cases List.mem_singleton.mp part
      exact maps.hangs_backing

theorem hangs_key {entry : RefTable.Entry} (member : entry ∈ bins.entries) :
    Hangs [table.handle] (heap.partOf (parts table bins ++ contentKeys bins)) entry.key := by
  obtain ⟨position, inside, taken⟩ := Bins.mem_entries.mp member
  obtain ⟨view, seen, _, run⟩ := (maps.stores.lists.backed _ rfl).shown
  have part : bins.backing ∈ parts table bins ++ contentKeys bins := by
    simp [parts, Lists.parts]
  refine Hangs.refers maps.hangs_backing ((partOf_of_mem part).trans seen) (Or.inr ?_)
  rw [run]
  exact List.mem_append_left _ (Bins.mem_cells inside taken).1

/-- Of the parts of a table only the backing of its bucket array has a run. -/
theorem vector_of_part {handle : Handle} (part : handle ∈ parts table bins) {view : View}
    (seen : heap.view? handle = some view) (run : view.descriptor.runOffset?.isSome) :
    view.descriptor.id = .vector := by
  rcases List.mem_cons.mp part with rfl | part
  · obtain ⟨other, there, same, _⟩ := maps.record.shown
    rw [seen] at there
    cases there
    rw [same] at run
    cases run
  · rcases List.mem_cons.mp part with rfl | stored
    · obtain ⟨other, there, same, _⟩ := maps.stores.lists.record.shown
      rw [seen] at there
      cases there
      rw [same] at run
      cases run
    · cases List.mem_singleton.mp stored
      have named := classOf_of_view seen
      rw [(maps.stores.lists.backed _ rfl).classOf] at named
      exact (Except.ok.inj named).symm

/-- A key of the table has the class that its identity says. -/
theorem classOf_key (sound : heap.Sound) {entry : RefTable.Entry} (member : entry ∈ bins.entries) :
    heap.classOf entry.key = .ok entry.identity.id :=
  (Key.classOf_of_ofHandle sound (maps.stores.keys entry member)).1

/-- A table is a compound on which its keys hang. -/
theorem compound (sound : heap.Sound)
    (sane : ∀ handle view, heap.view? handle = some view → view.Sane) :
    heap.Compound table.handle (parts table bins) (contentKeys bins) (storedKeys bins) where
  rooted := List.mem_cons_self
  live handle member := by
    rcases List.mem_append.mp member with part | key
    · exact maps.isLive handle part
    · obtain ⟨entry, listed, rfl, _⟩ := exists_entry_of_mem_contentKeys key
      exact Key.isLive_of_ofHandle sound (maps.stores.keys entry listed)
  hangs handle member := by
    rcases List.mem_append.mp member with before | border
    · rcases List.mem_append.mp before with part | key
      · exact maps.hangs_part part
      · obtain ⟨entry, listed, rfl, _⟩ := exists_entry_of_mem_contentKeys key
        exact maps.hangs_key listed
    · obtain ⟨entry, listed, rfl⟩ := List.mem_map.mp border
      exact maps.hangs_key listed
  vectors handle member view seen run := by
    rcases List.mem_append.mp member with part | key
    · exact maps.vector_of_part part seen run
    · obtain ⟨entry, listed, rfl, content⟩ := exists_entry_of_mem_contentKeys key
      have named := maps.classOf_key sound listed
      rw [classOf_of_view seen] at named
      rw [← Except.ok.inj named] at content
      rw [(sane _ view seen).runless content] at run
      cases run
  plain handle key id container sameClass := by
    obtain ⟨entry, listed, rfl, content⟩ := exists_entry_of_mem_contentKeys key
    rw [maps.classOf_key sound listed] at sameClass
    cases sameClass
    revert content
    simp only [List.mem_cons, List.not_mem_nil, or_false] at container
    rcases container with named | named | named
    all_goals
      rw [named]
      decide

end

end Maps

/-- The table has the entries of the bins, and no other array or table has its parts for storage. -/
structure OwnsBins (heap : Heap) (hash : Key → UInt64) (table : RefTable) (bins : Bins) : Prop where
  maps : heap.Maps hash table bins
  apart : heap.Apart (Maps.parts table bins)

namespace OwnsBins

variable {heap next : Heap} {hash : Key → UInt64} {table : RefTable} {bins others : Bins}

/-- A table still owns its buckets after an operation elsewhere during which it lasts. -/
theorem elsewhere (owns : heap.OwnsBins hash table bins) {α : Type} {operation : HeapM α}
    (elsewhere : heap.Elsewhere (Maps.parts table bins) (Maps.contentKeys bins) operation)
    (assured : heap.Assured (operation.run heap).2 [table.handle]) :
    (operation.run heap).2.Sound ∧ (operation.run heap).2.classes.Numbered ∧
      (operation.run heap).2.OwnsBins hash table bins := by
  have maps := owns.maps
  have compound := maps.compound assured.sound owns.apart.sane
  have guarded := compound.guarded assured.sound owns.apart
  obtain ⟨tame, keeps⟩ := elsewhere.keeps (compound.within assured.sound) guarded
  have still := keeps ⟨assured, guarded⟩
  obtain ⟨sound, numbered⟩ := assured.after tame
  refine ⟨sound, numbered, maps.congr ?_ ?_, Compound.apart_of_guarded still⟩
  · intro handle part
    exact Compound.view?_of_guarded still (List.mem_append_left _ part)
  · intro entry member
    have known := maps.stores.keys entry member
    have named := maps.classOf_key assured.sound member
    have stored : entry.key ∈ Maps.storedKeys bins := List.mem_map.mpr ⟨entry, member, rfl⟩
    apply Key.ofHandle_of_same assured.sound known
    · rw [named]
      exact Compound.classOf_of_guarded still stored named
    · intro content
      have listed : entry.key ∈ Maps.contentKeys bins :=
        List.mem_map.mpr ⟨entry, List.mem_filter.mpr ⟨member, by simpa using content⟩, rfl⟩
      exact Compound.view?_of_guarded still (List.mem_append_right _ listed)

/-- A table that is written still owns its buckets. -/
theorem written (owns : heap.OwnsBins hash table bins) (sound : heap.Sound)
    (alters : heap.Alters next (Maps.parts table bins)) (maps : next.Maps hash table others)
    (same : Maps.parts table others = Maps.parts table bins) : next.OwnsBins hash table others := by
  refine ⟨maps, ?_⟩
  rw [same]
  apply owns.apart.alters sound alters fun _ member => member
  intro handle part char
  rw [owns.maps.classOf_part part] at char
  split_ifs at char <;> cases char

/-- A table owns its buckets where nothing shows. -/
theorem of_views (owns : heap.OwnsBins hash table bins) (sound : heap.Sound)
    (same : next.view? = heap.view?) : next.OwnsBins hash table bins :=
  ⟨owns.maps.of_views sound same, owns.apart.of_views same⟩

end OwnsBins

end Heap

end CompactingHeap
