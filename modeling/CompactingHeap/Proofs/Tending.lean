import CompactingHeap.Proofs.FiniteMaps

/-!
# Containers in use

An array or a table may have been made as such, or its bare object may have been allocated like any
other.  As long as only its own operations write it, whether they succeed or fail, it is in order:
an array owns its run, and a table owns its buckets, or is bare and has none.
-/

namespace CompactingHeap

open Heap

namespace Heap

/-! ## Heaps that programs lead to -/

/-- Tame programs have led to the heap from a reachable one. -/
structure Derived (heap : Heap) : Prop where
  origin : ∃ start : Heap, start.Reachable ∧ start.Follows heap
  bounded : heap.handles.slots < 2 ^ 32

theorem Reachable.derived {heap : Heap} (reachable : heap.Reachable) : heap.Derived :=
  ⟨⟨heap, reachable, Follows.refl heap⟩, reachable.sound.bounded⟩

namespace Derived

variable {heap : Heap} (derived : heap.Derived)

include derived

theorem sound : heap.Sound := by
  obtain ⟨start, reachable, follows⟩ := derived.origin
  obtain ⟨log, course⟩ := follows.course
  exact (course.traced reachable.sound derived.bounded).sound

/-- The settings are valid, and the classes are numbered. -/
theorem settings : heap.config.validate = .ok () ∧ heap.classes.Numbered := by
  obtain ⟨start, reachable, follows⟩ := derived.origin
  obtain ⟨log, course⟩ := follows.course
  obtain ⟨config, numbered⟩ := course.settings reachable.sound derived.bounded
  rw [config]
  exact ⟨reachable.settings.1, numbered reachable.settings.2⟩

theorem after {α : Type} {program : HeapM α} (tame : Tame program)
    (bounded : (program.run heap).2.handles.slots < 2 ^ 32) : (program.run heap).2.Derived := by
  obtain ⟨start, reachable, follows⟩ := derived.origin
  exact ⟨⟨start, reachable, follows.trans (tame.follows heap derived.sound bounded)⟩, bounded⟩

theorem of_ran {α : Type} {program : HeapM α} (tame : Tame program) {next : Heap}
    {result : Except HeapError α} (ran : program.run heap = (result, next))
    (bounded : next.handles.slots < 2 ^ 32) : next.Derived := by
  have following := derived.after tame (by rw [ran]; exact bounded)
  rw [ran] at following
  exact following

/-- What has to be assumed of a run during which some handles last. -/
theorem assured {next : Heap} (bounded : next.handles.slots < 2 ^ 32) {handles : List Handle}
    (lasting : heap.Lasting next handles) : heap.Assured next handles :=
  ⟨derived.sound, derived.settings.2, bounded, lasting⟩

/-- The settings do not change while a program runs. -/
theorem loadable (loadable : Loadable heap.config) {α : Type}
    {program : HeapM α} (tame : Tame program)
    (bounded : (program.run heap).2.handles.slots < 2 ^ 32) :
    Loadable (program.run heap).2.config := by
  obtain ⟨log, course⟩ := tame.course heap derived.sound bounded
  rw [(course.settings derived.sound bounded).1]
  exact loadable

end Derived

end Heap

namespace RefArray

/-! ## Arrays -/

/-- The heaps in which an array is in use.  It has been made or allocated bare, and since then
nothing but its own operations has written it.  It lasts throughout. -/
inductive Tended (array : RefArray) : Heap → Prop
  | made {heap next : Heap} (capacity : Nat) :
      heap.Reachable → (withCapacity capacity).run heap = (.ok array, next) →
        next.handles.slots < 2 ^ 32 → Tended array next
  | filled {heap next : Heap} (length : Nat) :
      heap.Reachable → (RefArray.filled length).run heap = (.ok array, next) →
        next.handles.slots < 2 ^ 32 → Tended array next
  | bare {heap next : Heap} (extra : Nat) :
      heap.Reachable → (Heap.allocate .array extra).run heap = (.ok array.handle, next) →
        next.handles.slots < 2 ^ 32 → Tended array next
  | changed {heap next : Heap} (change : Change) {result : Except HeapError (Option Handle)} :
      Tended array heap → (change.program array).run heap = (result, next) →
        next.handles.slots < 2 ^ 32 → heap.Lasting next [array.handle] → Tended array next
  | elsewhere {heap next : Heap} {α : Type} {operation : HeapM α} :
      Tended array heap → heap.Elsewhere (array.parts heap) [] operation →
        (operation.run heap).2 = next → next.handles.slots < 2 ^ 32 →
        heap.Lasting next [array.handle] → Tended array next

variable {array : RefArray} {heap next : Heap}

/-- The heap is derived, and the array owns its run in it. -/
def InOrder (array : RefArray) (heap : Heap) : Prop :=
  heap.Derived ∧ ∃ elements capacity storage, heap.Owns array elements capacity storage

/-- A new array is in order. -/
theorem inOrder_of_makes {program : HeapM RefArray} {elements : List (Option Handle)}
    {capacity : Nat} (reachable : heap.Reachable) (tame : Tame program)
    (makes : heap.Assured (program.run heap).2 [] → heap.Makes elements capacity (program.run heap))
    (ran : program.run heap = (.ok array, next)) (bounded : next.handles.slots < 2 ^ 32) :
    array.InOrder next := by
  have made := makes (reachable.assured (by rw [ran]; exact bounded))
  rw [ran] at made
  cases made with
  | made made =>
      exact ⟨reachable.derived.of_ran tame ran bounded, _, _, _, Owns.of_made reachable.apart made⟩

/-- An array that has just been allocated bare is in order. -/
theorem inOrder_of_allocated {extra : Nat} (reachable : heap.Reachable)
    (ran : (Heap.allocate .array extra).run heap = (.ok array.handle, next))
    (bounded : next.handles.slots < 2 ^ 32) : array.InOrder next := by
  have allocating := reachable.sound.allocating (reachable.sound.get_builtin rfl) extra
    (by rw [ran]; exact bounded)
  rw [ran] at allocating
  cases allocating with
  | placed allocates =>
      have record := allocates.record (Or.inl rfl)
      refine ⟨reachable.derived.of_ran (tame_allocate .array extra) ran bounded, [], 0, none,
        ⟨record, by decide, Nat.le_refl _, by simp, by simp⟩, ?_⟩
      apply reachable.apart.of_new allocates.leaves
      intro handle listed view seen
      cases List.mem_singleton.mp listed
      exact record.sane (Or.inl rfl) seen

/-- An array in order stays so when one of its operations runs. -/
theorem InOrder.change (inOrder : array.InOrder heap) (change : Change)
    {result : Except HeapError (Option Handle)}
    (ran : (change.program array).run heap = (result, next)) (bounded : next.handles.slots < 2 ^ 32)
    (lasting : heap.Lasting next [array.handle]) :
    array.InOrder next := by
  obtain ⟨derived, elements, capacity, storage, owns⟩ := inOrder
  have changes := owns.change change (Or.inr List.mem_cons_self)
    (derived.assured (by rw [ran]; exact bounded) (by rw [ran]; exact lasting))
  have nextDerived := derived.of_ran (change.tame_program array) ran bounded
  rw [ran] at changes
  cases changes with
  | refused _ => exact ⟨derived, elements, capacity, storage, owns⟩
  | done _ owned _ _ => exact ⟨nextDerived, _, _, _, owned⟩
  | failed _ unpushed _ _ =>
      obtain ⟨more, held, owned, _⟩ := unpushed.owns
      exact ⟨nextDerived, elements, more, held, owned⟩

/-- An array in use owns its run. -/
theorem Tended.owns (tended : array.Tended heap) : array.InOrder heap := by
  induction tended with
  | made capacity reachable ran bounded =>
      exact inOrder_of_makes reachable (tame_withCapacity capacity) Assured.withCapacity ran bounded
  | filled length reachable ran bounded =>
      exact inOrder_of_makes reachable (tame_filled length) Assured.filled ran bounded
  | bare extra reachable ran bounded => exact inOrder_of_allocated reachable ran bounded
  | changed change _ ran bounded lasting ih => exact ih.change change ran bounded lasting
  | @elsewhere heap next _ operation _ elsewhere same bounded lasting ih =>
      obtain ⟨derived, elements, capacity, storage, owns⟩ := ih
      subst same
      rw [owns.lists.parts_eq] at elsewhere
      have assured := derived.assured bounded lasting
      obtain ⟨tame, _⟩ := elsewhere.keeps (owns.compound.within derived.sound)
        (owns.compound.guarded derived.sound owns.apart)
      exact ⟨derived.after tame bounded, elements, capacity, storage,
        (owns.elsewhere elsewhere assured).2.2⟩

/-- An array that has a history is in use. -/
theorem History.tended {elements : List (Option Handle)} (history : array.History heap elements) :
    array.Tended heap := by
  induction history with
  | made capacity reachable ran bounded => exact .made capacity reachable ran bounded
  | filled length reachable ran bounded => exact .filled length reachable ran bounded
  | changed change _ ran bounded lasting ih => exact ih.changed change ran bounded lasting
  | failed change _ ran bounded lasting ih => exact ih.changed change ran bounded lasting
  | elsewhere _ elsewhere same bounded lasting ih =>
      exact ih.elsewhere elsewhere same bounded lasting

/-- An array is usable if it is in use or its handle is stale. -/
def Usable (array : RefArray) (heap : Heap) : Prop :=
  array.Tended heap ∨ heap.Derived ∧ heap.isLive array.handle = false

/-- Nothing can be done to an array whose handle is stale. -/
theorem change_stale (sound : heap.Sound) (stale : heap.isLive array.handle = false)
    (change : Change) : ∃ error, (change.program array).run heap = (.error error, heap) := by
  have gone := sound.objectOf_stale (sound.isLive_eq_false_iff.mp stale)
  have length : array.lengthWord heap = .error (.staleHandle array.handle) := by
    unfold lengthWord Heap.readWord withDataWord
    rw [gone]
    rfl
  refine ⟨.staleHandle array.handle, ?_⟩
  cases change with
  | push value =>
      unfold Change.program RefArray.push
      rw [HeapM.run_bind, HeapM.run_bind, HeapM.run_ask, length]
  | pop =>
      unfold Change.program RefArray.pop
      rw [HeapM.run_bind, HeapM.run_ask, length]
  | set index value =>
      unfold Change.program RefArray.set backingAt RefArray.length
      rw [HeapM.run_bind, HeapM.run_bind, HeapM.run_ask, length]
      rfl
  | clear =>
      unfold Change.program RefArray.clear RefArray.length
      rw [HeapM.run_bind, HeapM.run_bind, HeapM.run_ask, length]
      rfl

end RefArray

/-! ## Bare tables -/

namespace Heap

/-- A table that has been allocated as a mere object has no buckets. -/
structure Bare (heap : Heap) (table : RefTable) : Prop where
  record : heap.Record Registry.hashtableClass table.handle 0 0 none
  apart : heap.Apart [table.handle]

namespace Bare

variable {heap : Heap} {table : RefTable}

/-- A table that has just been allocated is bare. -/
theorem of_allocates {before : Heap} {extra : UInt32} (apart : before.Apart [])
    (allocates : before.Allocates heap (View.fresh Registry.hashtableClass extra) table.handle) :
    heap.Bare table := by
  have record := allocates.record (Or.inr rfl)
  refine ⟨record, apart.of_new allocates.leaves ?_⟩
  intro handle listed view seen
  cases List.mem_singleton.mp listed
  exact record.sane (Or.inr rfl) seen

variable (bare : heap.Bare table)

include bare

theorem buckets : table.buckets heap = .error (.corrupt (.missingBuckets table.handle)) := by
  unfold RefTable.buckets
  rw [show heap.readRef table.handle RefTable.bucketsOffset = .ok none from
    bare.record.readStorage (Or.inr rfl)]
  rfl

theorem parts_eq : table.parts heap = [table.handle] := by
  unfold RefTable.parts
  rw [bare.buckets]

theorem contentKeys_eq : table.contentKeys heap = [] := by
  unfold RefTable.contentKeys RefTable.keys RefTable.entries
  rw [bare.buckets]
  rfl

theorem find? (key : Handle) (hash : Key → UInt64) :
    table.find? heap key hash = .error (.corrupt (.missingBuckets table.handle)) := by
  unfold RefTable.find?
  rw [bare.buckets]
  rfl

/-- Nothing can be done to a bare table. -/
theorem change (change : RefTable.Change) (hash : Key → UInt64) :
    ∃ error, (change.program table hash).run heap = (.error error, heap) := by
  cases change with
  | insert key value =>
      unfold RefTable.Change.program RefTable.insert
      rw [HeapM.run_bind, HeapM.run_ask]
      cases heap.classOf value with
      | error error => exact ⟨error, rfl⟩
      | ok id =>
          dsimp only
          rw [HeapM.run_bind, HeapM.run_ask, bare.find?]
          exact ⟨_, rfl⟩
  | remove key =>
      unfold RefTable.Change.program RefTable.remove
      rw [HeapM.run_bind, HeapM.run_ask, bare.find?]
      exact ⟨_, rfl⟩

/-- A bare table is a compound of one object. -/
theorem compound : heap.Compound table.handle [table.handle] [] [] where
  rooted := List.mem_cons_self
  live handle part := by
    cases List.mem_singleton.mp part
    exact bare.record.isLive
  hangs handle part := Hangs.root (by simpa using part)
  vectors handle part view seen run := by
    cases List.mem_singleton.mp part
    obtain ⟨shown, there, table, _⟩ := bare.record.shown
    rw [seen] at there
    cases there
    rw [table] at run
    cases run
  plain handle still := absurd still List.not_mem_nil

/-- A bare table stays bare while something goes on elsewhere. -/
theorem elsewhere {α : Type} {operation : HeapM α}
    (elsewhere : heap.Elsewhere [table.handle] [] operation)
    (assured : heap.Assured (operation.run heap).2 [table.handle]) :
    Tame operation ∧ (operation.run heap).2.Bare table := by
  have guarded := bare.compound.guarded assured.sound bare.apart
  obtain ⟨tame, keeps⟩ := elsewhere.keeps (bare.compound.within assured.sound) guarded
  have still := keeps ⟨assured, guarded⟩
  exact ⟨tame, bare.record.congr (Compound.view?_of_guarded still List.mem_cons_self),
    Compound.apart_of_guarded still⟩

end Bare

end Heap

namespace RefTable

/-! ## Tables -/

/-- The heaps in which a table is in use, with one hash function.  It has been made or allocated
bare, and since then nothing but its own operations has written it, its bucket array, or a key that
is compared by content.  It lasts throughout. -/
inductive Tended (hash : Key → UInt64) (table : RefTable) : Heap → Prop
  | made {heap next : Heap} (capacity : Nat) :
      heap.Reachable → Binary.Format.single.Admits heap.config.tableLoadFactor →
        (withCapacity capacity).run heap = (.ok table, next) → next.handles.slots < 2 ^ 32 →
        Tended hash table next
  | created {heap next : Heap} :
      heap.Reachable → Binary.Format.single.Admits heap.config.tableLoadFactor →
        new.run heap = (.ok table, next) → next.handles.slots < 2 ^ 32 → Tended hash table next
  | bare {heap next : Heap} (extra : Nat) :
      heap.Reachable → (Heap.allocate .hashtable extra).run heap = (.ok table.handle, next) →
        next.handles.slots < 2 ^ 32 → Tended hash table next
  | changed {heap next : Heap} (change : Change) {result : Except HeapError (Option Handle)} :
      Tended hash table heap → (change.program table hash).run heap = (result, next) →
        next.handles.slots < 2 ^ 32 → heap.Lasting next [table.handle] → Tended hash table next
  | elsewhere {heap next : Heap} {α : Type} {operation : HeapM α} :
      Tended hash table heap →
        heap.Elsewhere (table.parts heap) (table.contentKeys heap) operation →
        (operation.run heap).2 = next → next.handles.slots < 2 ^ 32 →
        heap.Lasting next [table.handle] → Tended hash table next

variable {hash : Key → UInt64} {table : RefTable} {heap next : Heap}

/-- A table in use owns its buckets, or is bare. -/
inductive InOrder (hash : Key → UInt64) (table : RefTable) (heap : Heap) : Prop
  | owned {bins : Bins} : Loadable heap.config → heap.OwnsBins hash table bins →
      InOrder hash table heap
  | bare : heap.Bare table → InOrder hash table heap

/-- A new table is in order. -/
theorem inOrder_of_made {capacity : Nat} (reachable : heap.Reachable)
    (admits : Binary.Format.single.Admits heap.config.tableLoadFactor)
    (ran : (withCapacity capacity).run heap = (.ok table, next))
    (bounded : next.handles.slots < 2 ^ 32) : next.Derived ∧ table.InOrder hash next := by
  have derived := reachable.derived.of_ran (tame_withCapacity capacity) ran bounded
  have keeps : table.Keeps hash next fun _ => none := keeps_of_made reachable admits ran bounded
  obtain ⟨bins, owns, _⟩ := keeps.owns
  exact ⟨derived, .owned keeps.loadable owns⟩

/-- A table that has just been allocated is in order. -/
theorem inOrder_of_allocated {extra : Nat} (reachable : heap.Reachable)
    (ran : (Heap.allocate .hashtable extra).run heap = (.ok table.handle, next))
    (bounded : next.handles.slots < 2 ^ 32) : next.Derived ∧ table.InOrder hash next := by
  have allocating := reachable.sound.allocating (reachable.sound.get_builtin rfl) extra
    (by rw [ran]; exact bounded)
  rw [ran] at allocating
  cases allocating with
  | placed allocates =>
      exact ⟨reachable.derived.of_ran (tame_allocate .hashtable extra) ran bounded,
        .bare (Bare.of_allocates reachable.apart allocates)⟩

section

variable (derived : heap.Derived) (inOrder : table.InOrder hash heap)

include derived inOrder

/-- A table in order stays so when one of its operations runs. -/
theorem InOrder.change (change : Change) {result : Except HeapError (Option Handle)}
    (ran : (change.program table hash).run heap = (result, next))
    (bounded : next.handles.slots < 2 ^ 32) (lasting : heap.Lasting next [table.handle]) :
    next.Derived ∧ table.InOrder hash next := by
  have tame := change.tame_program table hash
  have small : ((change.program table hash).run heap).2.handles.slots < 2 ^ 32 := by
    rw [ran]
    exact bounded
  have nextDerived := derived.of_ran tame ran bounded
  cases inOrder with
  | owned loadable owns =>
      have changes := owns.change loadable change (Or.inr List.mem_cons_self)
        (derived.assured small (by rw [ran]; exact lasting))
      have still := derived.loadable loadable tame small
      rw [ran] at changes still
      cases changes with
      | refused _ _ => exact ⟨derived, .owned loadable owns⟩
      | done _ _ _ owned _ _ => exact ⟨nextDerived, .owned still owned⟩
      | failed _ _ unentered _ =>
          obtain ⟨others, owned, _⟩ := unentered.owns
          exact ⟨nextDerived, .owned still owned⟩
  | bare bare =>
      obtain ⟨error, failed⟩ := bare.change change hash
      rw [ran] at failed
      cases failed
      exact ⟨derived, .bare bare⟩

/-- A table in order stays so while something goes on elsewhere. -/
theorem InOrder.elsewhere {α : Type} {operation : HeapM α}
    (elsewhere : heap.Elsewhere (table.parts heap) (table.contentKeys heap) operation)
    (bounded : (operation.run heap).2.handles.slots < 2 ^ 32)
    (lasting : heap.Lasting (operation.run heap).2 [table.handle]) :
    (operation.run heap).2.Derived ∧ table.InOrder hash (operation.run heap).2 := by
  have sound := derived.sound
  have assured := derived.assured bounded lasting
  cases inOrder with
  | owned loadable owns =>
      rw [owns.maps.parts_eq, owns.maps.contentKeys_eq sound] at elsewhere
      have compound := owns.maps.compound sound owns.apart.sane
      obtain ⟨tame, _⟩ := elsewhere.keeps (compound.within sound)
        (compound.guarded sound owns.apart)
      exact ⟨derived.after tame bounded, .owned (derived.loadable loadable tame bounded)
        (owns.elsewhere elsewhere assured).2.2⟩
  | bare bare =>
      rw [bare.parts_eq, bare.contentKeys_eq] at elsewhere
      obtain ⟨tame, still⟩ := bare.elsewhere elsewhere assured
      exact ⟨derived.after tame bounded, .bare still⟩

end

theorem Tended.inOrder (tended : table.Tended hash heap) :
    heap.Derived ∧ table.InOrder hash heap := by
  induction tended with
  | made capacity reachable admits ran bounded => exact inOrder_of_made reachable admits ran bounded
  | created reachable admits ran bounded =>
      unfold RefTable.new at ran
      rw [HeapM.run_bind, HeapM.run_get] at ran
      exact inOrder_of_made reachable admits ran bounded
  | bare extra reachable ran bounded => exact inOrder_of_allocated reachable ran bounded
  | changed change _ ran bounded lasting ih => exact ih.2.change ih.1 change ran bounded lasting
  | elsewhere _ elsewhere same bounded lasting ih =>
      subst same
      exact ih.2.elsewhere ih.1 elsewhere bounded lasting

/-- A table that has a history is in use. -/
theorem History.tended {map : Key → Option (Handle × Handle)}
    (history : table.History hash heap map) : table.Tended hash heap := by
  induction history with
  | made capacity reachable admits ran bounded => exact .made capacity reachable admits ran bounded
  | created reachable admits ran bounded => exact .created reachable admits ran bounded
  | changed change _ _ ran bounded lasting ih => exact ih.changed change ran bounded lasting
  | failed change _ ran bounded lasting ih => exact ih.changed change ran bounded lasting
  | elsewhere _ elsewhere same bounded lasting ih =>
      exact ih.elsewhere elsewhere same bounded lasting

/-- A table is usable if it is in use or its handle is stale. -/
def Usable (hash : Key → UInt64) (table : RefTable) (heap : Heap) : Prop :=
  table.Tended hash heap ∨ heap.Derived ∧ heap.isLive table.handle = false

section

variable (sound : heap.Sound) (stale : heap.isLive table.handle = false)

include sound stale

theorem buckets_stale : table.buckets heap = .error (.staleHandle table.handle) := by
  unfold buckets Heap.readRef withRefField
  rw [sound.objectOf_stale (sound.isLive_eq_false_iff.mp stale)]
  rfl

theorem find?_stale (key : Handle) (hash : Key → UInt64) :
    table.find? heap key hash = .error (.staleHandle table.handle) := by
  unfold find?
  rw [buckets_stale sound stale]
  rfl

/-- Nothing can be done to a table whose handle is stale. -/
theorem change_stale (change : Change) (hash : Key → UInt64) :
    ∃ error, (change.program table hash).run heap = (.error error, heap) := by
  have finds (key : Handle) := find?_stale sound stale key hash
  cases change with
  | insert key value =>
      unfold Change.program RefTable.insert
      rw [HeapM.run_bind, HeapM.run_ask]
      cases heap.classOf value with
      | error error => exact ⟨error, rfl⟩
      | ok id =>
          dsimp only
          rw [HeapM.run_bind, HeapM.run_ask, finds]
          exact ⟨_, rfl⟩
  | remove key =>
      unfold Change.program RefTable.remove
      rw [HeapM.run_bind, HeapM.run_ask, finds]
      exact ⟨_, rfl⟩

end

end RefTable

end CompactingHeap
