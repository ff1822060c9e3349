import CompactingHeap.Proofs.Views
import Mathlib.Data.List.Count

/-!
# Running a program under holds

Adding and dropping holds changes counts and nothing that shows in a view.  A program that runs
while objects are held runs on such a heap, and what it leaves is left but for counts.  As long as
no count comes to its bound, all holds can be given back, so the outcome is that of the program
alone.
-/

namespace CompactingHeap

/-- The failure is a want of memory. -/
def HeapError.IsOutOfMemory (error : HeapError) : Prop :=
  ∃ size limit, error = .outOfMemory size limit

namespace Heap

/-- Two heaps differ in counts of holds only. -/
structure Recounts (heap next : Heap) : Prop where
  rest : next = { heap with handles := next.handles }
  resolve : ∀ handle, next.handles.resolve handle = heap.handles.resolve handle
  slots : next.handles.slots = heap.handles.slots

theorem Recounts.refl (heap : Heap) : heap.Recounts heap :=
  ⟨rfl, fun _ => rfl, rfl⟩

theorem Recounts.trans {heap middle next : Heap} (first : heap.Recounts middle)
    (second : middle.Recounts next) : heap.Recounts next where
  rest := by
    rw [second.rest, first.rest]
  resolve handle := (second.resolve handle).trans (first.resolve handle)
  slots := second.slots.trans first.slots

section

variable {heap next : Heap} (recounts : heap.Recounts next)

include recounts

theorem Recounts.isLive (handle : Handle) : next.isLive handle = heap.isLive handle :=
  HandleTable.isLive_congr recounts.resolve handle

theorem Recounts.objectOf (handle : Handle) : next.objectOf handle = heap.objectOf handle := by
  unfold Heap.objectOf residentOf
  rw [recounts.resolve, recounts.rest]

theorem Recounts.handleOf? : next.handleOf? = heap.handleOf? := by
  have named : ∀ index handle, next.handles.handleAt? index = some handle ↔
      heap.handles.handleAt? index = some handle := by
    intro index handle
    rw [HandleTable.handleAt?_eq_some_iff, HandleTable.handleAt?_eq_some_iff]
    simp only [← HandleTable.resolve_eq_ok_iff, recounts.resolve]
  funext address
  have sameSpace : next.space = heap.space := by rw [recounts.rest]
  unfold Heap.handleOf?
  rw [sameSpace]
  congr 1
  funext object
  exact Option.ext (named object.owner)

theorem Recounts.view? : next.view? = heap.view? := by
  funext handle
  unfold Heap.view?
  rw [recounts.objectOf, recounts.handleOf?]

theorem Recounts.isInterned (handle : Handle) :
    next.isInterned handle = heap.isInterned handle := by
  have sameString : next.string handle = heap.string handle := by
    have sameClasses : next.classes = heap.classes := by rw [recounts.rest]
    unfold Heap.string expect
    rw [recounts.objectOf, sameClasses]
  have sameInterner : next.interner = heap.interner := by rw [recounts.rest]
  unfold Heap.isInterned
  rw [sameString, sameInterner]

end

/-! ## One hold -/

/-- The holds that several handles put on one object; interned strings are not counted. -/
def charge (heap : Heap) (handles : List Handle) (handle : Handle) : UInt32 :=
  if heap.isInterned handle then 0 else (handles.count handle).toUInt32

/-- Objects that are not listed are not charged. -/
theorem charge_of_not_mem (heap : Heap) {handles : List Handle} {handle : Handle}
    (unlisted : handle ∉ handles) : heap.charge handles handle = 0 := by
  unfold charge
  rw [List.count_eq_zero.mpr unlisted]
  exact ite_self _

theorem charge_nil (heap : Heap) (handle : Handle) : heap.charge [] handle = 0 :=
  heap.charge_of_not_mem List.not_mem_nil

theorem charge_append (heap : Heap) (first rest : List Handle) (handle : Handle) :
    heap.charge (first ++ rest) handle = heap.charge first handle + heap.charge rest handle := by
  unfold charge
  split
  · rfl
  · rw [List.count_append, Nat.toUInt32_eq, UInt32.ofNat_add]

theorem charge_cons (heap : Heap) (first : Handle) (rest : List Handle) (handle : Handle) :
    heap.charge (first :: rest) handle = heap.charge [first] handle + heap.charge rest handle :=
  heap.charge_append [first] rest handle

theorem Recounts.charge {heap next : Heap} (recounts : heap.Recounts next)
    (handles : List Handle) (handle : Handle) :
    next.charge handles handle = heap.charge handles handle := by
  unfold Heap.charge
  rw [recounts.isInterned]

/-- An interned string is live. -/
theorem isLive_of_isInterned {heap : Heap} {handle : Handle}
    (interned : heap.isInterned handle = true) : heap.isLive handle = true := by
  unfold Heap.isInterned at interned
  split at interned
  · next bytes known =>
    unfold Heap.string expect at known
    cases found : heap.objectOf handle with
    | error error =>
        rw [found] at known
        cases known
    | ok object =>
        rcases objectOf_eq_ok_iff.mp found with ⟨address, resolved, _⟩
        exact isLive_of_resolve resolved
  · cases interned

/-- Changing the count of a live handle. -/
theorem recounts_setSlot {heap : Heap} {handle : Handle} {address : Address} {holds : UInt32}
    (found : heap.handles.find handle = .ok (address, holds)) (count : UInt32) :
    heap.Recounts { heap with handles := heap.handles.setSlot handle address count } :=
  ⟨rfl, HandleTable.resolve_setSlot found count, HandleTable.slots_setSlot _ _ _ _⟩

theorem holds_setSlot {heap : Heap} {handle : Handle} {address : Address} {holds : UInt32}
    (found : heap.handles.find handle = .ok (address, holds)) (count : UInt32) (other : Handle) :
    Heap.holds { heap with handles := heap.handles.setSlot handle address count } other =
      if other = handle then .ok count else heap.holds other := by
  unfold Heap.holds HandleTable.holds
  dsimp only
  rw [HandleTable.find_setSlot found]
  split <;> rfl

theorem holds_of_find {heap : Heap} {handle : Handle} {address : Address} {holds : UInt32}
    (found : heap.handles.find handle = .ok (address, holds)) : heap.holds handle = .ok holds := by
  unfold Heap.holds HandleTable.holds
  rw [found]
  rfl

/-- What a change of holds by some amounts does. -/
structure Holds (heap next : Heap) (amount : Handle → UInt32 → UInt32) : Prop where
  recounts : heap.Recounts next
  holds : ∀ handle, next.holds handle = (heap.holds handle).map (amount handle)

theorem Holds.refl {heap : Heap} {amount : Handle → UInt32 → UInt32}
    (same : ∀ handle count, amount handle count = count) : heap.Holds heap amount where
  recounts := Recounts.refl heap
  holds handle := by
    have identity : amount handle = id := funext (same handle)
    rw [identity]
    exact (congrFun Except.map_id (heap.holds handle)).symm

/-- An object to which nothing is added is held as before. -/
theorem Holds.of_neutral {heap next : Heap} {amount : Handle → UInt32 → UInt32}
    (changes : heap.Holds next amount) {handle : Handle}
    (neutral : ∀ count, amount handle count = count) : next.holds handle = heap.holds handle := by
  rw [changes.holds, show amount handle = id from funext neutral]
  exact congrFun Except.map_id (heap.holds handle)

theorem Holds.trans {heap middle next : Heap} {first second total : Handle → UInt32 → UInt32}
    (before : heap.Holds middle first) (after : middle.Holds next second)
    (sum : ∀ handle count, second handle (first handle count) = total handle count) :
    heap.Holds next total where
  recounts := before.recounts.trans after.recounts
  holds handle := by
    rw [after.holds, before.holds]
    cases heap.holds handle with
    | error error => rfl
    | ok count => exact congrArg Except.ok (sum handle count)

theorem charge_self {heap : Heap} {handle : Handle} (uninterned : heap.isInterned handle = false) :
    heap.charge [handle] handle = 1 := by
  unfold charge
  rw [uninterned, List.count_singleton_self]
  rfl

theorem charge_of_ne (heap : Heap) {handle other : Handle} (different : other ≠ handle) :
    heap.charge [handle] other = 0 := by
  unfold charge
  rw [List.count_singleton, beq_eq_false_iff_ne.mpr (Ne.symm different)]
  exact ite_self _

theorem charge_of_interned {heap : Heap} {handle : Handle}
    (interned : heap.isInterned handle = true)
    (other : Handle) : heap.charge [handle] other = 0 := by
  by_cases same : other = handle
  · subst same
    unfold charge
    rw [if_pos interned]
  · exact heap.charge_of_ne same

section

variable {heap : Heap} {handle : Handle} {change : UInt32 → UInt32 → UInt32}
  (neutral : ∀ count, change count 0 = count)

include neutral

/-- Changing the count of one object by one. -/
theorem holds_of_uninterned (uninterned : heap.isInterned handle = false) {address : Address}
    {holds : UInt32} (found : heap.handles.find handle = .ok (address, holds)) :
    heap.Holds { heap with handles := heap.handles.setSlot handle address (change holds 1) }
      fun other count => change count (heap.charge [handle] other) := by
  refine ⟨recounts_setSlot found _, ?_⟩
  intro other
  rw [holds_setSlot found]
  by_cases same : other = handle
  · subst same
    rw [if_pos rfl, holds_of_find found, charge_self uninterned]
    rfl
  · rw [if_neg same, heap.charge_of_ne same]
    simp only [neutral]
    exact (congrFun Except.map_id (heap.holds other)).symm

/-- The count of an interned string does not change. -/
theorem holds_of_interned (interned : heap.isInterned handle = true) :
    heap.Holds heap fun other count => change count (heap.charge [handle] other) := by
  apply Holds.refl
  intro other count
  rw [charge_of_interned interned, neutral]

end

/-- A live object can be held, and a stale handle cannot. -/
theorem run_retain (heap : Heap) (handle : Handle) :
    (heap.isLive handle = true ∧ ∃ next, (retain handle).run heap = (.ok (), next) ∧
        heap.Holds next fun other count => count + heap.charge [handle] other) ∨
      heap.isLive handle = false ∧
        (retain handle).run heap = (.error (.staleHandle handle), heap) := by
  unfold retain
  rw [HeapM.run_bind, HeapM.run_get]
  dsimp only
  by_cases interned : heap.isInterned handle = true
  · left
    rw [if_pos interned]
    exact ⟨isLive_of_isInterned interned, heap, rfl, holds_of_interned UInt32.add_zero interned⟩
  · rw [if_neg interned, run_onHandles]
    unfold HandleTable.retain
    cases found : heap.handles.find handle with
    | error error =>
        right
        have stale := HandleTable.find_eq_error found
        subst stale
        exact ⟨HandleTable.isLive_eq_false_iff.mpr found, rfl⟩
    | ok occupant =>
        left
        obtain ⟨address, holds⟩ := occupant
        exact ⟨HandleTable.isLive_iff.mpr ⟨address, holds, found⟩, _, rfl,
          holds_of_uninterned UInt32.add_zero (Bool.eq_false_iff.mpr interned) found⟩

/-- A hold can be dropped where there is one. -/
theorem run_release (heap : Heap) (handle : Handle) :
    (heap.isLive handle = true ∧ ∃ next, (release handle).run heap = (.ok (), next) ∧
        heap.Holds next fun other count => count - heap.charge [handle] other) ∨
      heap.isInterned handle = false ∧ (∀ count, heap.holds handle = .ok count → count = 0) ∧
        ∃ error, (error = .staleHandle handle ∨ error = .notRooted handle) ∧
          (release handle).run heap = (.error error, heap) := by
  unfold release
  rw [HeapM.run_bind, HeapM.run_get]
  dsimp only
  by_cases interned : heap.isInterned handle = true
  · left
    rw [if_pos interned]
    exact ⟨isLive_of_isInterned interned, heap, rfl, holds_of_interned UInt32.sub_zero interned⟩
  · have uninterned := Bool.eq_false_iff.mpr interned
    rw [if_neg interned, run_onHandles]
    unfold HandleTable.release
    cases found : heap.handles.find handle with
    | error error =>
        right
        refine ⟨uninterned, ?_, error, ?_, rfl⟩
        · intro count counted
          unfold Heap.holds HandleTable.holds at counted
          rw [found] at counted
          cases counted
        · exact Or.inl (HandleTable.find_eq_error found)
    | ok occupant =>
        obtain ⟨address, holds⟩ := occupant
        dsimp only
        by_cases zero : holds = 0
        · right
          rw [if_pos zero]
          refine ⟨uninterned, ?_, _, ?_, rfl⟩
          · intro count counted
            rw [holds_of_find found] at counted
            cases counted
            exact zero
          · exact Or.inr rfl
        · left
          rw [if_neg zero]
          exact ⟨HandleTable.isLive_iff.mpr ⟨address, holds, found⟩, _, rfl,
            holds_of_uninterned UInt32.sub_zero uninterned found⟩

/-! ## Several holds -/

/-- Dropping holds changes counts only, whether it succeeds or fails. -/
theorem recounts_releaseAll (handles : List Handle) (heap : Heap) :
    heap.Recounts ((releaseAll handles).run heap).2 := by
  induction handles generalizing heap with
  | nil => exact Recounts.refl heap
  | cons handle rest ih =>
      unfold releaseAll
      rw [HeapM.run_bind]
      rcases run_release heap handle with ⟨_, next, ran, drops⟩ | ⟨_, _, error, _, ran⟩
      · rw [ran]
        exact drops.recounts.trans (ih next)
      · rw [ran]
        exact Recounts.refl heap

/-- Dropping holds fails where there is none. -/
theorem releaseAll_error {handles : List Handle} {heap next : Heap} {error : HeapError}
    (failed : (releaseAll handles).run heap = (.error error, next)) :
    ∃ handle ∈ handles, error = .staleHandle handle ∨ error = .notRooted handle := by
  induction handles generalizing heap with
  | nil => cases failed
  | cons handle rest ih =>
      unfold releaseAll at failed
      rw [HeapM.run_bind] at failed
      rcases run_release heap handle with ⟨_, middle, ran, _⟩ | ⟨_, _, reason, other, ran⟩
      · rw [ran] at failed
        obtain ⟨culprit, listed, said⟩ := ih failed
        exact ⟨culprit, List.mem_cons_of_mem _ listed, said⟩
      · rw [ran] at failed
        cases failed
        exact ⟨handle, List.mem_cons_self, other⟩

/-- Dropping holds fails for another reason than a lack of memory. -/
theorem releaseAll_memory {handles : List Handle} {heap next : Heap} {error : HeapError}
    (failed : (releaseAll handles).run heap = (.error error, next)) : ¬ error.IsOutOfMemory := by
  rintro ⟨size, limit, rfl⟩
  obtain ⟨handle, _, said | said⟩ := releaseAll_error failed
  all_goals cases said

/-- What dropping holds does if it succeeds: they were on live objects, and are counted off. -/
theorem releaseAll_eq_ok {handles : List Handle} {heap next : Heap}
    (ran : (releaseAll handles).run heap = (.ok (), next)) :
    (∀ handle ∈ handles, heap.isLive handle = true) ∧
      heap.Holds next fun other count => count - heap.charge handles other := by
  induction handles generalizing heap with
  | nil =>
      cases ran
      refine ⟨by simp, Holds.refl ?_⟩
      intro other count
      rw [charge_nil, UInt32.sub_zero]
  | cons first rest ih =>
      unfold releaseAll at ran
      rw [HeapM.run_bind] at ran
      rcases run_release heap first
        with ⟨live, middle, released, drops⟩ | ⟨_, _, error, _, released⟩
      · rw [released] at ran
        obtain ⟨others, more⟩ := ih ran
        constructor
        · intro handle member
          rcases List.mem_cons.mp member with rfl | member
          · exact live
          · rw [← drops.recounts.isLive]
            exact others handle member
        · apply drops.trans more
          intro handle count
          rw [drops.recounts.charge, heap.charge_cons first rest]
          grind
      · rw [released] at ran
        cases ran

/-- The listed objects are held at least as often as they are listed. -/
def Releasable (heap : Heap) (handles : List Handle) : Prop :=
  ∀ handle ∈ handles, heap.isInterned handle = false →
    ∃ count, heap.holds handle = .ok count ∧ handles.count handle ≤ count.toNat

/-- Holding comes to no bound: there is room for the holds of all listed objects. -/
def Holdable (heap : Heap) (handles : List Handle) : Prop :=
  ∀ handle count, heap.holds handle = .ok count → count.toNat + handles.count handle < 2 ^ 32

/-- As many holds as there are can be dropped. -/
theorem exists_releaseAll {handles : List Handle} {heap : Heap} (enough : heap.Releasable handles) :
    ∃ next, (releaseAll handles).run heap = (.ok (), next) := by
  induction handles generalizing heap with
  | nil => exact ⟨heap, rfl⟩
  | cons first rest ih =>
      unfold releaseAll
      rw [HeapM.run_bind]
      rcases run_release heap first with ⟨live, middle, released, drops⟩ | ⟨new, none, _⟩
      · rw [released]
        have later : ∀ handle ∈ rest, middle.isInterned handle = false →
            ∃ count, middle.holds handle = .ok count ∧ rest.count handle ≤ count.toNat := by
          intro handle member uninterned
          rw [drops.recounts.isInterned] at uninterned
          obtain ⟨count, counted, within⟩ :=
            enough handle (List.mem_cons_of_mem first member) uninterned
          refine ⟨count - heap.charge [first] handle, by rw [drops.holds, counted]; rfl, ?_⟩
          by_cases same : handle = first
          · subst same
            rw [List.count_cons_self] at within
            rw [charge_self uninterned, UInt32.toNat_sub_of_le]
            · exact Nat.le_sub_one_of_lt within
            · exact UInt32.le_iff_toNat_le.mpr (Nat.le_trans (Nat.le_add_left 1 _) within)
          · rw [heap.charge_of_ne same, UInt32.sub_zero]
            rw [List.count_cons_of_ne (Ne.symm same)] at within
            exact within
        exact ih later
      · obtain ⟨count, counted, within⟩ := enough first List.mem_cons_self new
        rw [List.count_cons_self, none count counted] at within
        exact absurd within (Nat.not_succ_le_zero _)

/-- Holding several live objects. -/
theorem run_retainAfter (taken : List Handle) {handles : List Handle} {heap : Heap}
    (live : ∀ handle ∈ handles, heap.isLive handle = true) :
    ∃ held, (retainAfter taken handles).run heap = (.ok (), held) ∧
      heap.Holds held fun other count => count + heap.charge handles other := by
  induction handles generalizing heap taken with
  | nil =>
      refine ⟨heap, rfl, Holds.refl ?_⟩
      intro other count
      rw [charge_nil, UInt32.add_zero]
  | cons first rest ih =>
      unfold retainAfter
      rw [HeapM.run_bind, HeapM.run_attempt]
      rcases run_retain heap first with ⟨_, middle, retained, adds⟩ | ⟨stale, _⟩
      · rw [retained]
        obtain ⟨held, ran, more⟩ := ih (taken ++ [first]) fun handle member =>
          (adds.recounts.isLive handle).trans (live handle (List.mem_cons_of_mem first member))
        refine ⟨held, ran, adds.trans more ?_⟩
        intro handle count
        rw [adds.recounts.charge, heap.charge_cons first rest, UInt32.add_assoc]
      · rw [live first List.mem_cons_self] at stale
        cases stale

/-- Adding holds below the bound. -/
theorem toNat_add_charge (heap : Heap) (handles : List Handle) {other : Handle} {count : UInt32}
    (room : count.toNat + handles.count other < 2 ^ 32) :
    (count + heap.charge handles other).toNat ≤ count.toNat + handles.count other ∧
      (heap.isInterned other = false →
        (count + heap.charge handles other).toNat = count.toNat + handles.count other) := by
  unfold charge
  by_cases interned : heap.isInterned other = true
  · rw [if_pos interned, UInt32.add_zero]
    refine ⟨Nat.le_add_right _ _, ?_⟩
    intro uninterned
    rw [interned] at uninterned
    cases uninterned
  · rw [if_neg interned]
    have sum : (count + (handles.count other).toUInt32).toNat =
        count.toNat + handles.count other := by
      rw [UInt32.toNat_add, Nat.toUInt32_eq, UInt32.toNat_ofNat']
      omega
    exact ⟨Nat.le_of_eq sum, fun _ => sum⟩

section

variable {heap middle : Heap} {first : Handle} {taken rest : List Handle}

theorem Holdable.count_lt (room : heap.Holdable (first :: rest)) {handle : Handle} {count : UInt32}
    (counted : heap.holds handle = .ok count) :
    count.toNat + [first].count handle + rest.count handle < 2 ^ 32 := by
  have total := room handle count counted
  rw [← List.singleton_append, List.count_append] at total
  omega

/-- When the first of several objects has been held, the others can be. -/
theorem Holdable.tail (room : heap.Holdable (first :: rest))
    (adds : heap.Holds middle fun other count => count + heap.charge [first] other) :
    middle.Holdable rest := by
  intro handle count counted
  rw [adds.holds] at counted
  cases before : heap.holds handle with
  | error error =>
      rw [before] at counted
      cases counted
  | ok old =>
      rw [before] at counted
      cases counted
      have total := room.count_lt before
      have sum := (heap.toNat_add_charge [first]
        (Nat.lt_of_le_of_lt (Nat.le_add_right _ _) total)).1
      exact Nat.lt_of_le_of_lt (Nat.add_le_add_right sum _) total

/-- A live object that is held once more can be let go with those before it. -/
theorem Releasable.concat (releasable : heap.Releasable taken) (live : heap.isLive first = true)
    (room : heap.Holdable (first :: rest))
    (adds : heap.Holds middle fun other count => count + heap.charge [first] other) :
    middle.Releasable (taken ++ [first]) := by
  intro handle held uninterned
  rw [adds.recounts.isInterned] at uninterned
  have known : ∃ count, heap.holds handle = .ok count ∧ taken.count handle ≤ count.toNat := by
    by_cases old : handle ∈ taken
    · exact releasable handle old uninterned
    · have new := (List.mem_append.mp held).resolve_left old
      rcases List.mem_singleton.mp new with rfl
      rcases HandleTable.isLive_iff.mp live with ⟨address, holds, found⟩
      refine ⟨holds, holds_of_find found, ?_⟩
      rw [List.count_eq_zero_of_not_mem old]
      exact Nat.zero_le _
  obtain ⟨count, counted, within⟩ := known
  have sum := (heap.toNat_add_charge [first]
    (Nat.lt_of_le_of_lt (Nat.le_add_right _ _) (room.count_lt counted))).2 uninterned
  refine ⟨count + heap.charge [first] handle, by rw [adds.holds, counted]; rfl, ?_⟩
  rw [List.count_append, sum]
  exact Nat.add_le_add_right within _

end

/-- If one of several objects is stale, no view changes.  As long as no count comes to its bound,
the failure names a stale handle, and the holds that were taken before are given back. -/
theorem run_retainAfter_stale (taken : List Handle) {handles : List Handle} {heap : Heap}
    {stale : Handle} (member : stale ∈ handles) (dead : heap.isLive stale = false) :
    ∃ error next, (retainAfter taken handles).run heap = (.error error, next) ∧
      heap.Recounts next ∧
      (heap.Releasable taken → heap.Holdable handles →
        (heap.Holds next fun other count => count - heap.charge taken other) ∧
          ∃ handle ∈ handles, heap.isLive handle = false ∧ error = .staleHandle handle) := by
  induction handles generalizing heap taken with
  | nil => cases member
  | cons first rest ih =>
      unfold retainAfter
      rw [HeapM.run_bind, HeapM.run_attempt]
      rcases run_retain heap first with ⟨live, middle, retained, adds⟩ | ⟨lost, refused⟩
      · rw [retained]
        have later : stale ∈ rest := by
          rcases List.mem_cons.mp member with rfl | later
          · rw [live] at dead
            cases dead
          · exact later
        obtain ⟨error, next, ran, recounts, reason⟩ := ih (taken ++ [first]) later
          ((adds.recounts.isLive stale).trans dead)
        refine ⟨error, next, ran, adds.recounts.trans recounts, ?_⟩
        intro releasable room
        obtain ⟨drops, handle, here, gone, named⟩ :=
          reason (releasable.concat live room adds) (room.tail adds)
        refine ⟨adds.trans drops ?_, handle, List.mem_cons_of_mem first here,
          (adds.recounts.isLive handle).symm.trans gone, named⟩
        intro other count
        rw [adds.recounts.charge, heap.charge_append taken [first]]
        grind
      · rw [refused]
        dsimp only
        rw [HeapM.run_bind]
        have recounts := recounts_releaseAll taken heap
        rcases ran : (releaseAll taken).run heap with ⟨error | _, next⟩
        · rw [ran] at recounts
          refine ⟨error, next, rfl, recounts, ?_⟩
          intro releasable _
          obtain ⟨restored, all⟩ := exists_releaseAll releasable
          rw [ran] at all
          cases all
        · rw [ran] at recounts
          exact ⟨_, next, rfl, recounts, fun _ _ =>
            ⟨(releaseAll_eq_ok ran).2, first, List.mem_cons_self, lost, rfl⟩⟩

/-! ## Holding while a program runs -/

/-- The live objects are held once more for each time they are listed. -/
structure Held (heap held : Heap) (handles : List Handle) : Prop where
  took : (retainAll handles).run heap = (.ok (), held)
  sound : held.Sound
  live : ∀ handle ∈ handles, heap.isLive handle = true
  adds : heap.Holds held fun other count => count + heap.charge handles other

/-- What becomes of a program that runs while objects are held: it does not run because one of them
is stale, or it runs and the holds are given back, or it runs and one of them cannot be given
back. -/
inductive Holding {α : Type} (heap : Heap) (handles : List Handle) (body : HeapM α) :
    Except HeapError α × Heap → Prop
  | unheld {stale : Handle} {error : HeapError} {next : Heap} :
      stale ∈ handles → heap.isLive stale = false → heap.Recounts next →
        Holding heap handles body (.error error, next)
  | ran {held after next : Heap} {result : Except HeapError α} :
      heap.Held held handles → body.run held = (result, after) → after.handles.slots < 2 ^ 32 →
        (∀ handle ∈ handles, after.isLive handle = true) →
        after.Holds next (fun other count => count - after.charge handles other) →
        (releaseAll handles).run after = (.ok (), next) →
        Holding heap handles body (result, next)
  | unreleased {held after next : Heap} {result : Except HeapError α} {error : HeapError} :
      heap.Held held handles → body.run held = (result, after) → after.handles.slots < 2 ^ 32 →
        after.Recounts next → (releaseAll handles).run after = (.error error, next) →
        Holding heap handles body (.error error, next)

/-- Live objects can be held in a sound heap. -/
theorem Sound.exists_held {heap : Heap} (sound : heap.Sound) {handles : List Handle}
    (live : ∀ handle ∈ handles, heap.isLive handle = true) :
    ∃ held, (retainAll handles).run heap = (.ok (), held) ∧ heap.Held held handles := by
  obtain ⟨held, ran, adds⟩ := run_retainAfter [] live
  refine ⟨held, ran, ran, ?_, live, adds⟩
  have still := (tame_retainAfter [] handles).sound sound
  rw [ran, adds.recounts.slots] at still
  exact still sound.bounded

theorem Sound.run_withHeld {heap : Heap} (sound : heap.Sound) {α : Type} (handles : List Handle)
    (body : HeapM α) (bounded : ((withHeld handles body).run heap).2.handles.slots < 2 ^ 32) :
    Holding heap handles body ((withHeld handles body).run heap) := by
  unfold withHeld at bounded ⊢
  rw [HeapM.run_bind] at bounded ⊢
  by_cases live : ∀ handle ∈ handles, heap.isLive handle = true
  · obtain ⟨held, ran, holding⟩ := sound.exists_held live
    rw [ran] at bounded ⊢
    dsimp only at bounded ⊢
    rw [HeapM.run_bind, HeapM.run_attempt] at bounded ⊢
    rcases runs : body.run held with ⟨error | value, after⟩
    all_goals
      rw [runs] at bounded
      have recounts := recounts_releaseAll handles after
      dsimp only at bounded ⊢
      rw [HeapM.run_bind] at bounded ⊢
      rcases released : (releaseAll handles).run after with ⟨failure | _, next⟩
      · rw [released] at recounts bounded
        exact Holding.unreleased holding runs (recounts.slots ▸ bounded) recounts released
      · obtain ⟨alive, drops⟩ := releaseAll_eq_ok released
        rw [released] at bounded
        exact Holding.ran holding runs (drops.recounts.slots ▸ bounded) alive drops released
  · push Not at live
    obtain ⟨stale, member, dead⟩ := live
    obtain ⟨error, next, ran, recounts, _⟩ := run_retainAfter_stale [] member
      (Bool.eq_false_iff.mpr dead)
    unfold retainAll
    rw [ran]
    exact Holding.unheld member (Bool.eq_false_iff.mpr dead) recounts

/-- Objects that are held once more for each time they are listed, and are held as they were then,
can be let go. -/
theorem Held.exists_released {heap held after : Heap} {handles : List Handle}
    (holding : heap.Held held handles) (room : heap.Holdable handles)
    (same : ∀ handle ∈ handles, after.isInterned handle = held.isInterned handle ∧
      after.holds handle = held.holds handle) :
    ∃ next, (releaseAll handles).run after = (.ok (), next) := by
  apply exists_releaseAll
  intro handle member uninterned
  obtain ⟨sameInterned, sameHolds⟩ := same handle member
  rw [sameInterned, holding.adds.recounts.isInterned] at uninterned
  rcases HandleTable.isLive_iff.mp (holding.live handle member) with ⟨address, holds, found⟩
  have counted := holds_of_find found
  have sum := (heap.toNat_add_charge handles (room handle holds counted)).2 uninterned
  refine ⟨holds + heap.charge handles handle, ?_, ?_⟩
  · rw [sameHolds, holding.adds.holds, counted]
    rfl
  · rw [sum]
    exact Nat.le_add_left _ _

/-- If the objects can be held and let go, the outcome is that of the program in between. -/
theorem run_withHeld_of_released {α : Type} {heap held after next : Heap} {handles : List Handle}
    {body : HeapM α} {result : Except HeapError α}
    (took : (retainAll handles).run heap = (.ok (), held)) (runs : body.run held = (result, after))
    (released : (releaseAll handles).run after = (.ok (), next)) :
    (withHeld handles body).run heap = (result, next) := by
  unfold withHeld
  rw [HeapM.run_bind, took]
  dsimp only
  rw [HeapM.run_bind, HeapM.run_attempt, runs]
  cases result with
  | error error =>
      dsimp only
      rw [HeapM.run_bind, released]
      rfl
  | ok value =>
      dsimp only
      rw [HeapM.run_bind, released]
      rfl

/-- While a program runs that keeps the holds on live objects, these can be held, and given back, as
long as no count comes to its bound. -/
theorem Sound.withHeld_of_steady {α : Type} {heap : Heap} (sound : heap.Sound)
    {handles : List Handle} {body : HeapM α}
    (live : ∀ handle ∈ handles, heap.isLive handle = true) (room : heap.Holdable handles)
    (bounded : ((withHeld handles body).run heap).2.handles.slots < 2 ^ 32)
    (steady : ∀ held result after, heap.Held held handles → body.run held = (result, after) →
      after.handles.slots < 2 ^ 32 → ∀ handle ∈ handles,
        after.isInterned handle = held.isInterned handle ∧
          after.holds handle = held.holds handle) :
    ∃ held after next result, heap.Held held handles ∧ body.run held = (result, after) ∧
      after.handles.slots < 2 ^ 32 ∧ (withHeld handles body).run heap = (result, next) ∧
      after.Holds next fun other count => count - after.charge handles other := by
  obtain ⟨held, ran, holding⟩ := sound.exists_held live
  rcases runs : body.run held with ⟨result, after⟩
  have small : after.handles.slots < 2 ^ 32 := by
    have recounts := recounts_releaseAll handles after
    unfold withHeld at bounded
    rw [HeapM.run_bind, ran] at bounded
    dsimp only at bounded
    rw [HeapM.run_bind, HeapM.run_attempt, runs] at bounded
    rw [← recounts.slots]
    cases result
    all_goals
      dsimp only at bounded
      rw [HeapM.run_bind] at bounded
      rcases released : (releaseAll handles).run after with ⟨_ | _, next⟩
      all_goals
        rw [released] at bounded
        exact bounded
  obtain ⟨next, released⟩ :=
    holding.exists_released room (steady held result after holding runs small)
  exact ⟨held, after, next, result, holding, runs, small,
    run_withHeld_of_released ran runs released, (releaseAll_eq_ok released).2⟩

/-- A program does not run if an object to be held is stale, and the holds on the others are given
back. -/
theorem withHeld_of_stale {α : Type} {heap : Heap} {handles : List Handle} (body : HeapM α)
    {stale : Handle} (member : stale ∈ handles) (dead : heap.isLive stale = false)
    (room : heap.Holdable handles) :
    ∃ handle ∈ handles, heap.isLive handle = false ∧ ∃ next,
      (withHeld handles body).run heap = (.error (.staleHandle handle), next) ∧
        heap.Holds next fun _ count => count := by
  obtain ⟨error, next, ran, _, reason⟩ := run_retainAfter_stale [] member dead
  obtain ⟨drops, handle, here, gone, rfl⟩ := reason (fun _ member => nomatch member) room
  simp only [charge_nil, UInt32.sub_zero] at drops
  refine ⟨handle, here, gone, next, ?_, drops⟩
  unfold withHeld retainAll
  rw [HeapM.run_bind, ran]

/-- An interned string is the canonical one for its bytes. -/
theorem lookupInterned_of_isInterned {heap : Heap} {handle : Handle}
    (interned : heap.isInterned handle = true) :
    ∃ bytes, heap.lookupInterned bytes = some handle := by
  unfold Heap.isInterned at interned
  split at interned
  · next bytes _ => exact ⟨bytes, of_decide_eq_true interned⟩
  · cases interned

/-- What is held is kept. -/
theorem Held.kept {heap held : Heap} {handles : List Handle} (holding : heap.Held held handles)
    (room : heap.Holdable handles) : ∀ handle ∈ handles, held.Kept handle := by
  intro handle member
  by_cases interned : heap.isInterned handle = true
  · obtain ⟨bytes, known⟩ := lookupInterned_of_isInterned interned
    have still : held.lookupInterned bytes = some handle := by
      unfold lookupInterned at known ⊢
      rw [holding.adds.recounts.rest]
      exact known
    exact Kept.interned still
  · rcases HandleTable.isLive_iff.mp (holding.live handle member) with ⟨address, holds, found⟩
    have counted := holds_of_find found
    have sum := (heap.toNat_add_charge handles (room handle holds counted)).2
      (Bool.eq_false_iff.mpr interned)
    have listedOnce : 0 < handles.count handle := List.count_pos_iff.mpr member
    have raised : held.holds handle = .ok (holds + heap.charge handles handle) := by
      rw [holding.adds.holds, counted]
      rfl
    apply Kept.held raised
    apply UInt32.lt_iff_toNat_lt.mpr
    rw [sum]
    exact Nat.lt_of_lt_of_le listedOnce (Nat.le_add_left _ _)

/-- What was kept before objects are held is kept while they are. -/
theorem Held.kept_of_kept {heap held : Heap} {handles : List Handle}
    (holding : heap.Held held handles) (room : heap.Holdable handles) {handle : Handle}
    (kept : heap.Kept handle) (sound : heap.Sound) : held.Kept handle := by
  have recounts := holding.adds.recounts
  apply Kept.mono _ _ _ _ _ kept
  · rw [recounts.rest]
  · rw [recounts.rest]
  · intro other view _ seen
    rw [recounts.view?]
    exact seen
  · intro other keeps
    rw [recounts.isLive]
    exact sound.isLive_of_kept keeps
  · intro other count _ counted positive
    refine ⟨count + heap.charge handles other, ?_, ?_⟩
    · rw [holding.adds.holds, counted]
      rfl
    · have room := room other count counted
      rw [UInt32.lt_iff_toNat_lt] at positive ⊢
      by_cases interned : heap.isInterned other = true
      · unfold charge
        rw [if_pos interned, UInt32.add_zero]
        exact positive
      · rw [(heap.toNat_add_charge handles room).2 (Bool.eq_false_iff.mpr interned)]
        exact Nat.lt_of_lt_of_le positive (Nat.le_add_right _ _)

end Heap

end CompactingHeap
