import CompactingHeap.Proofs.Generations
import CompactingHeap.Proofs.Views

/-!
# What an allocation does

An allocation may collect first, and then places a blank object or runs out of memory.  Either way
every object that is kept is still live, and what is live reads as before.  The handle of the new
object names nothing that was live before, even if its slot has been used before.
-/

namespace CompactingHeap

/-- What a blank object shows. -/
def View.fresh (descriptor : Descriptor) (extra : UInt32) : View where
  descriptor := descriptor
  extra := extra
  word offset :=
    match descriptor.runOffset? with
    | some run => if offset / wordBytes = run / wordBytes then extra.toUInt64 else 0
    | none => 0
  tail := List.replicate (descriptor.tailBytes extra.toNat) 0
  ref _ := none
  run := List.replicate (if descriptor.runOffset?.isSome then extra.toNat else 0) none

namespace Object

variable {α : Type} (descriptor : Descriptor) (extra : UInt32) (layout : Layout)
  (laidOut : Layout.of? descriptor extra.toNat = some layout)

/-- A fresh object is a blank one but for the length word of its run. -/
theorem fresh_eq_blank (none : descriptor.runOffset? = none) :
    (fresh descriptor extra layout laidOut : Object α) = blank descriptor extra layout laidOut := by
  unfold fresh
  rw [none]

theorem fresh_eq_setWord {run : Nat} (found : descriptor.runOffset? = some run) :
    (fresh descriptor extra layout laidOut : Object α) =
      (blank descriptor extra layout laidOut).setWord run extra.toUInt64 := by
  unfold fresh
  rw [found]

theorem slot_fresh (offset : Nat) :
    (fresh descriptor extra layout laidOut : Object α).slot offset = none := by
  unfold fresh
  dsimp only
  split
  · rw [slot_setWord, slot_blank]
  · rw [slot_blank]

theorem extra_fresh : (fresh descriptor extra layout laidOut : Object α).extra = extra := by
  unfold fresh
  dsimp only
  split <;> rfl

theorem tail_fresh :
    (fresh descriptor extra layout laidOut : Object α).tail =
      List.replicate (descriptor.tailBytes extra.toNat) 0 := by
  unfold fresh
  dsimp only
  split <;> rfl

theorem word_fresh :
    (fresh descriptor extra layout laidOut : Object α).word =
      (View.fresh descriptor extra).word := by
  funext offset
  cases run : descriptor.runOffset? with
  | none => simp only [View.fresh, run, fresh_eq_blank _ _ _ _ run, word_blank]
  | some at' =>
      have last := descriptor.run_last (Descriptor.runOffset?_eq_some_iff.mp run)
      have inside : at' / wordBytes <
          (blank descriptor extra layout laidOut : Object α).descriptor.wordCount := by
        change at' / wordBytes < descriptor.wordCount
        simp only [Descriptor.wordCount, wordBytes] at *
        omega
      simp only [View.fresh, run, fresh_eq_setWord _ _ _ _ run]
      by_cases here : offset / wordBytes = at' / wordBytes
      · rw [if_pos here]
        have read := word_setWord_self
          (blank descriptor extra layout laidOut : Object α) extra.toUInt64 inside
        unfold word at read ⊢
        rw [here]
        exact read
      · rw [if_neg here, word_setWord_of_ne _ _ (Ne.symm here), word_blank]

/-- The run of a fresh object has as many elements as its tail, all absent. -/
theorem elements_fresh (name : α → Option Handle) :
    (fresh descriptor extra layout laidOut : Object α).elements name =
      (View.fresh descriptor extra).run := by
  have rest : (fresh descriptor extra layout laidOut : Object α).AtRest := atRest_fresh _ _ _ _
  have class' := descriptor_fresh (α := α) descriptor extra layout laidOut
  unfold elements View.fresh
  cases run : descriptor.runOffset? with
  | none => simp [class', run]
  | some at' =>
      rw [class', run]
      have length : (fresh descriptor extra layout laidOut : Object α).runLength = extra.toNat := by
        unfold runLength
        rw [class', run]
        dsimp only
        rw [rest.length at' (class'.symm ▸ run), extra_fresh]
      simp only [length, slot_fresh, Option.bind_none, List.map_const', List.length_range,
        Option.isSome_some, ↓reduceIte]

theorem view_fresh (name : α → Option Handle) :
    (fresh descriptor extra layout laidOut : Object α).view name = View.fresh descriptor extra := by
  apply View.ext
  · exact descriptor_fresh descriptor extra layout laidOut
  · exact extra_fresh descriptor extra layout laidOut
  · exact word_fresh descriptor extra layout laidOut
  · exact tail_fresh descriptor extra layout laidOut
  · funext offset
    rw [ref_view, slot_fresh, Option.bind_none, ite_self]
    rfl
  · exact elements_fresh descriptor extra layout laidOut name

end Object

namespace Heap

/-! ## What is kept -/

/-- Apart from a new object, if there is one, nothing shows from one heap to the next but that
objects are gone that nothing kept. -/
structure Retains (heap next : Heap) (new : Option Handle) : Prop where
  kept : ∀ handle, heap.Kept handle → next.isLive handle = true
  live : ∀ handle, some handle ≠ new → next.isLive handle = true → heap.isLive handle = true
  view : ∀ handle, some handle ≠ new → next.isLive handle = true →
    next.view? handle = heap.view? handle
  holds : ∀ handle, some handle ≠ new → next.isLive handle = true →
    next.holds handle = heap.holds handle
  config : next.config = heap.config
  classes : next.classes = heap.classes
  interner : next.interner = heap.interner
  roots : next.roots = heap.roots

theorem Sound.retains_refl {heap : Heap} (sound : heap.Sound) : heap.Retains heap none where
  kept _ := sound.isLive_of_kept
  live _ _ live := live
  view _ _ _ := rfl
  holds _ _ _ := rfl
  config := rfl
  classes := rfl
  interner := rfl
  roots := rfl

/-- What is kept stays so where nothing shows. -/
theorem Retains.kept_of_kept {heap next : Heap} (retains : heap.Retains next none) {handle : Handle}
    (kept : heap.Kept handle) : next.Kept handle := by
  apply Kept.mono retains.roots retains.interner _ retains.kept _ kept
  · intro other view keeps seen
    rw [retains.view other (by simp) (retains.kept other keeps)]
    exact seen
  · intro other count keeps counted positive
    exact
      ⟨count, (retains.holds other (by simp) (retains.kept other keeps)).trans counted, positive⟩

theorem Retains.trans {heap middle next : Heap} (first : heap.Retains middle none)
    (second : middle.Retains next none) : heap.Retains next none where
  kept handle kept := second.kept handle (first.kept_of_kept kept)
  live handle different live := first.live handle different (second.live handle different live)
  view handle different live := by
    rw [second.view handle different live]
    exact first.view handle different (second.live handle different live)
  holds handle different live := by
    rw [second.holds handle different live]
    exact first.holds handle different (second.live handle different live)
  config := second.config.trans first.config
  classes := second.classes.trans first.classes
  interner := second.interner.trans first.interner
  roots := second.roots.trans first.roots

/-- A collection loses only what nothing keeps. -/
theorem Compacts.retains {start finish : Heap} {live : List Address}
    (compacts : start.Compacts finish live) (sound : start.Sound) : start.Retains finish none where
  kept handle kept := compacts.isLive_iff.mpr ((compacts.kept_iff sound).mp kept)
  live handle _ alive := by
    obtain ⟨address, holds, found, _⟩ := compacts.isLive_iff.mp alive
    exact HandleTable.isLive_iff.mpr ⟨address, holds, found⟩
  view _ _ alive := compacts.view? sound alive
  holds _ _ alive := compacts.holds alive
  config := compacts.config
  classes := compacts.classes
  interner := compacts.interner
  roots := compacts.roots

/-- The view of an object depends on the object and on the handles of the addresses that lead to
objects. -/
theorem Sound.view?_congr {heap next : Heap} (sound : heap.Sound) {handle : Handle}
    {object : HeapObject} (before : heap.objectOf handle = .ok object)
    (after : next.objectOf handle = .ok object)
    (names : ∀ address other, heap.space.object? address = some other →
      next.handleOf? address = heap.handleOf? address) :
    next.view? handle = heap.view? handle := by
  obtain ⟨home, _, found⟩ := objectOf_eq_ok_iff.mp before
  have same : ∀ offset ∈ object.slotOffsets,
      (object.slot offset).bind next.handleOf? = (object.slot offset).bind heap.handleOf? := by
    intro offset traced
    cases slot : object.slot offset with
    | none => rfl
    | some target =>
        have refers := Object.mem_targets_iff.mpr ⟨offset, traced, slot⟩
        obtain ⟨other, there⟩ := sound.linked.closed home object found target refers
        exact names target other there
  unfold view?
  rw [before, after]
  simp only [Except.toOption, Option.map_some]
  congr 1
  apply View.ext
  · rfl
  · rfl
  · rfl
  · rfl
  · funext offset
    rw [Object.ref_view, Object.ref_view]
    split
    · next field => exact same offset (Descriptor.mem_slotOffsets_iff.mpr (Or.inl field))
    · rfl
  · rw [Object.run_view, Object.run_view]
    unfold Object.elements
    cases run : object.descriptor.runOffset? with
    | none => rfl
    | some offset =>
        apply List.map_congr_left
        intro index member
        apply same
        apply Descriptor.mem_slotOffsets_iff.mpr
        exact Or.inr ⟨offset, index, Descriptor.runOffset?_eq_some_iff.mp run,
          List.mem_range.mp member, rfl⟩

/-- Where the objects and the handles are the same, the views are. -/
theorem view?_of_space {heap next : Heap} (handles : next.handles = heap.handles)
    (objects : ∀ address, next.space.object? address = heap.space.object? address) :
    next.view? = heap.view? := by
  have names : next.handleOf? = heap.handleOf? := by
    funext address
    unfold handleOf?
    rw [objects, handles]
  have found : ∀ handle object,
      next.objectOf handle = .ok object ↔ heap.objectOf handle = .ok object := by
    intro handle object
    simp only [objectOf_eq_ok_iff, handles, objects]
  funext handle
  apply Option.ext
  intro view
  simp only [view?_eq_some_iff, found, names]

/-- Making room does not show. -/
theorem Roomy.view? {heap roomy : Heap} {layout : Layout} {place : Place}
    (found : heap.Roomy layout place roomy) : roomy.view? = heap.view? :=
  view?_of_space (by rw [found.rest]) found.room.object?

/-! ## Settling -/

section

variable {heap next : Heap} {place : Place} {object : HeapObject} {handle : Handle}
  (settles : heap.Settles next place object handle)

include settles

theorem Settles.find_of_ne {other : Handle} (different : other ≠ handle) :
    next.handles.find other = heap.handles.find other :=
  settles.mints.others other different

theorem Settles.isLive_of_ne {other : Handle} (different : other ≠ handle) :
    next.isLive other = heap.isLive other := by
  unfold isLive HandleTable.isLive HandleTable.resolve
  rw [settles.find_of_ne different]

theorem Settles.object?_of_some {address : Address} {other : HeapObject}
    (found : heap.space.object? address = some other) :
    next.space.object? address = some other := by
  rw [settles.rest]
  exact Space.object?_add_of_some found place _

/-- The addresses that led to objects keep their handles. -/
theorem Settles.handleOf?_of_some (sound : heap.Sound) (nextSound : next.Sound) {address : Address}
    {other : HeapObject} (found : heap.space.object? address = some other) :
    next.handleOf? address = heap.handleOf? address := by
  apply Option.ext
  intro name
  rw [nextSound.handleOf?_eq_some_iff, sound.handleOf?_eq_some_iff]
  by_cases same : name = handle
  · subst same
    rw [settles.mints.found, settles.mints.new]
    constructor
    · rintro ⟨holds, here⟩
      cases here
      rw [Space.object?_nextAddress] at found
      cases found
    · rintro ⟨holds, here⟩
      cases here
  · rw [settles.find_of_ne same]

/-- The other objects show what they did. -/
theorem Settles.view?_of_ne (sound : heap.Sound) (nextSound : next.Sound) {other : Handle}
    (different : other ≠ handle) : next.view? other = heap.view? other := by
  cases seen : heap.view? other with
  | none =>
      rw [← nextSound.isLive_eq_false_iff, settles.isLive_of_ne different]
      exact sound.isLive_eq_false_iff.mpr seen
  | some view =>
      rcases view?_eq_some_iff.mp seen with ⟨found, before, _⟩
      rcases objectOf_eq_ok_iff.mp before with ⟨address, resolved, here⟩
      have sameName : next.handles.resolve other = .ok address := by
        unfold HandleTable.resolve
        rw [settles.find_of_ne different]
        exact resolved
      have after : next.objectOf other = .ok found :=
        objectOf_eq_ok_iff.mpr ⟨address, sameName, settles.object?_of_some here⟩
      rw [sound.view?_congr before after fun _ _ => settles.handleOf?_of_some sound nextSound, seen]

theorem Settles.holds_of_ne {other : Handle} (different : other ≠ handle) :
    next.holds other = heap.holds other := by
  unfold Heap.holds HandleTable.holds
  rw [settles.find_of_ne different]

theorem Settles.holds : next.holds handle = .ok 1 := by
  unfold Heap.holds HandleTable.holds
  rw [settles.mints.found]
  rfl

/-- The object that has been settled. -/
theorem Settles.objectOf : next.objectOf handle = .ok { object with owner := handle.index } := by
  apply objectOf_eq_ok_iff.mpr
  refine ⟨heap.space.nextAddress, HandleTable.resolve_of_find settles.mints.found, ?_⟩
  rw [settles.rest]
  exact Space.object?_add_self _ _ _

end

/-! ## Allocating -/

/-- What a successful allocation does: a handle that was not live names an object with the given
view, held once, and apart from it only objects are gone that nothing kept. -/
structure Allocates (heap next : Heap) (view : View) (handle : Handle) : Prop where
  new : heap.isLive handle = false
  seen : next.view? handle = some view
  held : next.holds handle = .ok 1
  rest : heap.Retains next (some handle)

/-- An allocation succeeds or runs out of memory. -/
inductive Allocating (heap : Heap) (view : View) : Except HeapError Handle × Heap → Prop
  | placed {handle : Handle} {next : Heap} :
      Allocates heap next view handle → Allocating heap view (.ok handle, next)
  | refused {size limit : Nat} {next : Heap} :
      Retains heap next none → Allocating heap view (.error (.outOfMemory size limit), next)

/-- Clearing a sound heap loses only what nothing keeps. -/
theorem Clears.retains {heap cleared : Heap} {log : List (Heap × Heap)} (sound : heap.Sound)
    (clears : Clears heap log cleared) : heap.Retains cleared none := by
  cases clears with
  | kept => exact sound.retains_refl
  | collected ran =>
      obtain ⟨live, compacts⟩ := sound.compacts ran
      exact compacts.retains sound
  | abandoned ran =>
      obtain ⟨_, _, _, rfl, _⟩ := sound.collectNow_error ran
      exact { sound.retains_refl with }

/-- No slot is passed on to its next generation twice while a heap is cleared. -/
theorem Clears.ages {heap cleared : Heap} {log : List (Heap × Heap)}
    (clears : Clears heap log cleared) (position : Nat) :
    HandleTable.Ages heap.handles.entries[position]? cleared.handles.entries[position]? := by
  have ages := heap.ages_collectNow position
  cases clears with
  | kept => exact HandleTable.Ages.kept _
  | collected ran =>
      rw [ran] at ages
      exact ages
  | abandoned ran =>
      rw [ran] at ages
      exact ages

/-- The collection for room fails for want of memory only, and that is no failure here. -/
theorem Sound.collectForRoom_ok {heap : Heap} (sound : heap.Sound) {error : HeapError}
    {next : Heap} : collectForRoom.run heap ≠ (.error error, next) := by
  intro failed
  unfold collectForRoom at failed
  rw [HeapM.run_bind, HeapM.run_attempt] at failed
  have collects : collect.run heap = heap.collectNow := rfl
  rw [collects] at failed
  rcases sound.collectNow with ⟨finish, live, ran, _⟩ | ⟨size, allocator, ran, _⟩
  · rw [ran] at failed
    cases failed
  · rw [ran] at failed
    cases failed

/-- A slab is refused for want of memory only, and that does not show. -/
theorem Sound.retains_refused {heap next : Heap} (sound : heap.Sound) {descriptor : Descriptor}
    {extra : Nat} {layout : Layout} (laidOut : Layout.of? descriptor extra = some layout)
    {error : HeapError} (refused : (grow layout).run heap = (.error error, next)) :
    (∃ size limit, error = .outOfMemory size limit) ∧ heap.Retains next none := by
  obtain ⟨allocator, fails, rfl⟩ := run_grow_eq_error refused
  obtain ⟨_, lack, _⟩ := sound.placed.extend_error sound.books laidOut fails
  exact ⟨⟨_, _, lack⟩, { sound.retains_refl with }⟩

/-- Making room loses nothing. -/
theorem Retains.roomy {heap cleared roomy : Heap} {layout : Layout} {place : Place}
    (retains : heap.Retains cleared none) (found : cleared.Roomy layout place roomy) :
    heap.Retains roomy none := by
  have live : roomy.isLive = cleared.isLive := by
    rw [found.rest]
    rfl
  have holds : roomy.holds = cleared.holds := by
    rw [found.rest]
    rfl
  constructor
  case kept => exact fun handle kept => live ▸ retains.kept handle kept
  case live => exact fun handle old alive => retains.live handle old (live ▸ alive)
  case view =>
    intro handle old alive
    rw [found.view?]
    exact retains.view handle old (live ▸ alive)
  case holds =>
    intro handle old alive
    rw [holds]
    exact retains.holds handle old (live ▸ alive)
  all_goals rw [found.rest]
  exacts [retains.config, retains.classes, retains.interner, retains.roots]

/-- What was retained until an object is settled is retained when it is. -/
theorem Retains.settled {heap roomy next : Heap} {place : Place} {object : HeapObject}
    {handle : Handle} (retains : heap.Retains roomy none) (sound : heap.Sound)
    (roomySound : roomy.Sound) (nextSound : next.Sound)
    (settles : roomy.Settles next place object handle) (new : heap.isLive handle = false) :
    heap.Retains next (some handle) := by
  have apart {other : Handle} (different : some other ≠ some handle) : other ≠ handle :=
    fun same => different (congrArg some same)
  have old {other : Handle} (different : some other ≠ some handle)
      (live : next.isLive other = true) : roomy.isLive other = true :=
    (settles.isLive_of_ne (apart different)).symm.trans live
  constructor
  case kept =>
    intro other kept
    have different : other ≠ handle := by
      rintro rfl
      rw [sound.isLive_of_kept kept] at new
      cases new
    rw [settles.isLive_of_ne different]
    exact retains.kept other kept
  case live => exact fun other different live => retains.live other (by simp) (old different live)
  case view =>
    intro other different live
    rw [settles.view?_of_ne roomySound nextSound (apart different)]
    exact retains.view other (by simp) (old different live)
  case holds =>
    intro other different live
    rw [settles.holds_of_ne (apart different)]
    exact retains.holds other (by simp) (old different live)
  all_goals rw [settles.rest]
  exacts [retains.config, retains.classes, retains.interner, retains.roots]

/-- What is settled after a heap has been cleared. -/
theorem Clears.allocates {heap cleared roomy next : Heap} {log : List (Heap × Heap)}
    (clears : Clears heap log cleared) (sound : heap.Sound) {descriptor : Descriptor} {extra : Nat}
    {layout : Layout} (laidOut : Layout.of? descriptor extra.toUInt32.toNat = some layout)
    {place : Place} (finds : cleared.FindsRoom layout place roomy) {handle : Handle}
    (ran : (settle place (Object.fresh descriptor extra.toUInt32 layout laidOut)).run roomy =
      (.ok handle, next))
    (bounded : next.handles.slots < 2 ^ 32) :
    heap.Allocates next (View.fresh descriptor extra.toUInt32) handle := by
  have clearedSound := clears.sound sound
  have found := clearedSound.findsRoom laidOut finds
  obtain ⟨nextSound, settles⟩ := clearedSound.allocated finds ran bounded
  have new : heap.isLive handle = false := by
    have mints := settles.mints
    rw [finds.handles] at mints
    exact HandleTable.stale_of_mint clears.ages mints bounded
  have seen : next.view? handle = some (View.fresh descriptor extra.toUInt32) :=
    view?_eq_some_iff.mpr
      ⟨_, settles.objectOf, Object.view_fresh descriptor extra.toUInt32 layout laidOut _⟩
  exact ⟨new, seen, settles.holds, ((clears.retains sound).roomy found).settled sound
    (clearedSound.roomy found) nextSound settles new⟩

/-- What an allocation of a registered class does. -/
theorem Sound.allocating {heap : Heap} (sound : heap.Sound) {id : ClassId}
    {descriptor : Descriptor} (known : heap.classes.get id = .ok descriptor) (extra : Nat)
    (bounded : ((allocate id extra).run heap).2.handles.slots < 2 ^ 32) :
    Allocating heap (View.fresh descriptor extra.toUInt32) ((allocate id extra).run heap) := by
  unfold allocate at bounded ⊢
  rw [HeapM.run_bind, HeapM.run_ask, known] at bounded ⊢
  dsimp only at bounded ⊢
  by_cases large : 2 ^ 32 ≤ extra
  · rw [if_pos large]
    exact Allocating.refused sound.retains_refl
  · rw [if_neg large] at bounded ⊢
    split at bounded
    · exact Allocating.refused sound.retains_refl
    · next layout laidOut =>
      rw [HeapM.run_bind] at bounded ⊢
      obtain ⟨log, cleared, clears, reserving⟩ := run_reserve layout heap
      have clearedSound := clears.sound sound
      generalize (reserve layout).run heap = result at reserving bounded
      cases reserving with
      | @found place roomy finds =>
          dsimp only at bounded ⊢
          have roomySound := clearedSound.roomy (clearedSound.findsRoom laidOut finds)
          rcases exists_settles roomySound.chained place _ bounded with ⟨handle, next, settled, _⟩
          rw [settled] at bounded ⊢
          exact Allocating.placed (clears.allocates sound laidOut finds settled bounded)
      | refused ran =>
          obtain ⟨⟨size, limit, rfl⟩, refused⟩ := clearedSound.retains_refused laidOut ran
          exact Allocating.refused ((clears.retains sound).trans refused)
      | broken failed => exact absurd failed sound.collectForRoom_ok

/-- No object has more tail elements than its header can count. -/
theorem small_of_allocate {heap next : Heap} {id : ClassId} {extra : Nat} {handle : Handle}
    (ran : (allocate id extra).run heap = (.ok handle, next)) : extra < 2 ^ 32 := by
  unfold allocate at ran
  rw [HeapM.run_bind, HeapM.run_ask] at ran
  split at ran
  · by_contra large
    rw [if_pos (Nat.le_of_not_lt large)] at ran
    cases ran
  · cases ran

/-- An allocation of a class that was never registered fails at once. -/
theorem run_allocate_unknown {heap : Heap} {id : ClassId} {error : HeapError}
    (unknown : heap.classes.get id = .error error) (extra : Nat) :
    (allocate id extra).run heap = (.error error, heap) := by
  unfold allocate
  rw [HeapM.run_bind, HeapM.run_ask, unknown]

end Heap

end CompactingHeap
