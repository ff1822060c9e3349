import CompactingHeap.Heap.Interning
import CompactingHeap.Proofs.Ledger

/-!
# Courses of programs

A program is tame if every run of it from a sound heap follows a course and keeps the ledger
balanced, provided that the handle table stays within its bound, and no run of it ever takes slots
away.  Tame programs compose, so it suffices to look at the places where a program changes the
heap.  The checks that a program makes before it writes are what keeps these places tame.
-/

namespace CompactingHeap

open Heap

/-- A step of a heap that is quiet or changes nothing, leaves the number of handle slots, and
allocates no object. -/
structure Heap.Steps (heap next : Heap) : Prop where
  slots : next.handles.slots = heap.handles.slots
  objects : next.counters.objectsAllocated = heap.counters.objectsAllocated
  quiet : heap.Sound → next = heap ∨ Quiet heap next

theorem Heap.Steps.refl (heap : Heap) : heap.Steps heap :=
  ⟨rfl, rfl, fun _ => Or.inl rfl⟩

/-- One heap follows another if a course leads to it and the ledger stays balanced. -/
structure Heap.Follows (heap last : Heap) : Prop where
  course : ∃ log, Course heap log last
  balanced : heap.Balanced → last.Balanced

theorem Heap.Follows.refl (heap : Heap) : heap.Follows heap :=
  ⟨⟨[], Course.done heap⟩, id⟩

theorem Heap.Follows.trans {heap middle last : Heap} (first : heap.Follows middle)
    (second : middle.Follows last) : heap.Follows last := by
  obtain ⟨log, before⟩ := first.course
  obtain ⟨later, after⟩ := second.course
  exact ⟨⟨log ++ later, before.trans after⟩, second.balanced ∘ first.balanced⟩

/-- A quiet step that allocates nothing leads to a heap that follows. -/
theorem Heap.Quiet.follows {heap next : Heap} (quiet : Quiet heap next) (sound : heap.Sound)
    (bounded : next.handles.slots < 2 ^ 32)
    (none : next.counters.objectsAllocated = heap.counters.objectsAllocated) :
    heap.Follows next :=
  ⟨⟨[], quiet.course⟩, quiet.balanced sound bounded none⟩

theorem Heap.Steps.follows {heap next : Heap} (steps : heap.Steps next) (sound : heap.Sound)
    (bounded : next.handles.slots < 2 ^ 32) : heap.Follows next := by
  rcases steps.quiet sound with same | quiet
  · rw [same]
    exact Follows.refl heap
  · exact quiet.follows sound bounded steps.objects

/-- Whatever a collection leaves follows the heap. -/
theorem Heap.Sound.follows_collectNow {heap : Heap} (sound : heap.Sound) :
    heap.Follows heap.collectNow.2 := by
  have slots := heap.slots_collectNow
  rcases ran : heap.collectNow with ⟨error | _, next⟩
  · rw [ran] at slots
    obtain ⟨_, _, same⟩ := sound.fails_of_error ran
    exact (Quiet.abandoned ran).follows sound (slots ▸ sound.bounded) (by rw [same])
  · exact ⟨⟨_, Course.collected ran (Course.done next)⟩,
      fun balanced => balanced.collected sound ran⟩

/-- Every run of the program leads to a heap that follows, and never takes slots away. -/
structure Tame {α : Type} (program : HeapM α) : Prop where
  grows : ∀ heap, heap.handles.slots ≤ (program.run heap).2.handles.slots
  follows : ∀ heap, heap.Sound → (program.run heap).2.handles.slots < 2 ^ 32 →
    heap.Follows (program.run heap).2

namespace Tame

variable {α β : Type}

/-- Every run of a tame program follows a course. -/
theorem course {program : HeapM α} (tame : Tame program) (heap : Heap) (sound : heap.Sound)
    (bounded : (program.run heap).2.handles.slots < 2 ^ 32) :
    ∃ log, Course heap log (program.run heap).2 :=
  (tame.follows heap sound bounded).course

/-- A tame program leaves a sound heap sound. -/
theorem sound {program : HeapM α} (tame : Tame program) {heap : Heap} (sound : heap.Sound)
    (bounded : (program.run heap).2.handles.slots < 2 ^ 32) : (program.run heap).2.Sound := by
  obtain ⟨log, course⟩ := tame.course heap sound bounded
  exact (course.traced sound bounded).sound

/-- A program is tame if each of its runs is a step. -/
theorem of_steps {program : HeapM α} (steps : ∀ heap : Heap, heap.Steps (program.run heap).2) :
    Tame program where
  grows heap := Nat.le_of_eq (steps heap).slots.symm
  follows heap sound bounded := (steps heap).follows sound bounded

/-- A program that leaves the heap alone is tame. -/
theorem of_unchanged {program : HeapM α} (unchanged : ∀ heap, (program.run heap).2 = heap) :
    Tame program := by
  apply of_steps
  intro heap
  rw [unchanged]
  exact Steps.refl heap

protected theorem pure (value : α) : Tame (pure value : HeapM α) :=
  of_unchanged fun _ => rfl

protected theorem throw (error : HeapError) : Tame (throw error : HeapM α) :=
  of_unchanged fun _ => rfl

protected theorem get : Tame (get : HeapM Heap) :=
  of_unchanged fun _ => rfl

protected theorem ask (question : Heap → Except HeapError α) : Tame (HeapM.ask question) :=
  of_unchanged fun heap => by rw [HeapM.run_ask]

/-- What follows a tame program takes no slots away if it never does. -/
theorem slots_le_bind {first : HeapM α} {next : α → HeapM β} (tame : Tame first)
    (grows : ∀ value middle, middle.handles.slots ≤ ((next value).run middle).2.handles.slots)
    (heap : Heap) : heap.handles.slots ≤ ((first >>= next).run heap).2.handles.slots := by
  have before := tame.grows heap
  rw [HeapM.run_bind]
  rcases ran : first.run heap with ⟨error | value, middle⟩
  · rw [ran] at before
    exact before
  · rw [ran] at before
    exact Nat.le_trans before (grows value middle)

/-- What a tame program and the rest lead to follows, if the rest leads from where the program ends
to a heap that follows. -/
theorem follows_bind {first : HeapM α} {next : α → HeapM β} (tame : Tame first)
    (grows : ∀ value middle, middle.handles.slots ≤ ((next value).run middle).2.handles.slots)
    {heap : Heap} (sound : heap.Sound)
    (bounded : ((first >>= next).run heap).2.handles.slots < 2 ^ 32)
    (rest : ∀ value middle, first.run heap = (.ok value, middle) → middle.Sound →
      ((next value).run middle).2.handles.slots < 2 ^ 32 →
        middle.Follows ((next value).run middle).2) :
    heap.Follows ((first >>= next).run heap).2 := by
  have begins := tame.follows heap sound
  have middleSound := tame.sound sound
  rw [HeapM.run_bind] at bounded ⊢
  rcases ran : first.run heap with ⟨error | value, middle⟩
  · rw [ran] at begins bounded
    exact begins bounded
  · rw [ran] at begins middleSound bounded
    dsimp only at begins middleSound bounded ⊢
    have middleBounded : middle.handles.slots < 2 ^ 32 :=
      Nat.lt_of_le_of_lt (grows value middle) bounded
    exact (begins middleBounded).trans
      (rest value middle ran (middleSound middleBounded) bounded)

/-- Tame programs may run one after the other. -/
protected theorem bind {first : HeapM α} {next : α → HeapM β} (tame : Tame first)
    (rest : ∀ value, Tame (next value)) : Tame (first >>= next) where
  grows := tame.slots_le_bind fun value => (rest value).grows
  follows heap sound bounded := by
    apply tame.follows_bind (fun value => (rest value).grows) sound bounded
    intro value middle _ middleSound
    exact (rest value).follows middle middleSound

/-- A tame program may be attempted. -/
protected theorem attempt {program : HeapM α} (tame : Tame program) :
    Tame (HeapM.attempt program) where
  grows heap := by
    rw [HeapM.run_attempt]
    exact tame.grows heap
  follows heap sound bounded := by
    rw [HeapM.run_attempt] at bounded ⊢
    exact tame.follows heap sound bounded

/-- A choice between tame programs is tame. -/
protected theorem ite {condition : Prop} [Decidable condition] {first second : HeapM α}
    (whenTrue : Tame first) (whenFalse : Tame second) :
    Tame (if condition then first else second) := by
  by_cases holds : condition
  · rw [if_pos holds]
    exact whenTrue
  · rw [if_neg holds]
    exact whenFalse

/-- A change of the heap is tame if it is a step. -/
theorem modify {change : Heap → Heap} (steps : ∀ heap : Heap, heap.Steps (change heap)) :
    Tame (modify change : HeapM PUnit) := by
  apply of_steps
  intro heap
  rw [HeapM.run_modify]
  exact steps heap

end Tame

namespace Heap

/-! ## Collections and allocations -/

theorem tame_collect : Tame collect where
  grows heap := Nat.le_of_eq heap.slots_collectNow.symm
  follows _ sound _ := sound.follows_collectNow

/-- What an allocation does to get room in the current slab: nothing, or a collection, which may
fail. -/
inductive Clears (heap : Heap) : List (Heap × Heap) → Heap → Prop
  | kept : Clears heap [] heap
  | collected {next : Heap} : heap.collectNow = (.ok (), next) → Clears heap [(heap, next)] next
  | abandoned {error : HeapError} {next : Heap} :
      heap.collectNow = (.error error, next) → Clears heap [] next

theorem Clears.course {heap cleared : Heap} {log : List (Heap × Heap)}
    (clears : Clears heap log cleared) : Course heap log cleared := by
  cases clears with
  | kept => exact Course.done heap
  | collected ran => exact Course.collected ran (Course.done cleared)
  | abandoned ran => exact (Quiet.abandoned ran).course

/-- Room is made by one collection at most. -/
theorem Clears.length_le {heap cleared : Heap} {log : List (Heap × Heap)}
    (clears : Clears heap log cleared) : log.length ≤ 1 := by
  cases clears <;> simp

theorem Clears.slots {heap cleared : Heap} {log : List (Heap × Heap)}
    (clears : Clears heap log cleared) : cleared.handles.slots = heap.handles.slots := by
  have same := heap.slots_collectNow
  cases clears with
  | kept => rfl
  | collected ran =>
      rw [ran] at same
      exact same
  | abandoned ran =>
      rw [ran] at same
      exact same

theorem Clears.sound {heap cleared : Heap} {log : List (Heap × Heap)} (sound : heap.Sound)
    (clears : Clears heap log cleared) : cleared.Sound :=
  (clears.course.traced sound (by rw [clears.slots]; exact sound.bounded)).sound

/-- Collections do not touch the interner. -/
theorem Clears.interner {heap cleared : Heap} {log : List (Heap × Heap)} (sound : heap.Sound)
    (clears : Clears heap log cleared) : cleared.interner = heap.interner := by
  cases clears with
  | kept => rfl
  | collected ran =>
      obtain ⟨live, compacts⟩ := sound.compacts ran
      exact compacts.interner
  | abandoned ran =>
      obtain ⟨_, _, _, rfl, _⟩ := sound.collectNow_error ran
      rfl

theorem Clears.follows {heap cleared : Heap} {log : List (Heap × Heap)} (sound : heap.Sound)
    (clears : Clears heap log cleared) : heap.Follows cleared := by
  have collects := sound.follows_collectNow
  cases clears with
  | kept => exact Follows.refl heap
  | collected ran =>
      rw [ran] at collects
      exact collects
  | abandoned ran =>
      rw [ran] at collects
      exact collects

/-- Collections do not touch the classes. -/
theorem Clears.classes {heap cleared : Heap} {log : List (Heap × Heap)} (sound : heap.Sound)
    (clears : Clears heap log cleared) : cleared.classes = heap.classes := by
  cases clears with
  | kept => rfl
  | collected ran =>
      obtain ⟨live, compacts⟩ := sound.compacts ran
      exact compacts.classes
  | abandoned ran =>
      obtain ⟨_, _, same⟩ := sound.fails_of_error ran
      rw [same]

/-- Collecting for room clears the heap. -/
theorem clears_collectForRoom (heap : Heap) :
    ∃ log, heap.Clears log (collectForRoom.run heap).2 := by
  unfold collectForRoom
  rw [HeapM.run_bind, HeapM.run_attempt]
  rcases ran : heap.collectNow with ⟨error | _, next⟩
  · have here : collect.run heap = (.error error, next) := ran
    rw [here]
    refine ⟨[], ?_⟩
    cases error <;> exact Clears.abandoned ran
  · have here : collect.run heap = (.ok (), next) := ran
    rw [here]
    exact ⟨_, Clears.collected ran⟩

/-- Reserving room may collect first, and then finds room or is refused a slab.  It stops at a
collection that fails for another reason than a lack of memory. -/
inductive Reserving (heap : Heap) (layout : Layout) (cleared : Heap) :
    Except HeapError Place × Heap → Prop
  | found {place : Place} {roomy : Heap} :
      FindsRoom cleared layout place roomy → Reserving heap layout cleared (.ok place, roomy)
  | refused {error : HeapError} {next : Heap} :
      (grow layout).run cleared = (.error error, next) →
        Reserving heap layout cleared (.error error, next)
  | broken {error : HeapError} :
      collectForRoom.run heap = (.error error, cleared) →
        Reserving heap layout cleared (.error error, cleared)

theorem reserving_grow (heap : Heap) (layout : Layout) (cleared : Heap) :
    Reserving heap layout cleared ((grow layout).run cleared) := by
  rcases ran : (grow layout).run cleared with ⟨error | place, next⟩
  · exact Reserving.refused ran
  · exact Reserving.found (FindsRoom.grown ran)

/-- The current slab has no room, and then nothing has changed, or room is found there. -/
theorem bump?_cases (layout : Layout) (heap : Heap) :
    (bump? layout).run heap = (.ok none, heap) ∨
      ∃ place roomy, (bump? layout).run heap = (.ok (some place), roomy) := by
  rw [run_bump?]
  cases heap.space.bump? layout with
  | none => exact Or.inl rfl
  | some found => exact Or.inr ⟨_, _, rfl⟩

theorem run_reserve (layout : Layout) (heap : Heap) :
    ∃ log cleared, heap.Clears log cleared ∧
      Reserving heap layout cleared ((reserve layout).run heap) := by
  unfold reserve
  rw [HeapM.run_bind]
  rcases bump?_cases layout heap with full | ⟨place, roomy, bumped⟩
  · rw [full]
    dsimp only
    rw [HeapM.run_bind, HeapM.run_get]
    dsimp only
    split
    · rw [HeapM.run_bind]
      obtain ⟨log, clears⟩ := clears_collectForRoom heap
      rcases collects : collectForRoom.run heap with ⟨error | tryAgain, cleared⟩
      · rw [collects] at clears
        exact ⟨log, cleared, clears, Reserving.broken collects⟩
      · rw [collects] at clears
        refine ⟨log, cleared, clears, ?_⟩
        dsimp only
        split
        · rw [HeapM.run_bind]
          rcases bump?_cases layout cleared with still | ⟨place, roomy, bumped⟩
          · rw [still]
            exact reserving_grow heap layout cleared
          · rw [bumped]
            exact Reserving.found (FindsRoom.bumped bumped)
        · exact reserving_grow heap layout cleared
    · exact ⟨[], heap, Clears.kept, reserving_grow heap layout heap⟩
  · rw [bumped]
    exact ⟨[], heap, Clears.kept, Reserving.found (FindsRoom.bumped bumped)⟩

/-- A refused slab does not touch the handles. -/
theorem handles_of_refused {heap next : Heap} {layout : Layout} {error : HeapError}
    (refused : (grow layout).run heap = (.error error, next)) : next.handles = heap.handles := by
  obtain ⟨_, _, rfl⟩ := run_grow_eq_error refused
  rfl

/-- The part of an allocation that changes the heap: room is reserved, and a fresh object settles
there. -/
def placeFresh (descriptor : Descriptor) (extra : UInt32) (layout : Layout)
    (laidOut : Layout.of? descriptor extra.toNat = some layout) : HeapM Handle := do
  let place ← reserve layout
  settle place (Object.fresh descriptor extra layout laidOut)

section
variable {descriptor : Descriptor} {extra : UInt32} {layout : Layout}
  (laidOut : Layout.of? descriptor extra.toNat = some layout) {heap : Heap} (sound : heap.Sound)
  (bounded : ((placeFresh descriptor extra layout laidOut).run heap).2.handles.slots < 2 ^ 32)
include sound bounded

/-- Placing a fresh object takes one collection at most. -/
theorem course_placeFresh :
    ∃ log, log.length ≤ 1 ∧
      Course heap log ((placeFresh descriptor extra layout laidOut).run heap).2 := by
  unfold placeFresh at bounded ⊢
  rw [HeapM.run_bind] at bounded ⊢
  obtain ⟨log, cleared, clears, reserving⟩ := run_reserve layout heap
  have few := clears.length_le
  have clearedSound := clears.sound sound
  generalize (reserve layout).run heap = result at reserving bounded
  cases reserving with
  | @found place roomy finds =>
      dsimp only at bounded ⊢
      have found := clearedSound.findsRoom laidOut finds
      rcases exists_settles (clearedSound.roomy found).chained place _ bounded with
        ⟨handle, next, settled, _⟩
      rw [settled]
      have step := Quiet.allocated finds settled
      exact ⟨log ++ [], by simpa using few, clears.course.trans step.course⟩
  | refused ran =>
      have step := Quiet.refused laidOut ran
      exact ⟨log ++ [], by simpa using few, clears.course.trans step.course⟩
  | broken failed => exact ⟨log, few, clears.course⟩

/-- Placing a fresh instance of a registered class keeps the ledger balanced. -/
theorem Balanced.placeFresh (balanced : heap.Balanced) {id : ClassId}
    (known : heap.classes.get id = .ok descriptor) :
    ((Heap.placeFresh descriptor extra layout laidOut).run heap).2.Balanced := by
  unfold Heap.placeFresh at bounded ⊢
  rw [HeapM.run_bind] at bounded ⊢
  obtain ⟨log, cleared, clears, reserving⟩ := run_reserve layout heap
  have clearedSound := clears.sound sound
  have clearedBalanced := (clears.follows sound).balanced balanced
  rw [← clears.classes sound] at known
  generalize (reserve layout).run heap = result at reserving bounded
  cases reserving with
  | @found place roomy finds =>
      dsimp only at bounded ⊢
      have found := clearedSound.findsRoom laidOut finds
      rcases exists_settles (clearedSound.roomy found).chained place _ bounded with
        ⟨handle, next, settled, settles⟩
      rw [settled]
      apply clearedBalanced.settles found settles
      rw [Object.descriptor_fresh]
      exact known
  | refused ran =>
      apply (Quiet.refused laidOut ran).balanced clearedSound bounded _ clearedBalanced
      obtain ⟨_, _, rfl⟩ := run_grow_eq_error ran
      rfl
  | broken failed => exact clearedBalanced

end

theorem slots_le_placeFresh (descriptor : Descriptor) (extra : UInt32) (layout : Layout)
    (laidOut : Layout.of? descriptor extra.toNat = some layout) (heap : Heap) :
    heap.handles.slots ≤
      ((placeFresh descriptor extra layout laidOut).run heap).2.handles.slots := by
  unfold placeFresh
  rw [HeapM.run_bind]
  obtain ⟨log, cleared, clears, reserving⟩ := run_reserve layout heap
  generalize (reserve layout).run heap = result at reserving
  cases reserving with
  | @found place roomy finds =>
      dsimp only
      rw [← clears.slots, ← finds.handles]
      exact slots_le_settle place _ roomy
  | refused ran =>
      dsimp only
      rw [handles_of_refused ran, clears.slots]
  | broken failed =>
      dsimp only
      rw [clears.slots]

/-- An allocation fails before it changes anything, or it places a fresh instance of its class. -/
theorem run_allocate_cases (id : ClassId) (extra : Nat) (heap : Heap) :
    (∃ error, (allocate id extra).run heap = (.error error, heap)) ∨
      ∃ descriptor layout laidOut, heap.classes.get id = .ok descriptor ∧
        (allocate id extra).run heap =
          (placeFresh descriptor extra.toUInt32 layout laidOut).run heap := by
  unfold allocate
  rw [HeapM.run_bind, HeapM.run_ask]
  cases known : heap.classes.get id with
  | error error => exact Or.inl ⟨error, rfl⟩
  | ok descriptor =>
      dsimp only
      split
      · exact Or.inl ⟨_, rfl⟩
      · split
        · exact Or.inl ⟨_, rfl⟩
        · next layout laidOut => exact Or.inr ⟨descriptor, layout, laidOut, rfl, rfl⟩

theorem tame_allocate (id : ClassId) (extra : Nat) : Tame (allocate id extra) where
  grows heap := by
    rcases run_allocate_cases id extra heap with ⟨error, failed⟩ | ⟨_, _, _, _, placed⟩
    · rw [failed]
    · rw [placed]
      exact slots_le_placeFresh _ _ _ _ heap
  follows heap sound bounded := by
    rcases run_allocate_cases id extra heap with ⟨error, failed⟩ | ⟨_, _, laidOut, known, placed⟩
    · rw [failed]
      exact Follows.refl heap
    · rw [placed] at bounded ⊢
      obtain ⟨log, _, course⟩ := course_placeFresh laidOut sound bounded
      exact ⟨⟨log, course⟩, fun balanced => balanced.placeFresh laidOut sound bounded known⟩

/-- An allocation takes one collection at most. -/
theorem Sound.collections_allocate {heap : Heap} (sound : heap.Sound) {id : ClassId} {extra : Nat}
    (bounded : ((allocate id extra).run heap).2.handles.slots < 2 ^ 32) :
    ((allocate id extra).run heap).2.counters.collections ≤ heap.counters.collections + 1 := by
  suffices brief : ∃ log, log.length ≤ 1 ∧ Course heap log ((allocate id extra).run heap).2 by
    obtain ⟨log, few, course⟩ := brief
    rw [(course.traced sound bounded).collections]
    exact Nat.add_le_add_left few _
  rcases run_allocate_cases id extra heap with ⟨error, failed⟩ | ⟨_, _, laidOut, _, placed⟩
  · rw [failed]
    exact ⟨[], by simp, Course.done heap⟩
  · rw [placed] at bounded ⊢
    exact course_placeFresh laidOut sound bounded

/-- What a successful allocation leaves: its handle is live and names an object of the class, and
the interner is as it was. -/
structure Allocated (heap next : Heap) (id : ClassId) (handle : Handle) : Prop where
  named : ∃ address object, next.handles.find handle = .ok (address, 1) ∧
    next.space.object? address = some object ∧ heap.classes.get id = .ok object.descriptor
  interner : next.interner = heap.interner

theorem Sound.allocate_ok {heap next : Heap} (sound : heap.Sound) {id : ClassId} {extra : Nat}
    {handle : Handle} (ran : (allocate id extra).run heap = (.ok handle, next))
    (bounded : next.handles.slots < 2 ^ 32) : heap.Allocated next id handle := by
  unfold allocate at ran
  rw [HeapM.run_bind, HeapM.run_ask] at ran
  split at ran
  · next descriptor same asked =>
    obtain ⟨known, unchanged⟩ := Prod.mk.inj asked
    subst same
    split at ran
    · cases ran
    · split at ran
      · cases ran
      · next layout laidOut =>
        rw [HeapM.run_bind] at ran
        obtain ⟨log, cleared, clears, reserving⟩ := run_reserve layout heap
        have clearedSound := clears.sound sound
        generalize (reserve layout).run heap = result at reserving ran
        cases reserving with
        | @found place roomy finds =>
            obtain ⟨_, settles⟩ := clearedSound.allocated finds ran bounded
            have found := clearedSound.findsRoom laidOut finds
            have here : next.space.object? roomy.space.nextAddress =
                some { (Object.fresh descriptor extra.toUInt32 layout laidOut : HeapObject) with
                  owner := handle.index } := by
              rw [settles.rest]
              exact Space.object?_add_self _ _ _
            have sameClass :
                (Object.fresh descriptor extra.toUInt32 layout laidOut : HeapObject).descriptor =
                  descriptor :=
              Object.descriptor_fresh descriptor extra.toUInt32 layout laidOut
            have nextInterner : next.interner = roomy.interner := by
              rw [settles.rest]
            have roomyInterner : roomy.interner = cleared.interner := by
              rw [found.rest]
            constructor
            · exact ⟨_, _, settles.mints.found, here, by rw [sameClass, known]⟩
            · exact nextInterner.trans (roomyInterner.trans (clears.interner sound))
        | refused refused => cases ran
        | broken failed => cases ran
  · cases ran

end Heap

end CompactingHeap
