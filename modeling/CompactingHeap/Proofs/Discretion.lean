import CompactingHeap.Proofs.Freshness
import CompactingHeap.Proofs.ContainerPrograms

/-!
# Discreet programs

A program is discreet if it does not touch the interner, and if every canonical string stays one
that nothing holds.  All operations are discreet but those that intern strings: an allocation
writes to its new object only, a string has no place for a reference, a word or an element, and
holding or releasing an interned string does nothing.
-/

namespace CompactingHeap

open Heap

namespace Heap

/-- The handle is the canonical string for the bytes, and nothing holds it. -/
structure Canonical (heap : Heap) (bytes : Bytes) (handle : Handle) : Prop where
  listed : heap.interner.lookup bytes = some handle
  shown : ∃ view, heap.view? handle = some view ∧ view.descriptor = Registry.stringClass ∧
    view.tail = bytes
  unheld : heap.holds handle = .ok 0

section

variable {heap next : Heap} {bytes : Bytes} {handle : Handle}

theorem Canonical.string (canonical : heap.Canonical bytes handle) :
    heap.string handle = .ok bytes := by
  obtain ⟨view, seen, sameClass, tail⟩ := canonical.shown
  rw [string_of_view seen, sameClass, ← tail]
  exact if_pos rfl

theorem Canonical.isInterned (canonical : heap.Canonical bytes handle) :
    heap.isInterned handle = true := by
  unfold Heap.isInterned
  rw [canonical.string]
  exact decide_eq_true canonical.listed

theorem Canonical.isLive (canonical : heap.Canonical bytes handle) : heap.isLive handle = true :=
  isLive_of_isInterned canonical.isInterned

/-- Where the handles, the objects and the interner are the same, the canonical strings are. -/
theorem Canonical.congr (canonical : heap.Canonical bytes handle)
    (handles : next.handles = heap.handles) (space : next.space = heap.space)
    (interner : next.interner = heap.interner) : next.Canonical bytes handle where
  listed := interner ▸ canonical.listed
  shown := by
    rw [view?_of_space handles fun _ => by rw [space]]
    exact canonical.shown
  unheld := by
    have unheld := canonical.unheld
    unfold Heap.holds at unheld ⊢
    rw [handles]
    exact unheld

/-- A canonical string is retained, because it is interned. -/
theorem Canonical.of_retains (canonical : heap.Canonical bytes handle) {new : Option Handle}
    (retains : heap.Retains next new) (sound : heap.Sound) (nextSound : next.Sound)
    (fresh : ∀ other, some other = new → heap.isLive other = false) :
    next.Canonical bytes handle := by
  have old : some handle ≠ new := by
    intro same
    have stale := fresh handle same
    rw [canonical.isLive] at stale
    cases stale
  have live : next.isLive handle = true := by
    apply nextSound.interned
    rw [retains.interner]
    exact (sound.listed handle).mpr ⟨bytes, canonical.listed⟩
  constructor
  · rw [retains.interner]
    exact canonical.listed
  · rw [retains.view handle old live]
    exact canonical.shown
  · rw [retains.holds handle old live]
    exact canonical.unheld

/-- Writing another object leaves a canonical string alone. -/
theorem Canonical.of_rewrites (canonical : heap.Canonical bytes handle) {other : Handle}
    {changed : View} (rewrites : heap.Rewrites next other changed) (different : handle ≠ other) :
    next.Canonical bytes handle where
  listed := by
    rw [rewrites.rest]
    exact canonical.listed
  shown := by
    rw [rewrites.view?, Function.update_of_ne different]
    exact canonical.shown
  unheld := by
    rw [rewrites.holds]
    exact canonical.unheld

/-- Changing the holds on other objects leaves a canonical string alone. -/
theorem Canonical.of_holds (canonical : heap.Canonical bytes handle)
    {amount : Handle → UInt32 → UInt32} (changes : heap.Holds next amount)
    (neutral : amount handle 0 = 0) : next.Canonical bytes handle where
  listed := by
    rw [changes.recounts.rest]
    exact canonical.listed
  shown := by
    rw [changes.recounts.view?]
    exact canonical.shown
  unheld := by
    rw [changes.holds, canonical.unheld, Except.map, neutral]

end

end Heap

/-- Where the run of one program after another keeps within a bound, the first program does. -/
theorem Tame.slots_lt_first {α β : Type} {first : HeapM α} {next : α → HeapM β}
    (rest : ∀ value, Tame (next value)) {heap : Heap} {bound : Nat}
    (bounded : ((first >>= next).run heap).2.handles.slots < bound) :
    (first.run heap).2.handles.slots < bound := by
  rw [HeapM.run_bind] at bounded
  rcases ran : first.run heap with ⟨error | value, middle⟩
  · rw [ran] at bounded
    exact bounded
  · rw [ran] at bounded
    exact Nat.lt_of_le_of_lt ((rest value).grows middle) bounded

/-- Every run of the program leaves the interner alone, and every canonical string stays one. -/
structure Discreet {α : Type} (program : HeapM α) : Prop where
  tame : Tame program
  interner : ∀ heap, heap.Sound → (program.run heap).2.handles.slots < 2 ^ 32 →
    (program.run heap).2.interner = heap.interner
  canonical : ∀ heap bytes handle, heap.Sound → (program.run heap).2.handles.slots < 2 ^ 32 →
    heap.Canonical bytes handle → (program.run heap).2.Canonical bytes handle

namespace Discreet

variable {α β : Type}

/-! ## Rules -/

/-- A program that leaves the handles, the objects and the interner alone is discreet. -/
theorem of_aside {program : HeapM α} (tame : Tame program)
    (aside : ∀ heap, (program.run heap).2.handles = heap.handles ∧
      (program.run heap).2.space = heap.space ∧
      (program.run heap).2.interner = heap.interner) : Discreet program where
  tame := tame
  interner heap _ _ := (aside heap).2.2
  canonical heap _ _ _ _ canonical :=
    canonical.congr (aside heap).1 (aside heap).2.1 (aside heap).2.2

theorem of_unchanged {program : HeapM α} (unchanged : ∀ heap, (program.run heap).2 = heap) :
    Discreet program :=
  of_aside (Tame.of_unchanged unchanged) fun heap => by rw [unchanged heap]; exact ⟨rfl, rfl, rfl⟩

protected theorem pure (value : α) : Discreet (pure value : HeapM α) :=
  of_unchanged fun _ => rfl

protected theorem throw (error : HeapError) : Discreet (throw error : HeapM α) :=
  of_unchanged fun _ => rfl

protected theorem get : Discreet (get : HeapM Heap) :=
  of_unchanged fun _ => rfl

protected theorem ask (question : Heap → Except HeapError α) : Discreet (HeapM.ask question) :=
  of_unchanged fun heap => by rw [HeapM.run_ask]

/-- Discreet programs may run one after the other. -/
protected theorem bind {first : HeapM α} {next : α → HeapM β} (discreet : Discreet first)
    (rest : ∀ value, Discreet (next value)) : Discreet (first >>= next) := by
  have tame := discreet.tame.bind fun value => (rest value).tame
  have stages (heap : Heap) (sound : heap.Sound)
      (bounded : ((first >>= next).run heap).2.handles.slots < 2 ^ 32) :
      (∃ error, (first >>= next).run heap = (.error error, (first.run heap).2) ∧
          (first.run heap).2.handles.slots < 2 ^ 32) ∨
        ∃ value, (first >>= next).run heap = (next value).run (first.run heap).2 ∧
          (first.run heap).2.handles.slots < 2 ^ 32 ∧ (first.run heap).2.Sound := by
    have small := Tame.slots_lt_first (fun value => (rest value).tame) bounded
    rw [HeapM.run_bind]
    rcases ran : first.run heap with ⟨error | value, middle⟩
    · rw [ran] at small
      exact Or.inl ⟨error, rfl, small⟩
    · have middleSound := discreet.tame.sound sound small
      rw [ran] at small middleSound
      exact Or.inr ⟨value, rfl, small, middleSound⟩
  refine ⟨tame, ?_, ?_⟩
  · intro heap sound bounded
    rcases stages heap sound bounded with ⟨error, ran, small⟩ | ⟨value, ran, small, middleSound⟩
    · rw [ran]
      exact discreet.interner heap sound small
    · rw [ran] at bounded ⊢
      exact ((rest value).interner _ middleSound bounded).trans
        (discreet.interner heap sound small)
  · intro heap bytes handle sound bounded canonical
    rcases stages heap sound bounded with ⟨error, ran, small⟩ | ⟨value, ran, small, middleSound⟩
    · rw [ran]
      exact discreet.canonical heap bytes handle sound small canonical
    · rw [ran] at bounded ⊢
      exact (rest value).canonical _ bytes handle middleSound bounded
        (discreet.canonical heap bytes handle sound small canonical)

/-- A discreet program may be attempted. -/
protected theorem attempt {program : HeapM α} (discreet : Discreet program) :
    Discreet (HeapM.attempt program) where
  tame := discreet.tame.attempt
  interner heap sound bounded := by
    rw [HeapM.run_attempt] at bounded ⊢
    exact discreet.interner heap sound bounded
  canonical heap bytes handle sound bounded canonical := by
    rw [HeapM.run_attempt] at bounded ⊢
    exact discreet.canonical heap bytes handle sound bounded canonical

/-- A choice between discreet programs is discreet. -/
protected theorem ite {condition : Prop} [Decidable condition] {first second : HeapM α}
    (whenTrue : Discreet first) (whenFalse : Discreet second) :
    Discreet (if condition then first else second) := by
  by_cases holds : condition
  · rw [if_pos holds]
    exact whenTrue
  · rw [if_neg holds]
    exact whenFalse

/-- A program that retains all but what nothing keeps is discreet. -/
theorem of_retains {program : HeapM α} (tame : Tame program)
    (retains : ∀ heap : Heap, heap.Sound → (program.run heap).2.handles.slots < 2 ^ 32 →
      ∃ new, heap.Retains (program.run heap).2 new ∧
        ∀ other, some other = new → heap.isLive other = false) : Discreet program where
  tame := tame
  interner heap sound bounded := by
    obtain ⟨_, retains, _⟩ := retains heap sound bounded
    exact retains.interner
  canonical heap bytes handle sound bounded canonical := by
    obtain ⟨_, retains, fresh⟩ := retains heap sound bounded
    exact canonical.of_retains retains sound (tame.sound sound bounded) fresh

/-- A program that allocates an object, or does nothing, is discreet. -/
theorem of_allocating {program : HeapM Handle} (tame : Tame program)
    (allocating : ∀ heap : Heap, heap.Sound → (program.run heap).2.handles.slots < 2 ^ 32 →
      (∃ error, program.run heap = (.error error, heap)) ∨
        ∃ view, heap.Allocating view (program.run heap)) : Discreet program := by
  apply of_retains tame
  intro heap sound bounded
  rcases allocating heap sound bounded with ⟨error, ran⟩ | ⟨view, allocating⟩
  · rw [ran]
    exact ⟨none, sound.retains_refl, by simp⟩
  · exact allocating.exists_retains

/-- A write that a string does not allow is discreet. -/
theorem of_writing {program : HeapM PUnit} (tame : Tame program) (target : Handle)
    (allowed : Heap → View → Prop) (change : Heap → View → View)
    (writing : ∀ heap : Heap, heap.Sound →
      heap.Writing target (allowed heap) (change heap) (program.run heap))
    (refuses : ∀ heap view, view.descriptor = Registry.stringClass → ¬ allowed heap view) :
    Discreet program where
  tame := tame
  interner heap sound _ := by
    have writes := writing heap sound
    generalize program.run heap = result at writes
    cases writes with
    | written _ _ rewrites => rw [rewrites.rest]
    | refused _ => rfl
  canonical heap bytes handle sound _ canonical := by
    have writes := writing heap sound
    generalize program.run heap = result at writes
    cases writes with
    | @written view next seen allows rewrites =>
        apply canonical.of_rewrites rewrites
        rintro rfl
        obtain ⟨shown, seenToo, sameClass, _⟩ := canonical.shown
        rw [seen] at seenToo
        cases seenToo
        exact refuses heap _ sameClass allows
    | refused _ => exact canonical

end Discreet

namespace Heap

/-! ## Allocations and collections -/

theorem discreet_allocate (id : ClassId) (extra : Nat) : Discreet (allocate id extra) := by
  apply Discreet.of_allocating (tame_allocate id extra)
  intro heap sound bounded
  cases registered : heap.classes.get id with
  | error error => exact Or.inl ⟨error, run_allocate_unknown registered extra⟩
  | ok descriptor => exact Or.inr ⟨_, sound.allocating registered extra bounded⟩

theorem discreet_allocateBytes (id : ClassId) (bytes : Bytes) :
    Discreet (allocateBytes id bytes) := by
  apply Discreet.of_allocating (tame_allocateBytes id bytes)
  intro heap sound bounded
  cases registered : heap.classes.get id with
  | error error => exact Or.inl ⟨error, run_allocateBytes_unknown registered bytes⟩
  | ok descriptor =>
      by_cases tail : descriptor.tail = .bytes
      · exact Or.inr ⟨_, sound.allocating_bytes registered tail bytes bounded⟩
      · left
        rw [run_allocateBytes registered, if_neg tail]
        exact ⟨_, rfl⟩

theorem discreet_allocScalar {id : ClassId}
    (scalar : id ∈ [ClassId.int, ClassId.float, ClassId.bool, ClassId.char]) (word : UInt64) :
    Discreet (allocScalar id word) := by
  apply Discreet.of_allocating (tame_allocScalar scalar word)
  intro heap sound bounded
  obtain ⟨descriptor, _, _, allocating⟩ := sound.allocating_scalar scalar word bounded
  exact Or.inr ⟨_, allocating⟩

theorem discreet_collect : Discreet collect := by
  apply Discreet.of_retains tame_collect
  intro heap sound _
  refine ⟨none, ?_, by simp⟩
  change heap.Retains heap.collectNow.2 none
  rcases ran : heap.collectNow with ⟨error | _, next⟩
  · exact (Clears.abandoned ran).retains sound
  · exact (Clears.collected ran).retains sound

/-! ## Holds -/

theorem discreet_retain (handle : Handle) : Discreet (retain handle) where
  tame := tame_retain handle
  interner heap _ _ := by
    rcases run_retain heap handle with ⟨_, next, ran, adds⟩ | ⟨_, ran⟩
    · rw [ran, adds.recounts.rest]
    · rw [ran]
  canonical heap bytes other _ _ canonical := by
    rcases run_retain heap handle with ⟨_, next, ran, adds⟩ | ⟨_, ran⟩
    · rw [ran]
      apply canonical.of_holds adds
      rw [charge, if_pos canonical.isInterned, UInt32.add_zero]
    · rw [ran]
      exact canonical

theorem discreet_release (handle : Handle) : Discreet (release handle) where
  tame := tame_release handle
  interner heap _ _ := by
    rcases run_release heap handle with ⟨_, next, ran, drops⟩ | ⟨_, _, error, _, ran⟩
    · rw [ran, drops.recounts.rest]
    · rw [ran]
  canonical heap bytes other _ _ canonical := by
    rcases run_release heap handle with ⟨_, next, ran, drops⟩ | ⟨_, _, error, _, ran⟩
    · rw [ran]
      apply canonical.of_holds drops
      rw [charge, if_pos canonical.isInterned, UInt32.sub_zero]
    · rw [ran]
      exact canonical

theorem discreet_releaseAll (handles : List Handle) : Discreet (releaseAll handles) := by
  induction handles with
  | nil => exact Discreet.pure ()
  | cons handle rest ih => exact (discreet_release handle).bind fun _ => ih

theorem discreet_retainAfter (taken handles : List Handle) :
    Discreet (retainAfter taken handles) := by
  induction handles generalizing taken with
  | nil => exact Discreet.pure ()
  | cons handle rest ih =>
      unfold retainAfter
      apply (discreet_retain handle).attempt.bind
      intro outcome
      cases outcome with
      | ok _ => exact ih _
      | error error => exact (discreet_releaseAll taken).bind fun _ => Discreet.throw error

theorem discreet_withHeld {α : Type} (handles : List Handle) {body : HeapM α}
    (discreet : Discreet body) : Discreet (withHeld handles body) := by
  unfold withHeld retainAll
  apply (discreet_retainAfter [] handles).bind
  intro _
  apply discreet.attempt.bind
  intro outcome
  cases outcome with
  | ok value => exact (discreet_releaseAll handles).bind fun _ => Discreet.pure value
  | error error => exact (discreet_releaseAll handles).bind fun _ => Discreet.throw error

theorem discreet_orRelease {α : Type} (handle : Handle) {rest : HeapM α}
    (discreet : Discreet rest) : Discreet (RefArray.orRelease handle rest) := by
  unfold RefArray.orRelease
  apply discreet.attempt.bind
  intro outcome
  cases outcome with
  | ok value => exact Discreet.pure value
  | error error => exact (discreet_release handle).bind fun _ => Discreet.throw error

/-! ## Writes -/

theorem discreet_writeRef (handle : Handle) (offset : Nat) (value : Option Handle) :
    Discreet (writeRef handle offset value) := by
  apply Discreet.of_writing (tame_writeRef handle offset value) handle _ _
    fun heap sound => sound.writing_ref handle offset value
  intro heap view string allowed
  rw [string] at allowed
  exact absurd (Descriptor.isRefField_iff.mp allowed.1) List.not_mem_nil

theorem discreet_runSet (handle : Handle) (index : Nat) (value : Option Handle) :
    Discreet (runSet handle index value) := by
  apply Discreet.of_writing (tame_runSet handle index value) handle _ _
    fun heap sound => sound.writing_element handle index value
  intro heap view string allowed
  rw [string] at allowed
  cases allowed.1

theorem discreet_copyRun (source target : Handle) (count : Nat) :
    Discreet (copyRun source target count) := by
  apply Discreet.of_writing (tame_copyRun source target count) target _ _
    fun heap sound => sound.writing_copy source target count
  intro heap view string allowed
  rw [string] at allowed
  cases allowed.2.1

theorem discreet_writeWord (handle : Handle) (offset : Nat) (value : UInt64) :
    Discreet (Heap.writeWord handle offset value) := by
  apply Discreet.of_writing (tame_writeWord handle offset value) handle _ _
    fun heap sound => sound.writing_word handle offset value
  intro heap view string allowed
  have inside := Descriptor.isDataWord_inside allowed
  rw [string] at inside
  exact absurd inside (Nat.not_lt_zero _)

theorem discreet_cons (car cdr : Option Handle) : Discreet (cons car cdr) := by
  unfold cons
  apply (discreet_withHeld _ (discreet_allocate .cons 0)).bind
  intro cell
  apply (discreet_writeRef cell 0 car).bind
  intro _
  exact (discreet_writeRef cell wordBytes cdr).bind fun _ => Discreet.pure cell

theorem discreet_writePair (cell : Handle) (offset : Nat) (value : Option Handle) :
    Discreet (writePair cell offset value) :=
  (Discreet.ask _).bind fun _ => discreet_writeRef cell offset value

/-! ## Classes and roots -/

theorem discreet_register (name : String) (size align : Nat) (trace : List TraceEntry)
    (byteTail : Bool) : Discreet (register name size align trace byteTail) := by
  apply Discreet.of_aside (tame_register name size align trace byteTail)
  intro heap
  unfold register
  rw [HeapM.run_bind, HeapM.run_get]
  dsimp only
  cases heap.classes.register name size align trace byteTail with
  | error error => exact ⟨rfl, rfl, rfl⟩
  | ok registered => exact ⟨rfl, rfl, rfl⟩

theorem discreet_registerRoot (source : RootSource) (handle : Handle) :
    Discreet (registerRoot source handle) := by
  apply Discreet.of_aside (tame_registerRoot source handle)
  intro heap
  unfold registerRoot
  rw [HeapM.run_bind, HeapM.run_ask]
  cases heap.handles.resolve handle with
  | error error => exact ⟨rfl, rfl, rfl⟩
  | ok address => exact ⟨rfl, rfl, rfl⟩

theorem discreet_unregisterRoot (source : RootSource) (handle : Handle) :
    Discreet (unregisterRoot source handle) := by
  apply Discreet.of_aside (tame_unregisterRoot source handle)
  intro heap
  unfold unregisterRoot
  rw [HeapM.run_bind, HeapM.run_get]
  dsimp only
  cases heap.roots.unregister source handle with
  | none => exact ⟨rfl, rfl, rfl⟩
  | some roots => exact ⟨rfl, rfl, rfl⟩

theorem discreet_removeScanner (id : ScannerId) : Discreet (removeScanner id) := by
  apply Discreet.of_aside (tame_removeScanner id)
  intro heap
  unfold removeScanner
  rw [HeapM.run_bind, HeapM.run_get]
  dsimp only
  cases heap.roots.removeScanner id with
  | none => exact ⟨rfl, rfl, rfl⟩
  | some roots => exact ⟨rfl, rfl, rfl⟩

/-- Counting is discreet. -/
theorem discreet_count {change : Counters → Counters} (aside : Counters.Aside change) :
    Discreet (modify fun heap => { heap with counters := change heap.counters } : HeapM PUnit) :=
  Discreet.of_aside (tame_count aside) fun _ => ⟨rfl, rfl, rfl⟩

end Heap

/-! ## Arrays -/

namespace RefArray

theorem discreet_set (array : RefArray) (index : Nat) (value : Option Handle) :
    Discreet (array.set index value) :=
  (Discreet.ask _).bind fun backing => discreet_runSet backing index value

theorem discreet_withCapacity (capacity : Nat) : Discreet (withCapacity capacity) := by
  unfold withCapacity
  apply (discreet_allocate .array 0).bind
  intro handle
  apply Discreet.ite
  · exact Discreet.pure _
  · apply (discreet_orRelease handle (discreet_withHeld [handle]
      (discreet_allocate .vector capacity))).bind
    intro backing
    apply (discreet_writeWord handle capacityOffset capacity.toUInt64).bind
    intro _
    unfold adopt
    apply ((discreet_writeRef handle backingOffset (some backing)).bind fun _ =>
      discreet_release backing).bind
    intro _
    exact Discreet.pure _

theorem discreet_filled (length : Nat) : Discreet (filled length) := by
  unfold filled
  apply (discreet_withCapacity length).bind
  intro array
  exact (discreet_writeWord array.handle lengthOffset length.toUInt64).bind fun _ =>
    Discreet.pure array

theorem discreet_grow (array : RefArray) (length : UInt64) : Discreet (array.grow length) := by
  have finish (grown : Handle) (capacity : UInt64) : Discreet (do
      Heap.writeRef array.handle backingOffset (some grown)
      Heap.writeWord array.handle capacityOffset capacity
      Heap.release grown
      modify fun heap => { heap with
        counters := { heap.counters with
          arrayReallocations := heap.counters.arrayReallocations + 1 } } : HeapM PUnit) := by
    apply (discreet_writeRef array.handle backingOffset (some grown)).bind
    intro _
    apply (discreet_writeWord array.handle capacityOffset capacity).bind
    intro _
    apply (discreet_release grown).bind
    intro _
    exact discreet_count Counters.aside_arrayReallocations
  unfold grow
  apply (Discreet.ask _).bind
  intro oldCapacity
  apply (discreet_allocate .vector _).bind
  intro grown
  apply Discreet.ite
  · apply (Discreet.ask _).bind
    intro old
    exact (discreet_copyRun old grown length.toNat).bind fun _ => finish grown _
  · exact finish grown _

theorem discreet_push (array : RefArray) (value : Option Handle) :
    Discreet (array.push value) := by
  have finish (length : UInt64) : Discreet (do
      let backing ← HeapM.ask array.backing
      Heap.runSet backing length.toNat value
      Heap.writeWord array.handle lengthOffset (length + 1)) := by
    apply (Discreet.ask _).bind
    intro backing
    exact (discreet_runSet backing length.toNat value).bind fun _ =>
      discreet_writeWord array.handle lengthOffset (length + 1)
  unfold push
  apply (Discreet.ask _).bind
  intro length
  apply (Discreet.ask _).bind
  intro capacity
  apply Discreet.ite
  · exact (discreet_withHeld _ (discreet_grow array length)).bind fun _ => finish length
  · exact finish length

theorem discreet_pop (array : RefArray) : Discreet array.pop := by
  unfold pop
  apply (Discreet.ask _).bind
  intro length
  apply Discreet.ite
  · exact Discreet.throw _
  · apply (Discreet.ask _).bind
    intro backing
    apply (Discreet.ask _).bind
    intro value
    apply (discreet_runSet backing _ none).bind
    intro _
    exact (discreet_writeWord array.handle lengthOffset _).bind fun _ => Discreet.pure value

theorem discreet_eraseFrom (backing : Handle) (index count : Nat) :
    Discreet (eraseFrom backing index count) := by
  induction count generalizing index with
  | zero => exact Discreet.pure ()
  | succ count ih => exact (discreet_runSet backing index none).bind fun _ => ih (index + 1)

theorem discreet_clear (array : RefArray) : Discreet array.clear := by
  unfold clear
  apply (Discreet.ask _).bind
  intro length
  apply Discreet.ite
  · apply (Discreet.ask _).bind
    intro backing
    exact (discreet_eraseFrom backing 0 length).bind fun _ =>
      discreet_writeWord array.handle lengthOffset 0
  · exact discreet_writeWord array.handle lengthOffset 0

end RefArray

/-! ## Tables -/

namespace RefTable

variable {hash : Key → UInt64}

theorem discreet_fillBucket (buckets : RefArray) (index : UInt64) (key value : Option Handle) :
    Discreet (fillBucket buckets index key value) :=
  (buckets.discreet_set _ key).bind fun _ => buckets.discreet_set _ value

theorem discreet_withCapacity (capacity : Nat) : Discreet (withCapacity capacity) := by
  unfold withCapacity
  apply Discreet.ite
  · exact Discreet.get.bind fun heap => Discreet.throw _
  · apply (discreet_allocate .hashtable 0).bind
    intro handle
    apply (discreet_orRelease handle (discreet_withHeld [handle]
      (RefArray.discreet_filled _))).bind
    intro buckets
    apply (discreet_writeWord handle capacityOffset _).bind
    intro _
    apply (discreet_writeRef handle bucketsOffset (some buckets.handle)).bind
    intro _
    exact (discreet_release buckets.handle).bind fun _ => Discreet.pure _

theorem discreet_reinsertFrom (table : RefTable) (old grown : RefArray)
    (capacity index : UInt64) (count : Nat) :
    Discreet (table.reinsertFrom old grown capacity index count hash) := by
  induction count generalizing index with
  | zero => exact Discreet.pure ()
  | succ count ih =>
      unfold reinsertFrom
      apply (Discreet.ask _).bind
      intro key
      cases key with
      | none => exact ih (index + 1)
      | some key =>
          apply (Discreet.ask _).bind
          intro value
          apply (Discreet.ask _).bind
          intro probed
          cases probed with
          | found _ => exact Discreet.throw _
          | vacant slot =>
              exact (discreet_fillBucket grown slot (some key) value).bind fun _ => ih (index + 1)

theorem discreet_resize (table : RefTable) (capacity : UInt64) :
    Discreet (table.resize capacity hash) := by
  unfold resize
  apply (Discreet.ask _).bind
  intro oldCapacity
  apply (RefArray.discreet_filled _).bind
  intro grown
  apply (Discreet.ask _).bind
  intro old
  apply (table.discreet_reinsertFrom old grown capacity 0 oldCapacity.toNat).bind
  intro _
  apply (discreet_writeRef table.handle bucketsOffset (some grown.handle)).bind
  intro _
  apply (discreet_writeWord table.handle capacityOffset capacity).bind
  intro _
  apply (discreet_release grown.handle).bind
  intro _
  exact discreet_count Counters.aside_tableResizes

theorem discreet_makeRoom (table : RefTable) (count : UInt64) (key value : Handle) :
    Discreet (table.makeRoom count key value hash) := by
  unfold makeRoom
  apply (Discreet.ask _).bind
  intro capacity
  apply Discreet.get.bind
  intro heap
  apply Discreet.ite
  · apply Discreet.ite
    · exact Discreet.throw _
    · exact discreet_withHeld _ (table.discreet_resize _)
  · exact Discreet.pure _

theorem discreet_insert (table : RefTable) (key value : Handle) :
    Discreet (table.insert key value hash) := by
  unfold insert
  apply (Discreet.ask _).bind
  intro _
  apply (Discreet.ask _).bind
  intro found
  rcases found with _ | ⟨buckets, index⟩
  · apply (Discreet.ask _).bind
    intro count
    apply (table.discreet_makeRoom count key value).bind
    intro _
    apply (Discreet.ask _).bind
    intro buckets
    apply (Discreet.ask _).bind
    intro capacity
    apply (Discreet.ask _).bind
    intro probed
    cases probed with
    | found _ => exact Discreet.throw _
    | vacant slot =>
        apply (discreet_fillBucket buckets slot (some key) (some value)).bind
        intro _
        exact (discreet_writeWord table.handle countOffset _).bind fun _ => Discreet.pure none
  · apply (Discreet.ask _).bind
    intro previous
    exact (buckets.discreet_set _ (some value)).bind fun _ => Discreet.pure previous

theorem discreet_shiftBack (buckets : RefArray) (mask hole next : UInt64) (steps : Nat) :
    Discreet (shiftBack buckets mask hole next steps hash) := by
  induction steps generalizing hole next with
  | zero => exact Discreet.throw _
  | succ steps ih =>
      unfold shiftBack
      apply (Discreet.ask _).bind
      intro moving
      cases moving with
      | none => exact Discreet.pure hole
      | some moving =>
          apply (Discreet.ask _).bind
          intro home
          apply Discreet.ite
          · apply (Discreet.ask _).bind
            intro value
            exact (discreet_fillBucket buckets hole (some moving) value).bind fun _ => ih next _
          · exact ih hole _

theorem discreet_remove (table : RefTable) (key : Handle) :
    Discreet (table.remove key hash) := by
  unfold remove
  apply (Discreet.ask _).bind
  intro found
  rcases found with _ | ⟨buckets, index⟩
  · exact Discreet.pure none
  · apply (Discreet.ask _).bind
    intro value
    apply (Discreet.ask _).bind
    intro capacity
    apply (discreet_shiftBack buckets _ index _ _).bind
    intro hole
    apply (discreet_fillBucket buckets hole none none).bind
    intro _
    apply (Discreet.ask _).bind
    intro count
    exact (discreet_writeWord table.handle countOffset _).bind fun _ => Discreet.pure value

end RefTable

end CompactingHeap
