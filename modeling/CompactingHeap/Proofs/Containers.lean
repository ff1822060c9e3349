import CompactingHeap.Proofs.Elsewhere

/-!
# Objects of containers

An array or a table is an object with two words and a reference to its storage: the run that backs
the array, or the bucket array of the table.  This module tells how such objects are read and
written, how a program may leave all but some objects as they are, and what it means that the parts
of a container are apart from all other containers.
-/

namespace CompactingHeap

open Heap

namespace Heap

/-! ## Different objects -/

/-- Objects of different classes are different. -/
theorem ne_of_classOf {heap : Heap} {handle other : Handle} {id otherId : ClassId}
    (known : heap.classOf handle = .ok id) (knownToo : heap.classOf other = .ok otherId)
    (unlike : id ≠ otherId) : handle ≠ other := by
  rintro rfl
  exact unlike (Except.ok.inj (known.symm.trans knownToo))

/-- What is live is not new. -/
theorem ne_of_new {heap : Heap} {handle other : Handle} (live : heap.isLive handle = true)
    (new : heap.isLive other = false) : handle ≠ other := by
  rintro rfl
  rw [live] at new
  cases new

/-- What is live is not among what is new. -/
theorem not_mem_of_new {heap : Heap} {handle : Handle} {others : List Handle}
    (live : heap.isLive handle = true) (new : ∀ other ∈ others, heap.isLive other = false) :
    handle ∉ others :=
  fun member => ne_of_new live (new handle member) rfl

/-! ## Leaving objects alone -/

/-- A run has written some objects and nothing else. -/
structure Alters (heap next : Heap) (altered : List Handle) : Prop where
  rest : next = { heap with space := next.space }
  views : ∀ handle, handle ∉ altered → next.view? handle = heap.view? handle
  descriptors : ∀ handle view, heap.view? handle = some view →
    ∃ now, next.view? handle = some now ∧ now.descriptor = view.descriptor
  sound : heap.Sound → next.Sound

theorem Alters.refl (heap : Heap) : heap.Alters heap [] :=
  ⟨rfl, fun _ _ => rfl, fun _ view seen => ⟨view, seen, rfl⟩, id⟩

theorem Alters.trans {heap middle next : Heap} {first second : List Handle}
    (before : heap.Alters middle first) (after : middle.Alters next second) :
    heap.Alters next (first ++ second) where
  rest := by
    rw [after.rest, before.rest]
  views handle unlisted := by
    rw [List.mem_append, not_or] at unlisted
    rw [after.views handle unlisted.2, before.views handle unlisted.1]
  descriptors handle view seen := by
    obtain ⟨shown, there, same⟩ := before.descriptors handle view seen
    obtain ⟨now, here, sameToo⟩ := after.descriptors handle shown there
    exact ⟨now, here, sameToo.trans same⟩
  sound := after.sound ∘ before.sound

theorem Alters.mono {heap next : Heap} {altered more : List Handle}
    (alters : heap.Alters next altered) (within : altered ⊆ more) : heap.Alters next more where
  rest := alters.rest
  views handle unlisted := alters.views handle fun member => unlisted (within member)
  descriptors := alters.descriptors
  sound := alters.sound

/-- A tame program that rewrites an object alters it. -/
theorem Rewrites.alters {α : Type} {program : HeapM α} (tame : Tame program) {heap next : Heap}
    {result : Except HeapError α} (ran : program.run heap = (result, next)) {handle : Handle}
    {view changed : View} (rewrites : heap.Rewrites next handle changed)
    (seen : heap.view? handle = some view) (same : changed.descriptor = view.descriptor) :
    heap.Alters next [handle] where
  rest := rewrites.rest
  views other unlisted := by
    rw [rewrites.view?, Function.update_of_ne]
    exact fun here => unlisted (List.mem_singleton.mpr here)
  descriptors other shown there := by
    rw [rewrites.view?]
    by_cases here : other = handle
    · subst here
      rw [seen] at there
      cases there
      exact ⟨changed, Function.update_self .., same⟩
    · exact ⟨shown, by rw [Function.update_of_ne here, there], rfl⟩
  sound sound := by
    have still := tame.sound sound
    rw [ran] at still
    exact still (by rw [rewrites.slots]; exact sound.bounded)

theorem Alters.isLive {heap next : Heap} {altered : List Handle}
    (alters : heap.Alters next altered) (handle : Handle) :
    next.isLive handle = heap.isLive handle := by
  rw [alters.rest]
  rfl

theorem Alters.holds {heap next : Heap} {altered : List Handle}
    (alters : heap.Alters next altered) (handle : Handle) :
    next.holds handle = heap.holds handle := by
  rw [alters.rest]
  rfl

theorem Alters.present {heap next : Heap} {altered : List Handle}
    (alters : heap.Alters next altered) {value : Option Handle} :
    next.Present value ↔ heap.Present value := by
  simp only [Present, alters.isLive]

/-- Writing an object does not change its class. -/
theorem Alters.classOf {heap next : Heap} {altered : List Handle}
    (alters : heap.Alters next altered) (sound : heap.Sound) (handle : Handle) :
    next.classOf handle = heap.classOf handle := by
  cases seen : heap.view? handle with
  | some view =>
      obtain ⟨now, there, same⟩ := alters.descriptors handle view seen
      rw [classOf_of_view seen, classOf_of_view there, same]
  | none =>
      have dead := sound.isLive_eq_false_iff.mpr seen
      rw [← alters.isLive] at dead
      have gone := (alters.sound sound).isLive_eq_false_iff.mp dead
      unfold Heap.classOf
      rw [sound.objectOf_stale seen, (alters.sound sound).objectOf_stale gone]

/-- A run has made some objects and written some.  Apart from these, objects may be gone, but what
is still live is as it was, and does not refer to the new objects. -/
structure Leaves (heap next : Heap) (new altered : List Handle) : Prop where
  live : ∀ handle, handle ∉ new → next.isLive handle = true → heap.isLive handle = true
  views : ∀ handle, handle ∉ new → handle ∉ altered → next.isLive handle = true →
    next.view? handle = heap.view? handle
  apart : ∀ handle view target, handle ∉ new → handle ∉ altered →
    next.view? handle = some view → view.Refers target → target ∉ new
  config : next.config = heap.config
  classes : next.classes = heap.classes
  interner : next.interner = heap.interner

theorem Leaves.trans {heap middle next : Heap} {new newer altered others : List Handle}
    (before : heap.Leaves middle new altered) (after : middle.Leaves next newer others) :
    heap.Leaves next (new ++ newer) (altered ++ others) where
  live handle unlisted live := by
    rw [List.mem_append, not_or] at unlisted
    exact before.live handle unlisted.1 (after.live handle unlisted.2 live)
  views handle unlisted unaltered live := by
    rw [List.mem_append, not_or] at unlisted unaltered
    rw [after.views handle unlisted.2 unaltered.2 live]
    exact before.views handle unlisted.1 unaltered.1 (after.live handle unlisted.2 live)
  apart handle view target unlisted unaltered seen refers := by
    rw [List.mem_append, not_or] at unlisted unaltered ⊢
    have there := after.views handle unlisted.2 unaltered.2 (isLive_of_view seen)
    rw [seen] at there
    exact ⟨before.apart handle view target unlisted.1 unaltered.1 there.symm refers,
      after.apart handle view target unlisted.2 unaltered.2 seen refers⟩
  config := after.config.trans before.config
  classes := after.classes.trans before.classes
  interner := after.interner.trans before.interner

/-- More objects may be counted as altered. -/
theorem Leaves.mono {heap next : Heap} {new altered more : List Handle}
    (leaves : heap.Leaves next new altered) (within : altered ⊆ more) :
    heap.Leaves next new more where
  live := leaves.live
  views handle unlisted unaltered :=
    leaves.views handle unlisted fun member => unaltered (within member)
  apart handle view target unlisted unaltered :=
    leaves.apart handle view target unlisted fun member => unaltered (within member)
  config := leaves.config
  classes := leaves.classes
  interner := leaves.interner

/-- What is new need not be counted as altered. -/
theorem Leaves.settle {heap next : Heap} {new altered others : List Handle}
    (leaves : heap.Leaves next new altered) (within : altered ⊆ new ++ others) :
    heap.Leaves next new others where
  live := leaves.live
  views handle old unaltered := leaves.views handle old fun member => by
    rcases List.mem_append.mp (within member) with here | there
    · exact old here
    · exact unaltered there
  apart handle view target old unaltered := leaves.apart handle view target old fun member => by
    rcases List.mem_append.mp (within member) with here | there
    · exact old here
    · exact unaltered there
  config := leaves.config
  classes := leaves.classes
  interner := leaves.interner

/-- An allocation leaves all but the new object alone. -/
theorem Retains.leaves {heap next : Heap} {new : Option Handle} (retains : heap.Retains next new)
    (fresh : ∀ handle, some handle = new → heap.isLive handle = false) :
    heap.Leaves next new.toList [] where
  live handle old live :=
    retains.live handle (fun same => old (Option.mem_toList.mpr same.symm)) live
  views handle old _ live :=
    retains.view handle (fun same => old (Option.mem_toList.mpr same.symm)) live
  apart handle view target old _ seen refers := by
    have there := retains.view handle (fun same => old (Option.mem_toList.mpr same.symm))
      (isLive_of_view seen)
    rw [seen] at there
    have live := isLive_of_refers there.symm refers
    intro member
    rw [fresh target (Option.mem_toList.mp member).symm] at live
    cases live
  config := retains.config
  classes := retains.classes
  interner := retains.interner

theorem Alters.leaves {heap next : Heap} {altered : List Handle}
    (alters : heap.Alters next altered) : heap.Leaves next [] altered where
  live handle _ live := (alters.isLive handle).symm.trans live
  views handle _ unlisted _ := alters.views handle unlisted
  apart _ _ _ _ _ _ _ := List.not_mem_nil
  config := by rw [alters.rest]
  classes := by rw [alters.rest]
  interner := by rw [alters.rest]

/-- What changes nothing that shows leaves everything alone. -/
theorem leaves_of_views {heap next : Heap} (views : next.view? = heap.view?)
    (handles : next.handles = heap.handles) (config : next.config = heap.config)
    (classes : next.classes = heap.classes) (interner : next.interner = heap.interner) :
    heap.Leaves next [] [] where
  live handle _ live := by
    unfold Heap.isLive at live ⊢
    rwa [handles] at live
  views handle _ _ _ := congrFun views handle
  apart _ _ _ _ _ _ _ := List.not_mem_nil
  config := config
  classes := classes
  interner := interner

/-- Counting holds leaves everything alone. -/
theorem Recounts.leaves {heap next : Heap} (recounts : heap.Recounts next) :
    heap.Leaves next [] [] where
  live handle _ live := (recounts.isLive handle).symm.trans live
  views handle _ _ _ := congrFun recounts.view? handle
  apart _ _ _ _ _ _ _ := List.not_mem_nil
  config := by rw [recounts.rest]
  classes := by rw [recounts.rest]
  interner := by rw [recounts.rest]

/-! ## Records and runs -/

/-- An object of an array or a table shows its two words and its storage. -/
structure Record (heap : Heap) (descriptor : Descriptor) (handle : Handle) (first second : UInt64)
    (storage : Option Handle) : Prop where
  shown : ∃ view, heap.view? handle = some view ∧ view.descriptor = descriptor ∧
    view.word 0 = first ∧ view.word wordBytes = second ∧ view.ref storageOffset = storage

/-- A vector shows its elements. -/
structure Runs (heap : Heap) (handle : Handle) (elements : List (Option Handle)) : Prop where
  shown : ∃ view, heap.view? handle = some view ∧ view.descriptor = Registry.vectorClass ∧
    view.run = elements

/-- The classes of arrays and tables have the same layout. -/
def IsRecord (descriptor : Descriptor) : Prop :=
  descriptor = Registry.arrayClass ∨ descriptor = Registry.hashtableClass

theorem IsRecord.isDataWord {descriptor : Descriptor} (isRecord : IsRecord descriptor) :
    descriptor.isDataWord 0 = true ∧ descriptor.isDataWord wordBytes = true ∧
      descriptor.isRefField storageOffset = true ∧ descriptor.runOffset? = none := by
  rcases isRecord with rfl | rfl <;> exact ⟨rfl, rfl, rfl, rfl⟩

section

variable {heap : Heap} {descriptor : Descriptor} {handle : Handle} {first second : UInt64}
  {storage : Option Handle} (record : heap.Record descriptor handle first second storage)

include record

theorem Record.isLive : heap.isLive handle = true := by
  obtain ⟨view, seen, _⟩ := record.shown
  exact isLive_of_view seen

theorem Record.classOf : heap.classOf handle = .ok descriptor.id := by
  obtain ⟨view, seen, rfl, _⟩ := record.shown
  exact classOf_of_view seen

/-- A record is sane. -/
theorem Record.sane (isRecord : IsRecord descriptor) {view : View}
    (seen : heap.view? handle = some view) : view.Sane := by
  obtain ⟨shown, there, same, _⟩ := record.shown
  rw [seen] at there
  cases there
  rcases isRecord with rfl | rfl
  · exact View.Sane.of_initial (by rw [same]; rfl) (by rw [same]; decide)
  · exact View.Sane.of_initial (by rw [same]; rfl) (by rw [same]; decide)

/-- A record shows the same wherever its view is the same. -/
theorem Record.congr {next : Heap} (same : next.view? handle = heap.view? handle) :
    next.Record descriptor handle first second storage := by
  obtain ⟨view, seen, shape⟩ := record.shown
  exact ⟨view, same.trans seen, shape⟩

/-- The storage of a record is live. -/
theorem Record.isLive_storage {target : Handle} (backed : storage = some target) :
    heap.isLive target = true := by
  obtain ⟨view, seen, _, _, _, refers⟩ := record.shown
  exact isLive_of_refers seen (Or.inl ⟨storageOffset, refers.trans backed⟩)

variable (isRecord : IsRecord descriptor)

include isRecord

theorem Record.readFirst : heap.readWord handle 0 = .ok first := by
  obtain ⟨view, seen, rfl, rfl, _⟩ := record.shown
  rw [readWord_of_view seen, if_pos isRecord.isDataWord.1]

theorem Record.readSecond : heap.readWord handle wordBytes = .ok second := by
  obtain ⟨view, seen, rfl, _, rfl, _⟩ := record.shown
  rw [readWord_of_view seen, if_pos isRecord.isDataWord.2.1]

theorem Record.readStorage : heap.readRef handle storageOffset = .ok storage := by
  obtain ⟨view, seen, rfl, _, _, rfl⟩ := record.shown
  rw [readRef_of_view seen, if_pos isRecord.isDataWord.2.2.1]

variable (sound : heap.Sound)

include sound

theorem Record.writeFirst (value : UInt64) :
    ∃ next, (writeWord handle 0 value).run heap = (.ok ⟨⟩, next) ∧ heap.Alters next [handle] ∧
      next.Record descriptor handle value second storage := by
  obtain ⟨view, seen, rfl, rfl, rfl, rfl⟩ := record.shown
  obtain ⟨next, ran, rewrites⟩ :=
    (sound.writing_word handle 0 value).exists_next seen isRecord.isDataWord.1
  exact ⟨next, ran, rewrites.alters (tame_writeWord _ _ _) ran seen rfl,
    ⟨_, rewrites.seen, rfl, rfl, rfl, rfl⟩⟩

theorem Record.writeSecond (value : UInt64) :
    ∃ next, (writeWord handle wordBytes value).run heap = (.ok ⟨⟩, next) ∧
      heap.Alters next [handle] ∧ next.Record descriptor handle first value storage := by
  obtain ⟨view, seen, rfl, rfl, rfl, rfl⟩ := record.shown
  obtain ⟨next, ran, rewrites⟩ :=
    (sound.writing_word handle wordBytes value).exists_next seen isRecord.isDataWord.2.1
  exact ⟨next, ran, rewrites.alters (tame_writeWord _ _ _) ran seen rfl,
    ⟨_, rewrites.seen, rfl, rfl, rfl, rfl⟩⟩

theorem Record.writeStorage {value : Option Handle} (present : heap.Present value) :
    ∃ next, (writeRef handle storageOffset value).run heap = (.ok ⟨⟩, next) ∧
      heap.Alters next [handle] ∧ next.Record descriptor handle first second value := by
  obtain ⟨view, seen, rfl, rfl, rfl, rfl⟩ := record.shown
  obtain ⟨next, ran, rewrites⟩ := (sound.writing_ref handle storageOffset value).exists_next seen
    ⟨isRecord.isDataWord.2.2.1, present⟩
  exact ⟨next, ran, rewrites.alters (tame_writeRef _ _ _) ran seen rfl,
    ⟨_, rewrites.seen, rfl, rfl, rfl, view.ref_setRef_self storageOffset value⟩⟩

end

section

variable {heap : Heap} {handle : Handle} {elements : List (Option Handle)}
  (runs : heap.Runs handle elements)

include runs

theorem Runs.isLive : heap.isLive handle = true := by
  obtain ⟨view, seen, _⟩ := runs.shown
  exact isLive_of_view seen

theorem Runs.classOf : heap.classOf handle = .ok .vector := by
  obtain ⟨view, seen, vector, _⟩ := runs.shown
  rw [classOf_of_view seen, vector]
  rfl

/-- A run is sane. -/
theorem Runs.sane {view : View} (seen : heap.view? handle = some view) : view.Sane := by
  obtain ⟨shown, there, same, _⟩ := runs.shown
  rw [seen] at there
  cases there
  exact View.Sane.of_initial (by rw [same]; rfl) (by rw [same]; decide)

theorem Runs.congr {next : Heap} (same : next.view? handle = heap.view? handle) :
    next.Runs handle elements := by
  obtain ⟨view, seen, shape⟩ := runs.shown
  exact ⟨view, same.trans seen, shape⟩

/-- The elements of a run are live. -/
theorem Runs.present : ∀ element ∈ elements, heap.Present element := by
  obtain ⟨view, seen, _, rfl⟩ := runs.shown
  rintro element member target rfl
  exact isLive_of_refers seen (Or.inr member)

theorem Runs.length : heap.runLength handle = .ok elements.length := by
  obtain ⟨view, seen, vector, rfl⟩ := runs.shown
  rw [runLength_of_view seen, vector]
  rfl

theorem Runs.get {index : Nat} {element : Option Handle} (here : elements[index]? = some element) :
    heap.runGet handle index = .ok element := by
  obtain ⟨view, seen, vector, rfl⟩ := runs.shown
  rw [runGet_of_view seen, vector, here]
  rfl

variable (sound : heap.Sound)

include sound

theorem Runs.set {index : Nat} {value : Option Handle} (inside : index < elements.length)
    (present : heap.Present value) :
    ∃ next, (runSet handle index value).run heap = (.ok ⟨⟩, next) ∧ heap.Alters next [handle] ∧
      next.Runs handle (elements.set index value) := by
  obtain ⟨view, seen, vector, rfl⟩ := runs.shown
  obtain ⟨next, ran, rewrites⟩ := (sound.writing_element handle index value).exists_next seen
    ⟨by rw [vector]; rfl, inside, present⟩
  exact ⟨next, ran, rewrites.alters (tame_runSet _ _ _) ran seen rfl,
    ⟨_, rewrites.seen, vector, rfl⟩⟩

/-- A stale element is refused. -/
theorem Runs.set_stale {index : Nat} {value : Handle} (inside : index < elements.length)
    (stale : heap.isLive value = false) :
    (runSet handle index (some value)).run heap = (.error (.staleHandle value), heap) := by
  obtain ⟨view, seen, vector, rfl⟩ := runs.shown
  rcases view?_eq_some_iff.mp seen with ⟨object, found, shown⟩
  have descriptor : object.descriptor = Registry.vectorClass :=
    (congrArg View.descriptor shown).trans vector
  have length : object.runLength = view.run.length := by
    rw [← object.length_elements heap.handleOf?]
    exact congrArg (fun view : View => view.run.length) shown
  have here : heap.runElement handle index = .ok (object, runSlot 0 index) := by
    apply runElement_eq_ok_iff.mpr
    refine ⟨0, runOf_eq_ok_iff.mpr ⟨found, ?_⟩, by rw [length]; exact inside, rfl⟩
    rw [descriptor]
    rfl
  unfold runSet
  rw [HeapM.run_bind, HeapM.run_ask, here]
  dsimp only
  rw [HeapM.run_bind, HeapM.run_ask, sound.addressOf_of_stale stale]

theorem Runs.copy {source : Handle} {others : List (Option Handle)} {count : Nat}
    (sourceRuns : heap.Runs source others) (enough : count ≤ others.length)
    (room : count ≤ elements.length) :
    ∃ next, (copyRun source handle count).run heap = (.ok ⟨⟩, next) ∧
      heap.Alters next [handle] ∧ next.Runs handle (others.take count ++ elements.drop count) := by
  obtain ⟨view, seen, vector, rfl⟩ := runs.shown
  obtain ⟨shown, there, alsoVector, rfl⟩ := sourceRuns.shown
  have sameElements := elementsOf_of_view there
  obtain ⟨next, ran, rewrites⟩ := (sound.writing_copy source handle count).exists_next seen
    ⟨⟨shown, there, by rw [alsoVector]; rfl⟩, by rw [vector]; rfl,
      by rw [sameElements]; exact enough, room⟩
  refine ⟨next, ran, rewrites.alters (tame_copyRun _ _ _) ran seen rfl,
    ⟨_, rewrites.seen, vector, ?_⟩⟩
  rw [sameElements]
  rfl

end

end Heap

end CompactingHeap
