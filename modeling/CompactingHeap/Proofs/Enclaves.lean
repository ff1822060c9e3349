import CompactingHeap.RefTable.Basic
import CompactingHeap.Proofs.Lasting
import CompactingHeap.Proofs.Allocation
import CompactingHeap.Proofs.Writes

/-!
# Enclaves

An enclave is a set of objects, its parts, that belong to a container and that nothing else may
write.  All of them hang on the roots of the enclave, so they live as long as the roots do.  The
enclave is guarded in a heap where its parts show what they should and no other array or table is
backed by one of them.  It stays guarded as long as only other objects change and no array or table
comes to be backed by a part.
-/

namespace CompactingHeap

/-- The handles that can be reached from the roots through the parts. -/
inductive Hangs (roots : List Handle) (part? : Handle → Option View) : Handle → Prop
  | root {handle : Handle} : handle ∈ roots → Hangs roots part? handle
  | refers {handle target : Handle} {view : View} :
      Hangs roots part? handle → part? handle = some view → view.Refers target →
        Hangs roots part? target

/-- The objects that a container consists of with what they show, and further objects whose class
matters.  The parts with a run are vectors. -/
structure Enclave where
  roots : List Handle
  part? : Handle → Option View
  class? : Handle → Option ClassId
  rooted : ∀ handle ∈ roots, (part? handle).isSome
  hangs : ∀ handle, (part? handle).isSome ∨ (class? handle).isSome → Hangs roots part? handle
  vectors : ∀ handle view, part? handle = some view → view.descriptor.runOffset?.isSome →
    view.descriptor.id = .vector

/-- Where an array refers to its backing run, and a table to its bucket array. -/
def storageOffset : Nat := RefArray.backingOffset

/-- An instance of a class that every heap offers has the description of that class, and a character
shows a code point that is one. -/
structure View.Sane (view : View) : Prop where
  builtin : ∀ descriptor, Registry.initial.classes[view.descriptor.id.index]? = some descriptor →
    view.descriptor = descriptor
  char : view.descriptor.id = .char → (view.word 0).toUInt32.isValidChar

/-- An instance of a class that every heap offers is sane, unless it is a character. -/
theorem View.Sane.of_initial {view : View}
    (offered : Registry.initial.classes[view.descriptor.id.index]? = some view.descriptor)
    (other : view.descriptor.id ≠ .char) : view.Sane where
  builtin _ found := Option.some.inj (offered.symm.trans found)
  char same := absurd same other

/-- Only the class and the words matter. -/
theorem View.Sane.congr {view other : View} (sane : view.Sane)
    (descriptor : other.descriptor = view.descriptor) (word : other.word = view.word) :
    other.Sane where
  builtin := by
    rw [descriptor]
    exact sane.builtin
  char := by
    rw [descriptor, word]
    exact sane.char

namespace Enclave

variable (enclave : Enclave)

/-- The object is no part of the enclave. -/
def Outside (handle : Handle) : Prop :=
  enclave.part? handle = none

/-- The object is a part of the given class. -/
def Has (handle : Handle) (id : ClassId) : Prop :=
  ∃ view, enclave.part? handle = some view ∧ view.descriptor.id = id

/-- The object is no part, and it is not backed by a part of the given class. -/
structure Clear (heap : Heap) (id : ClassId) (handle : Handle) : Prop where
  outside : enclave.Outside handle
  backed : ∀ view target, heap.view? handle = some view → view.ref storageOffset = some target →
    ¬ enclave.Has target id

/-- The parts show what they should, and no other array or table is backed by a part. -/
structure Guarded (heap : Heap) : Prop where
  parts : ∀ handle view, enclave.part? handle = some view → heap.view? handle = some view
  classes : ∀ handle id, enclave.class? handle = some id →
    ∃ view, heap.view? handle = some view ∧ view.descriptor.id = id
  arrays : ∀ handle view, heap.view? handle = some view → view.descriptor.id = .array →
    enclave.Outside handle → enclave.Clear heap .vector handle
  tables : ∀ handle view, heap.view? handle = some view → view.descriptor.id = .hashtable →
    enclave.Outside handle → enclave.Clear heap .array handle
  sane : ∀ handle view, heap.view? handle = some view → view.Sane

/-- The enclave stays guarded, and what is clear of it stays so. -/
structure Spared (heap next : Heap) : Prop where
  guarded : enclave.Guarded next
  clear : ∀ id handle, enclave.Clear heap id handle → enclave.Clear next id handle

/-- No array may be backed by a vector of the enclave, and no table by an array of the enclave. -/
def Harmless (view : View) (target : Handle) : Prop :=
  (view.descriptor.id = .array → ¬ enclave.Has target .vector) ∧
    (view.descriptor.id = .hashtable → ¬ enclave.Has target .array)

/-- Objects outside the enclave have changed.  What newly backs them is admissible. -/
def Changes (heap next : Heap) (admissible : View → Handle → Prop) : Prop :=
  ∀ handle view, next.view? handle = some view →
    heap.view? handle = some view ∨
      enclave.Outside handle ∧ view.Sane ∧
        (∀ old, heap.view? handle = some old → old.descriptor.id = view.descriptor.id) ∧
        ∀ target, view.ref storageOffset = some target →
          admissible view target ∨
            ∃ old, heap.view? handle = some old ∧ old.ref storageOffset = some target

variable {enclave}

/-- Nothing outside the enclave is a part of it. -/
theorem Outside.not_has {handle : Handle} (outside : enclave.Outside handle) (id : ClassId) :
    ¬ enclave.Has handle id := by
  rintro ⟨view, part, _⟩
  rw [outside] at part
  cases part

theorem Outside.harmless {handle : Handle} (outside : enclave.Outside handle) (view : View) :
    enclave.Harmless view handle :=
  ⟨fun _ => outside.not_has _, fun _ => outside.not_has _⟩

theorem Changes.mono {heap next : Heap} {first second : View → Handle → Prop}
    (changes : enclave.Changes heap next first)
    (weaker : ∀ view target, first view target → second view target) :
    enclave.Changes heap next second := by
  intro handle view seen
  rcases changes handle view seen with same | ⟨outside, sane, sameClass, backed⟩
  · exact Or.inl same
  · refine Or.inr ⟨outside, sane, sameClass, ?_⟩
    intro target refers
    rcases backed target refers with good | old
    · exact Or.inl (weaker view target good)
    · exact Or.inr old

section

variable {heap next : Heap} {admissible : View → Handle → Prop}

/-- The roots of a guarded enclave are live. -/
theorem Guarded.isLive_root (guarded : enclave.Guarded heap) {handle : Handle}
    (root : handle ∈ enclave.roots) : heap.isLive handle = true := by
  obtain ⟨view, part⟩ := Option.isSome_iff_exists.mp (enclave.rooted handle root)
  exact Heap.isLive_of_view (guarded.parts handle view part)

/-- What hangs on live roots is live. -/
theorem Guarded.isLive_of_hangs (guarded : enclave.Guarded heap)
    (changes : enclave.Changes heap next admissible) (sound : next.Sound)
    (live : ∀ handle ∈ enclave.roots, next.isLive handle = true) {handle : Handle}
    (hangs : Hangs enclave.roots enclave.part? handle) : next.isLive handle = true := by
  induction hangs with
  | root listed => exact live _ listed
  | @refers handle target view _ part refers ih =>
      obtain ⟨now, seen⟩ := sound.isLive_iff.mp ih
      rcases changes handle now seen with same | ⟨outside, _⟩
      · rw [guarded.parts handle view part] at same
        cases same
        exact Heap.isLive_of_refers seen refers
      · rw [outside] at part
        cases part

/-- An object outside an enclave stays clear of its parts where other objects change, if nothing
but a harmless part comes to back it. -/
theorem Clear.of_changes {handle : Handle} {view : View} {id : ClassId}
    (changes : enclave.Changes heap next enclave.Harmless) (seen : next.view? handle = some view)
    (outside : enclave.Outside handle)
    (before : ∀ old, heap.view? handle = some old → old.descriptor.id = view.descriptor.id →
      enclave.Clear heap id handle)
    (harmless : ∀ target, enclave.Harmless view target → ¬ enclave.Has target id) :
    enclave.Clear next id handle := by
  refine ⟨outside, ?_⟩
  intro again target here refers
  rw [seen] at here
  cases here
  rcases changes handle view seen with same | ⟨_, _, sameClass, backed⟩
  · exact (before view same rfl).backed view target same refers
  · rcases backed target refers with good | ⟨old, there, earlier⟩
    · exact harmless target good
    · exact (before old there (sameClass old there)).backed old target there earlier

/-- An enclave whose roots live stays guarded where only other objects change. -/
theorem Guarded.of_changes (guarded : enclave.Guarded heap)
    (changes : enclave.Changes heap next enclave.Harmless) (sound : next.Sound)
    (live : ∀ handle ∈ enclave.roots, next.isLive handle = true) : enclave.Guarded next := by
  have alive : ∀ handle, (enclave.part? handle).isSome ∨ (enclave.class? handle).isSome →
      ∃ view, next.view? handle = some view := fun handle member =>
    sound.isLive_iff.mp (guarded.isLive_of_hangs changes sound live (enclave.hangs handle member))
  constructor
  · intro handle view part
    obtain ⟨now, seen⟩ := alive handle (Or.inl (by rw [part]; rfl))
    rcases changes handle now seen with same | ⟨outside, _⟩
    · rw [guarded.parts handle view part] at same
      cases same
      exact seen
    · rw [outside] at part
      cases part
  · intro handle id known
    obtain ⟨now, seen⟩ := alive handle (Or.inr (by rw [known]; rfl))
    obtain ⟨old, before, sameId⟩ := guarded.classes handle id known
    rcases changes handle now seen with same | ⟨_, _, sameClass, _⟩
    · rw [before] at same
      cases same
      exact ⟨_, seen, sameId⟩
    · exact ⟨now, seen, (sameClass old before).symm.trans sameId⟩
  · intro handle view seen array outside
    exact Clear.of_changes changes seen outside
      (fun old there same => guarded.arrays handle old there (same.trans array) outside)
      fun _ harmless => harmless.1 array
  · intro handle view seen table outside
    exact Clear.of_changes changes seen outside
      (fun old there same => guarded.tables handle old there (same.trans table) outside)
      fun _ harmless => harmless.2 table
  · intro handle view seen
    rcases changes handle view seen with same | ⟨_, sane, _⟩
    · exact guarded.sane handle view same
    · exact sane

/-- Where no part comes to back another object, what is clear of the enclave stays so. -/
theorem Guarded.spared (guarded : enclave.Guarded heap)
    (changes : enclave.Changes heap next fun _ target => enclave.Outside target)
    (sound : next.Sound) (live : ∀ handle ∈ enclave.roots, next.isLive handle = true) :
    enclave.Spared heap next where
  guarded :=
    guarded.of_changes (changes.mono fun view _ outside => outside.harmless view) sound live
  clear id handle clear := by
    refine ⟨clear.outside, ?_⟩
    intro view target seen refers
    rcases changes handle view seen with same | ⟨_, _, _, backed⟩
    · exact clear.backed view target same refers
    · rcases backed target refers with outside | ⟨old, before, earlier⟩
      · exact outside.not_has id
      · exact clear.backed old target before earlier

end

theorem Spared.trans {heap middle next : Heap} (first : enclave.Spared heap middle)
    (second : enclave.Spared middle next) : enclave.Spared heap next where
  guarded := second.guarded
  clear id handle clear := second.clear id handle (first.clear id handle clear)

/-! ## Small changes -/

/-- Where the views are the same, nothing has changed. -/
theorem spared_of_views {heap next : Heap} (guarded : enclave.Guarded heap)
    (same : next.view? = heap.view?) : enclave.Spared heap next where
  guarded := by
    have clear : ∀ id handle, enclave.Clear next id handle ↔ enclave.Clear heap id handle := by
      intro id handle
      constructor
      · rintro ⟨outside, backed⟩
        exact ⟨outside, by rwa [same] at backed⟩
      · rintro ⟨outside, backed⟩
        exact ⟨outside, by rwa [← same] at backed⟩
    constructor
    · rw [same]
      exact guarded.parts
    · rw [same]
      exact guarded.classes
    · simp only [same, clear]
      exact guarded.arrays
    · simp only [same, clear]
      exact guarded.tables
    · rw [same]
      exact guarded.sane
  clear id handle clear := ⟨clear.outside, by rw [same]; exact clear.backed⟩

/-- Retaining all but what nothing keeps changes nothing but the new object. -/
theorem changes_of_retains {heap next : Heap} {new : Option Handle}
    (retains : heap.Retains next new) {admissible : View → Handle → Prop}
    (fresh : ∀ handle, some handle = new → heap.view? handle = none ∧ enclave.Outside handle ∧
      ∀ view, next.view? handle = some view → view.Sane ∧ view.ref storageOffset = none) :
    enclave.Changes heap next admissible := by
  intro handle view seen
  by_cases isNew : some handle = new
  · obtain ⟨unseen, outside, blank⟩ := fresh handle isNew
    obtain ⟨sane, unbacked⟩ := blank view seen
    refine Or.inr ⟨outside, sane, ?_, ?_⟩
    · intro old before
      rw [unseen] at before
      cases before
    · intro target refers
      rw [unbacked] at refers
      cases refers
  · exact Or.inl ((retains.view handle isNew (Heap.isLive_of_view seen)).symm.trans seen)

/-- Rewriting one object outside the enclave. -/
theorem changes_of_rewrites {heap next : Heap} {handle : Handle} {view changed : View}
    (rewrites : heap.Rewrites next handle changed) (seen : heap.view? handle = some view)
    (outside : enclave.Outside handle) (sameClass : view.descriptor.id = changed.descriptor.id)
    (sane : changed.Sane) {admissible : View → Handle → Prop}
    (backed : ∀ target, changed.ref storageOffset = some target →
      admissible changed target ∨ view.ref storageOffset = some target) :
    enclave.Changes heap next admissible := by
  intro other shown there
  rw [rewrites.view?] at there
  by_cases same : other = handle
  · subst same
    rw [Function.update_self] at there
    cases there
    refine Or.inr ⟨outside, sane, ?_, ?_⟩
    · intro old before
      rw [seen] at before
      cases before
      exact sameClass
    · intro target refers
      rcases backed target refers with good | earlier
      · exact Or.inl good
      · exact Or.inr ⟨view, seen, earlier⟩
  · rw [Function.update_of_ne same] at there
    exact Or.inl there

end Enclave

end CompactingHeap
