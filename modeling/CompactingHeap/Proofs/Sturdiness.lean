import CompactingHeap.Proofs.Faults
import CompactingHeap.Proofs.Freshness
import CompactingHeap.Proofs.Interning

/-!
# Sturdy programs

A program is sturdy if no run of it from a sound heap meets a fault.  Sturdy programs compose, and
the operations on objects, holds, roots, strings and arrays are sturdy, whatever handles they are
given.  Only an allocation relies on its caller, who must name a class that has been registered.
-/

namespace CompactingHeap

open Heap

/-- No run of the program from a sound heap meets a fault. -/
structure Sturdy {α : Type} (program : HeapM α) : Prop where
  tame : Tame program
  sure : ∀ heap, heap.Sound → (program.run heap).2.handles.slots < 2 ^ 32 →
    NoFault (program.run heap).1

namespace Sturdy

variable {α β : Type}

protected theorem pure (value : α) : Sturdy (pure value : HeapM α) where
  tame := Tame.pure value
  sure _ _ _ := NoFault.ok value

protected theorem throw {error : HeapError} (other : ∀ fault, error ≠ .fault fault) :
    Sturdy (throw error : HeapM α) where
  tame := Tame.throw error
  sure _ _ _ := NoFault.error other

protected theorem get : Sturdy (get : HeapM Heap) where
  tame := Tame.get
  sure heap _ _ := NoFault.ok heap

protected theorem ask {question : Heap → Except HeapError α}
    (sure : ∀ heap : Heap, heap.Sound → NoFault (question heap)) : Sturdy (HeapM.ask question) where
  tame := Tame.ask question
  sure heap sound _ := by
    rw [HeapM.run_ask]
    exact sure heap sound

/-- A change of the heap cannot fail. -/
protected theorem modify {change : Heap → Heap} (tame : Tame (modify change : HeapM PUnit)) :
    Sturdy (modify change : HeapM PUnit) where
  tame := tame
  sure heap _ _ := by
    rw [HeapM.run_modify]
    exact NoFault.ok _

/-- Sturdy programs may run one after the other. -/
protected theorem bind {first : HeapM α} {next : α → HeapM β} (sturdy : Sturdy first)
    (rest : ∀ value, Sturdy (next value)) : Sturdy (first >>= next) where
  tame := sturdy.tame.bind fun value => (rest value).tame
  sure heap sound bounded := by
    have before := sturdy.sure heap sound
    have middleSound := sturdy.tame.sound sound
    rw [HeapM.run_bind] at bounded ⊢
    rcases ran : first.run heap with ⟨error | value, middle⟩
    · rw [ran] at before bounded
      exact (before bounded).failed
    · rw [ran] at before bounded middleSound
      have small := Nat.lt_of_le_of_lt ((rest value).tame.grows middle) bounded
      exact (rest value).sure middle (middleSound small) bounded

/-- What follows an attempt may look at the outcome.  It need not stand up to a fault, since there
is none. -/
protected theorem attempt {program : HeapM α} {next : Except HeapError α → HeapM β}
    (sturdy : Sturdy program) (tame : ∀ outcome, Tame (next outcome))
    (rest : ∀ outcome, NoFault outcome → Sturdy (next outcome)) :
    Sturdy (HeapM.attempt program >>= next) where
  tame := sturdy.tame.attempt.bind tame
  sure heap sound bounded := by
    have sure := sturdy.sure heap sound
    have middleSound := sturdy.tame.sound sound
    rw [HeapM.run_bind, HeapM.run_attempt] at bounded ⊢
    dsimp only at bounded ⊢
    have small := Nat.lt_of_le_of_lt ((tame (program.run heap).1).grows _) bounded
    exact (rest _ (sure small)).sure _ (middleSound small) bounded

/-- A choice between sturdy programs is sturdy. -/
protected theorem ite {condition : Prop} [Decidable condition] {first second : HeapM α}
    (whenTrue : Sturdy first) (whenFalse : Sturdy second) :
    Sturdy (if condition then first else second) := by
  split
  · exact whenTrue
  · exact whenFalse

end Sturdy

namespace Heap

/-! ## Classes and collections -/

theorem sturdy_register (name : String) (size align : Nat) (trace : List TraceEntry)
    (byteTail : Bool) : Sturdy (register name size align trace byteTail) where
  tame := tame_register name size align trace byteTail
  sure heap _ _ := by
    have registers := heap.classes.noFault_register name size align trace byteTail
    unfold register
    rw [HeapM.run_bind, HeapM.run_get]
    dsimp only
    cases registered : heap.classes.register name size align trace byteTail with
    | error error =>
        rw [registered] at registers
        exact registers.failed
    | ok extended => exact NoFault.ok extended.1

/-- A collection fails for want of memory only. -/
theorem sturdy_collect : Sturdy collect where
  tame := tame_collect
  sure heap sound _ := by
    change NoFault heap.collectNow.1
    rcases sound.collectNow with ⟨finish, live, ran, _⟩ | ⟨size, allocator, ran, _⟩
    · rw [ran]
      exact NoFault.ok ()
    · rw [ran]
      exact NoFault.error nofun

/-! ## Fields -/

/-- A checked write meets no fault if the check meets none. -/
theorem sturdy_writeSlot {γ : Type} (check : Heap → Except HeapError γ) (offset : γ → Nat)
    (handle : γ → Handle) (value : Option Handle)
    (sure : ∀ heap : Heap, heap.Sound → NoFault (check heap)) :
    Sturdy (do
      let checked ← HeapM.ask check
      let target ← HeapM.ask fun heap => heap.addressOf value
      modify fun heap =>
        heap.modifyObject (handle checked)
          fun object => object.setSlot (offset checked) target) where
  tame := tame_writeSlot check offset handle value
  sure heap sound _ := by
    have checks := sure heap sound
    have resolves := @noFault_addressOf heap value
    rw [HeapM.run_bind, HeapM.run_ask]
    cases checked : check heap with
    | error error =>
        rw [checked] at checks
        exact checks.failed
    | ok found =>
        dsimp only
        rw [HeapM.run_bind, HeapM.run_ask]
        cases resolved : heap.addressOf value with
        | error error =>
            rw [resolved] at resolves
            exact resolves.failed
        | ok target =>
            dsimp only
            rw [HeapM.run_modify]
            exact NoFault.ok _

theorem sturdy_writeRef (handle : Handle) (offset : Nat) (value : Option Handle) :
    Sturdy (writeRef handle offset value) :=
  sturdy_writeSlot (fun heap => heap.withRefField handle offset) (fun _ => offset) (fun _ => handle)
    value fun _ sound => sound.noFault_withRefField handle offset

theorem sturdy_runSet (handle : Handle) (index : Nat) (value : Option Handle) :
    Sturdy (runSet handle index value) :=
  sturdy_writeSlot (fun heap => heap.runElement handle index) (fun checked => checked.2)
    (fun _ => handle) value fun _ sound => sound.noFault_runElement handle index

theorem sturdy_writeWord (handle : Handle) (offset : Nat) (value : UInt64) :
    Sturdy (writeWord handle offset value) where
  tame := tame_writeWord handle offset value
  sure heap sound _ := by
    have checks := sound.noFault_withDataWord handle offset
    unfold writeWord
    rw [HeapM.run_bind, HeapM.run_ask]
    cases checked : heap.withDataWord handle offset with
    | error error =>
        rw [checked] at checks
        exact checks.failed
    | ok object =>
        dsimp only
        rw [HeapM.run_modify]
        exact NoFault.ok _

theorem sturdy_writePair (cell : Handle) (offset : Nat) (value : Option Handle) :
    Sturdy (writePair cell offset value) := by
  unfold writePair
  apply (Sturdy.ask fun _ sound => sound.noFault_expect cell rfl).bind
  intro _
  exact sturdy_writeRef cell offset value

theorem sturdy_copyRun (source target : Handle) (count : Nat) :
    Sturdy (copyRun source target count) where
  tame := tame_copyRun source target count
  sure heap sound _ := by
    have sources := sound.noFault_runOf source
    have targets := sound.noFault_runOf target
    unfold copyRun
    rw [HeapM.run_bind, HeapM.run_ask]
    cases sourceRun : heap.runOf source with
    | error error =>
        rw [sourceRun] at sources
        exact sources.failed
    | ok sourceFound =>
        dsimp only
        rw [HeapM.run_bind, HeapM.run_ask]
        cases targetRun : heap.runOf target with
        | error error =>
            rw [targetRun] at targets
            exact targets.failed
        | ok targetFound =>
            dsimp only
            split
            · exact NoFault.error nofun
            · rw [HeapM.run_modify]
              exact NoFault.ok _

/-! ## Holds and roots -/

theorem sturdy_retain (handle : Handle) : Sturdy (retain handle) := by
  unfold retain
  apply Sturdy.get.bind
  intro heap
  refine (Sturdy.pure ()).ite ⟨tame_onHandles_retain handle, ?_⟩
  intro heap _ _
  rw [run_onHandles]
  exact heap.handles.noFault_retain handle

theorem sturdy_onHandles_release (handle : Handle) :
    Sturdy (onHandles fun handles => handles.release handle) where
  tame := tame_onHandles_release handle
  sure heap _ _ := by
    rw [run_onHandles]
    exact heap.handles.noFault_release handle

theorem sturdy_release (handle : Handle) : Sturdy (release handle) := by
  unfold release
  apply Sturdy.get.bind
  intro heap
  exact (Sturdy.pure ()).ite (sturdy_onHandles_release handle)

theorem sturdy_releaseAll (handles : List Handle) : Sturdy (releaseAll handles) := by
  induction handles with
  | nil => exact Sturdy.pure ()
  | cons handle rest ih => exact (sturdy_release handle).bind fun _ => ih

theorem sturdy_retainAfter (taken handles : List Handle) : Sturdy (retainAfter taken handles) := by
  induction handles generalizing taken with
  | nil => exact Sturdy.pure ()
  | cons handle rest ih =>
      unfold retainAfter
      apply (sturdy_retain handle).attempt
      · intro outcome
        cases outcome with
        | ok value => exact tame_retainAfter (taken ++ [handle]) rest
        | error error => exact (tame_releaseAll taken).bind fun _ => Tame.throw error
      · intro outcome sure
        cases outcome with
        | ok value => exact ih (taken ++ [handle])
        | error error =>
            exact (sturdy_releaseAll taken).bind fun _ => Sturdy.throw sure.ne

/-- Holding objects while a sturdy program runs is sturdy. -/
theorem sturdy_withHeld {γ : Type} (handles : List Handle) {body : HeapM γ} (sturdy : Sturdy body) :
    Sturdy (withHeld handles body) := by
  unfold withHeld
  apply (sturdy_retainAfter [] handles).bind
  intro _
  apply sturdy.attempt
  · intro outcome
    cases outcome with
    | ok value => exact (tame_releaseAll handles).bind fun _ => Tame.pure value
    | error error => exact (tame_releaseAll handles).bind fun _ => Tame.throw error
  · intro outcome sure
    cases outcome with
    | ok value => exact (sturdy_releaseAll handles).bind fun _ => Sturdy.pure value
    | error error => exact (sturdy_releaseAll handles).bind fun _ => Sturdy.throw sure.ne

theorem sturdy_registerRoot (source : RootSource) (handle : Handle) :
    Sturdy (registerRoot source handle) where
  tame := tame_registerRoot source handle
  sure heap _ _ := by
    have resolves := heap.handles.noFault_resolve handle
    unfold registerRoot
    rw [HeapM.run_bind, HeapM.run_ask]
    cases resolved : heap.handles.resolve handle with
    | error error =>
        rw [resolved] at resolves
        exact resolves.failed
    | ok address =>
        dsimp only
        rw [HeapM.run_modify]
        exact NoFault.ok _

theorem sturdy_unregisterRoot (source : RootSource) (handle : Handle) :
    Sturdy (unregisterRoot source handle) where
  tame := tame_unregisterRoot source handle
  sure heap _ _ := by
    unfold unregisterRoot
    rw [HeapM.run_bind, HeapM.run_get]
    dsimp only
    split
    · exact NoFault.ok _
    · exact NoFault.error nofun

theorem sturdy_unregisterSource (source : RootSource) : Sturdy (unregisterSource source) where
  tame := tame_unregisterSource source
  sure _ _ _ := NoFault.ok _

theorem sturdy_addScanner (report : List Handle) : Sturdy (addScanner report) where
  tame := tame_addScanner report
  sure _ _ _ := NoFault.ok _

theorem sturdy_setReport (id : ScannerId) (report : List Handle) : Sturdy (setReport id report) :=
  Sturdy.modify (tame_setReport id report)

theorem sturdy_removeScanner (id : ScannerId) : Sturdy (removeScanner id) where
  tame := tame_removeScanner id
  sure heap _ _ := by
    unfold removeScanner
    rw [HeapM.run_bind, HeapM.run_get]
    dsimp only
    split
    · exact NoFault.ok _
    · exact NoFault.ok _

/-! ## Allocations -/

/-- What an allocation does is to place an object or to run out of memory. -/
theorem Allocating.noFault {heap : Heap} {view : View} {outcome : Except HeapError Handle × Heap}
    (allocating : heap.Allocating view outcome) : NoFault outcome.1 := by
  cases allocating with
  | placed _ => exact NoFault.ok _
  | refused _ => exact NoFault.error nofun

/-- Allocating an instance of a registered class. -/
theorem Sound.noFault_allocate {heap : Heap} (sound : heap.Sound) {id : ClassId}
    {descriptor : Descriptor} (known : heap.classes.get id = .ok descriptor) (extra : Nat)
    (bounded : ((allocate id extra).run heap).2.handles.slots < 2 ^ 32) :
    NoFault ((allocate id extra).run heap).1 :=
  (sound.allocating known extra bounded).noFault

/-- Allocating an instance of a registered class with given bytes. -/
theorem Sound.noFault_allocateBytes {heap : Heap} (sound : heap.Sound) {id : ClassId}
    {descriptor : Descriptor} (known : heap.classes.get id = .ok descriptor) (bytes : Bytes)
    (bounded : ((allocateBytes id bytes).run heap).2.handles.slots < 2 ^ 32) :
    NoFault ((allocateBytes id bytes).run heap).1 := by
  by_cases tail : descriptor.tail = .bytes
  · exact (sound.allocating_bytes known tail bytes bounded).noFault
  · rw [run_allocateBytes known, if_neg tail]
    exact NoFault.error nofun

/-- The classes that every heap offers are registered. -/
theorem sturdy_allocate {id : ClassId} {descriptor : Descriptor}
    (builtin : Registry.initial.classes[id.index]? = some descriptor) (extra : Nat) :
    Sturdy (allocate id extra) where
  tame := tame_allocate id extra
  sure _ sound bounded := sound.noFault_allocate (sound.get_builtin builtin) extra bounded

theorem sturdy_allocScalar {id : ClassId}
    (scalar : id ∈ [ClassId.int, ClassId.float, ClassId.bool, ClassId.char]) (word : UInt64) :
    Sturdy (allocScalar id word) where
  tame := tame_allocScalar scalar word
  sure _ sound bounded := by
    obtain ⟨_, _, _, allocating⟩ := sound.allocating_scalar scalar word bounded
    exact allocating.noFault

theorem sturdy_allocString (bytes : Bytes) : Sturdy (allocString bytes) where
  tame := tame_allocateBytes .string bytes
  sure _ sound bounded := sound.noFault_allocateBytes (sound.get_builtin rfl) bytes bounded

theorem sturdy_cons (car cdr : Option Handle) : Sturdy (cons car cdr) := by
  unfold cons
  apply (sturdy_withHeld _ (sturdy_allocate rfl 0)).bind
  intro cell
  apply (sturdy_writeRef cell 0 car).bind
  intro _
  apply (sturdy_writeRef cell wordBytes cdr).bind
  intro _
  exact Sturdy.pure cell

/-! ## Interned strings -/

theorem sturdy_intern (bytes : Bytes) : Sturdy (intern bytes) where
  tame := tame_intern bytes
  sure heap sound bounded := by
    have publishes := sound.publishes bytes bounded
    generalize (intern bytes).run heap = outcome at publishes
    cases publishes with
    | found _ => exact NoFault.ok _
    | published _ _ _ _ => exact NoFault.ok _
    | refused _ _ => exact NoFault.error nofun

theorem sturdy_qualify (scope name : Handle) : Sturdy (qualify scope name) := by
  unfold qualify
  apply Sturdy.get.bind
  intro heap
  split
  · exact Sturdy.pure _
  · apply (Sturdy.ask fun _ sound => sound.noFault_internedBytes scope).bind
    intro scopeBytes
    apply (Sturdy.ask fun _ sound => sound.noFault_internedBytes name).bind
    intro nameBytes
    apply (sturdy_intern _).bind
    intro qualified
    exact (Sturdy.modify (tame_compose scope name qualified)).bind fun _ => Sturdy.pure qualified

theorem sturdy_qualifyFrom (scope : Handle) (segments : List Bytes) :
    Sturdy (qualifyFrom scope segments) := by
  induction segments generalizing scope with
  | nil => exact Sturdy.pure scope
  | cons segment rest ih =>
      unfold qualifyFrom
      apply (sturdy_intern segment).bind
      intro name
      apply (sturdy_qualify scope name).bind
      intro qualified
      exact ih qualified

theorem sturdy_qualifyPath (segments : List Bytes) : Sturdy (qualifyPath segments) := by
  cases segments with
  | nil => exact Sturdy.throw nofun
  | cons first rest =>
      unfold qualifyPath
      exact (sturdy_intern first).bind fun scope => sturdy_qualifyFrom scope rest

end Heap

namespace RefArray

/-! ## Arrays -/

theorem sturdy_orRelease {γ : Type} (handle : Handle) {rest : HeapM γ} (sturdy : Sturdy rest) :
    Sturdy (orRelease handle rest) := by
  unfold orRelease
  apply sturdy.attempt
  · intro outcome
    cases outcome with
    | ok value => exact Tame.pure value
    | error error => exact (tame_release handle).bind fun _ => Tame.throw error
  · intro outcome sure
    cases outcome with
    | ok value => exact Sturdy.pure value
    | error error => exact (sturdy_release handle).bind fun _ => Sturdy.throw sure.ne

theorem sturdy_furnish (array : RefArray) (capacity : Nat) (backing : Handle) :
    Sturdy (array.furnish capacity backing) := by
  apply (sturdy_writeWord array.handle capacityOffset capacity.toUInt64).bind
  intro _
  apply Sturdy.bind
  · exact (sturdy_writeRef array.handle backingOffset (some backing)).bind
      fun _ => sturdy_release backing
  · exact fun _ => Sturdy.pure array

theorem sturdy_withCapacity (capacity : Nat) : Sturdy (withCapacity capacity) := by
  rw [withCapacity_eq]
  apply (sturdy_allocate rfl 0).bind
  intro handle
  apply Sturdy.ite
  · exact Sturdy.pure _
  · apply (sturdy_orRelease handle (sturdy_withHeld [handle] (sturdy_allocate rfl capacity))).bind
    intro backing
    exact sturdy_furnish ⟨handle⟩ capacity backing

theorem sturdy_filled (length : Nat) : Sturdy (filled length) := by
  unfold filled
  apply (sturdy_withCapacity length).bind
  intro array
  exact (sturdy_writeWord array.handle lengthOffset length.toUInt64).bind fun _ => Sturdy.pure array

theorem sturdy_set (array : RefArray) (index : Nat) (value : Option Handle) :
    Sturdy (array.set index value) :=
  (Sturdy.ask fun _ sound => noFault_backingAt sound array index).bind
    fun backing => sturdy_runSet backing index value

/-- The words of an array can be read. -/
theorem sturdy_askWord (handle : Handle) (offset : Nat) :
    Sturdy (HeapM.ask fun heap => heap.readWord handle offset) :=
  Sturdy.ask fun _ sound => sound.noFault_readWord handle offset

theorem sturdy_askBacking (array : RefArray) : Sturdy (HeapM.ask array.backing) :=
  Sturdy.ask fun _ sound => noFault_backing sound array

theorem sturdy_install (array : RefArray) (capacity : UInt64) (grown : Handle) :
    Sturdy (array.install capacity grown) := by
  apply (sturdy_writeRef array.handle backingOffset (some grown)).bind
  intro _
  apply (sturdy_writeWord array.handle capacityOffset capacity).bind
  intro _
  apply (sturdy_release grown).bind
  intro _
  exact Sturdy.modify (tame_count Counters.aside_arrayReallocations)

theorem sturdy_grow (array : RefArray) (length : UInt64) : Sturdy (array.grow length) := by
  rw [grow_eq]
  apply (sturdy_askWord array.handle capacityOffset).bind
  intro oldCapacity
  apply (sturdy_allocate rfl _).bind
  intro grown
  apply Sturdy.ite
  · apply array.sturdy_askBacking.bind
    intro old
    apply (sturdy_copyRun old grown length.toNat).bind
    intro _
    exact array.sturdy_install _ grown
  · exact array.sturdy_install _ grown

theorem sturdy_append (array : RefArray) (length : UInt64) (value : Option Handle) :
    Sturdy (array.append length value) := by
  apply array.sturdy_askBacking.bind
  intro backing
  apply (sturdy_runSet backing length.toNat value).bind
  intro _
  exact sturdy_writeWord array.handle lengthOffset (length + 1)

theorem sturdy_push (array : RefArray) (value : Option Handle) : Sturdy (array.push value) := by
  rw [push_eq]
  apply (sturdy_askWord array.handle lengthOffset).bind
  intro length
  apply (sturdy_askWord array.handle capacityOffset).bind
  intro capacity
  apply Sturdy.ite
  · exact (sturdy_withHeld _ (array.sturdy_grow length)).bind
      fun _ => array.sturdy_append length value
  · exact array.sturdy_append length value

theorem sturdy_pop (array : RefArray) : Sturdy array.pop := by
  unfold pop
  apply (sturdy_askWord array.handle lengthOffset).bind
  intro length
  apply Sturdy.ite
  · exact Sturdy.throw nofun
  · apply array.sturdy_askBacking.bind
    intro backing
    apply (Sturdy.ask fun _ sound => sound.noFault_runGet backing _).bind
    intro value
    apply (sturdy_runSet backing _ none).bind
    intro _
    exact (sturdy_writeWord array.handle lengthOffset _).bind fun _ => Sturdy.pure value

theorem sturdy_eraseFrom (backing : Handle) (index count : Nat) :
    Sturdy (eraseFrom backing index count) := by
  induction count generalizing index with
  | zero => exact Sturdy.pure ()
  | succ count ih =>
      unfold eraseFrom
      exact (sturdy_runSet backing index none).bind fun _ => ih (index + 1)

theorem sturdy_clear (array : RefArray) : Sturdy array.clear := by
  unfold clear
  apply (Sturdy.ask fun _ sound => noFault_length sound array).bind
  intro length
  apply Sturdy.ite
  · apply array.sturdy_askBacking.bind
    intro backing
    apply (sturdy_eraseFrom backing 0 length).bind
    intro _
    exact sturdy_writeWord array.handle lengthOffset 0
  · exact sturdy_writeWord array.handle lengthOffset 0

end RefArray

namespace RefTable

/-! ## New tables -/

theorem sturdy_withCapacity (capacity : Nat) : Sturdy (withCapacity capacity) := by
  rw [withCapacity_eq]
  apply Sturdy.ite
  · exact Sturdy.get.bind fun heap => Sturdy.throw nofun
  · apply (sturdy_allocate rfl 0).bind
    intro handle
    apply (RefArray.sturdy_orRelease handle
      (sturdy_withHeld [handle] (RefArray.sturdy_filled _))).bind
    intro buckets
    apply (sturdy_writeWord handle capacityOffset _).bind
    intro _
    apply (sturdy_writeRef handle bucketsOffset (some buckets.handle)).bind
    intro _
    exact (sturdy_release buckets.handle).bind fun _ => Sturdy.pure _

theorem sturdy_new : Sturdy new :=
  Sturdy.get.bind fun heap => sturdy_withCapacity heap.config.tableInitialCapacity

end RefTable

end CompactingHeap
