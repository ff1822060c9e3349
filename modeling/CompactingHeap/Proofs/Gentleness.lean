import CompactingHeap.Proofs.Exhaustion

/-!
# Programs that leave the slabs alone

Apart from a collection, only an allocation does anything to the slabs of a heap.  A program is
gentle if no run of it disturbs them.  What does not allocate is gentle, and a program that
allocates a single object does to the slabs what reserving room for the object does.
-/

namespace CompactingHeap

namespace Heap

/-! ## Programs that leave the slabs alone -/

/-- The slabs, the threshold and the bytes that survived the last collection are as they were. -/
structure Undisturbed (heap next : Heap) : Prop where
  slabs : next.space.slabs = heap.space.slabs
  threshold : next.threshold = heap.threshold
  liveBytes : next.counters.liveBytes = heap.counters.liveBytes

theorem Undisturbed.refl (heap : Heap) : heap.Undisturbed heap :=
  ⟨rfl, rfl, rfl⟩

theorem Undisturbed.trans {heap middle next : Heap} (first : heap.Undisturbed middle)
    (second : middle.Undisturbed next) : heap.Undisturbed next :=
  ⟨second.slabs.trans first.slabs, second.threshold.trans first.threshold,
    second.liveBytes.trans first.liveBytes⟩

/-- No run of the program disturbs the slabs. -/
def Gentle {α : Type} (program : HeapM α) : Prop :=
  ∀ heap : Heap, heap.Undisturbed (program.run heap).2

namespace Gentle

variable {α β : Type}

/-- A program that leaves the heap alone is gentle. -/
theorem of_unchanged {program : HeapM α} (unchanged : ∀ heap : Heap, (program.run heap).2 = heap) :
    Gentle program := by
  intro heap
  rw [unchanged]
  exact Undisturbed.refl heap

protected theorem pure (value : α) : Gentle (pure value : HeapM α) :=
  of_unchanged fun _ => rfl

protected theorem get : Gentle (get : HeapM Heap) :=
  of_unchanged fun _ => rfl

protected theorem ask (question : Heap → Except HeapError α) : Gentle (HeapM.ask question) :=
  of_unchanged fun heap => by rw [HeapM.run_ask]

protected theorem modify {change : Heap → Heap}
    (undisturbed : ∀ heap : Heap, heap.Undisturbed (change heap)) :
    Gentle (modify change : HeapM PUnit) := by
  intro heap
  rw [HeapM.run_modify]
  exact undisturbed heap

/-- What comes after a program disturbs nothing further. -/
theorem after (first : HeapM α) {next : α → HeapM β} (gentle : ∀ value, Gentle (next value))
    (heap : Heap) : (first.run heap).2.Undisturbed ((first >>= next).run heap).2 := by
  rw [HeapM.run_bind]
  rcases first.run heap with ⟨error | value, middle⟩
  · exact Undisturbed.refl middle
  · exact gentle value middle

protected theorem bind {first : HeapM α} {next : α → HeapM β} (gentle : Gentle first)
    (rest : ∀ value, Gentle (next value)) : Gentle (first >>= next) :=
  fun heap => (gentle heap).trans (after first rest heap)

protected theorem ite {condition : Prop} [Decidable condition] {first second : HeapM α}
    (whenTrue : Gentle first) (whenFalse : Gentle second) :
    Gentle (if condition then first else second) := by
  split
  · exact whenTrue
  · exact whenFalse

end Gentle

/-- A change of an object leaves its slab. -/
theorem gentle_modifyObject (handle : Handle) (f : HeapObject → HeapObject) :
    Gentle (modify fun heap : Heap => heap.modifyObject handle f) :=
  Gentle.modify fun heap => by
    unfold modifyObject
    split
    · exact ⟨Space.slabs_modify _ _ _, rfl, rfl⟩
    · exact Undisturbed.refl heap

theorem gentle_onHandles {α : Type}
    (operation : HandleTable Address → Except HeapError α × HandleTable Address) :
    Gentle (onHandles operation) := by
  intro heap
  rw [run_onHandles]
  exact ⟨rfl, rfl, rfl⟩

theorem gentle_writeRef (handle : Handle) (offset : Nat) (value : Option Handle) :
    Gentle (writeRef handle offset value) := by
  unfold writeRef
  apply (Gentle.ask _).bind
  intro _
  exact (Gentle.ask _).bind fun _ => gentle_modifyObject handle _

theorem gentle_writePair (cell : Handle) (offset : Nat) (value : Option Handle) :
    Gentle (writePair cell offset value) := by
  unfold writePair
  exact (Gentle.ask _).bind fun _ => gentle_writeRef cell offset value

/-- An object settles on room that is reserved already. -/
theorem gentle_settle (place : Place) (object : HeapObject) : Gentle (settle place object) := by
  intro heap
  rw [run_settle]
  split <;> exact ⟨rfl, rfl, rfl⟩

/-- The operations that neither allocate nor collect. -/
inductive Idle : {α : Type} → HeapM α → Prop
  | ask {α : Type} (question : Heap → Except HeapError α) : Idle (HeapM.ask question)
  | register (name : String) (size align : Nat) (trace : List TraceEntry) (byteTail : Bool) :
      Idle (register name size align trace byteTail)
  | setCar (cell : Handle) (value : Option Handle) : Idle (setCar cell value)
  | setCdr (cell : Handle) (value : Option Handle) : Idle (setCdr cell value)
  | writeRef (handle : Handle) (offset : Nat) (value : Option Handle) :
      Idle (writeRef handle offset value)
  | writeWord (handle : Handle) (offset : Nat) (value : UInt64) :
      Idle (writeWord handle offset value)
  | runSet (handle : Handle) (index : Nat) (value : Option Handle) :
      Idle (runSet handle index value)
  | retain (handle : Handle) : Idle (retain handle)
  | release (handle : Handle) : Idle (release handle)
  | registerRoot (source : RootSource) (handle : Handle) : Idle (registerRoot source handle)
  | unregisterRoot (source : RootSource) (handle : Handle) : Idle (unregisterRoot source handle)
  | unregisterSource (source : RootSource) : Idle (unregisterSource source)
  | addScanner (report : List Handle) : Idle (addScanner report)
  | setReport (id : ScannerId) (report : List Handle) : Idle (setReport id report)
  | removeScanner (id : ScannerId) : Idle (removeScanner id)

theorem Idle.operation {α : Type} {program : HeapM α} (idle : Idle program) :
    Operation program := by
  cases idle with
  | ask question => exact Operation.ask question
  | register name size align trace byteTail =>
      exact Operation.register name size align trace byteTail
  | setCar cell value => exact Operation.setCar cell value
  | setCdr cell value => exact Operation.setCdr cell value
  | writeRef handle offset value => exact Operation.writeRef handle offset value
  | writeWord handle offset value => exact Operation.writeWord handle offset value
  | runSet handle index value => exact Operation.runSet handle index value
  | retain handle => exact Operation.retain handle
  | release handle => exact Operation.release handle
  | registerRoot source handle => exact Operation.registerRoot source handle
  | unregisterRoot source handle => exact Operation.unregisterRoot source handle
  | unregisterSource source => exact Operation.unregisterSource source
  | addScanner report => exact Operation.addScanner report
  | setReport id report => exact Operation.setReport id report
  | removeScanner id => exact Operation.removeScanner id

/-- What neither allocates nor collects is gentle. -/
theorem Idle.gentle {α : Type} {program : HeapM α} (idle : Idle program) : Gentle program := by
  cases idle with
  | ask question => exact Gentle.ask question
  | register name size align trace byteTail =>
      intro heap
      unfold Heap.register
      rw [HeapM.run_bind, HeapM.run_get]
      dsimp only
      split <;> exact ⟨rfl, rfl, rfl⟩
  | setCar cell value => exact gentle_writePair cell 0 value
  | setCdr cell value => exact gentle_writePair cell wordBytes value
  | writeRef handle offset value => exact gentle_writeRef handle offset value
  | writeWord handle offset value =>
      unfold Heap.writeWord
      exact (Gentle.ask _).bind fun _ => gentle_modifyObject handle _
  | runSet handle index value =>
      unfold Heap.runSet
      apply (Gentle.ask _).bind
      intro element
      exact (Gentle.ask _).bind fun _ => gentle_modifyObject handle _
  | retain handle =>
      unfold Heap.retain
      exact Gentle.get.bind fun _ => (Gentle.pure ()).ite (gentle_onHandles _)
  | release handle =>
      unfold Heap.release
      exact Gentle.get.bind fun _ => (Gentle.pure ()).ite (gentle_onHandles _)
  | registerRoot source handle =>
      unfold Heap.registerRoot
      exact (Gentle.ask _).bind fun _ => Gentle.modify fun _ => ⟨rfl, rfl, rfl⟩
  | unregisterRoot source handle =>
      intro heap
      unfold Heap.unregisterRoot
      rw [HeapM.run_bind, HeapM.run_get]
      dsimp only
      split <;> exact ⟨rfl, rfl, rfl⟩
  | unregisterSource source => exact fun heap => ⟨rfl, rfl, rfl⟩
  | addScanner report => exact fun heap => ⟨rfl, rfl, rfl⟩
  | setReport id report => exact Gentle.modify fun _ => ⟨rfl, rfl, rfl⟩
  | removeScanner id =>
      intro heap
      unfold Heap.removeScanner
      rw [HeapM.run_bind, HeapM.run_get]
      dsimp only
      split <;> exact ⟨rfl, rfl, rfl⟩

/-! ## Programs that allocate one object -/

/-- The layout of an instance of a class with `extra` tail elements, if there can be one. -/
def layoutFor? (heap : Heap) (id : ClassId) (extra : Nat) : Option Layout :=
  match heap.classes.get id with
  | .ok descriptor => Layout.of? descriptor extra
  | .error _ => none

/-- The programs that allocate one object, an instance of a class with `extra` tail elements. -/
inductive AllocatesOne : ClassId → Nat → HeapM Handle → Prop
  | allocate (id : ClassId) (extra : Nat) : AllocatesOne id extra (allocate id extra)
  | allocateBytes (id : ClassId) (bytes : Bytes) :
      AllocatesOne id bytes.length (allocateBytes id bytes)
  | allocInt (value : Int64) : AllocatesOne .int 0 (allocInt value)
  | allocFloat (bits : UInt64) : AllocatesOne .float 0 (allocFloat bits)
  | allocBool (value : Bool) : AllocatesOne .bool 0 (allocBool value)
  | allocChar (value : Char) : AllocatesOne .char 0 (allocChar value)
  | allocString (bytes : Bytes) : AllocatesOne .string bytes.length (allocString bytes)
  | allocVector (length : Nat) : AllocatesOne .vector length (allocVector length)
  | cons : AllocatesOne .cons 0 (cons none none)

theorem AllocatesOne.operation {id : ClassId} {extra : Nat} {program : HeapM Handle}
    (allocates : AllocatesOne id extra program) : Operation program := by
  cases allocates with
  | allocate => exact Operation.allocate id extra
  | allocateBytes _ bytes => exact Operation.allocateBytes id bytes
  | allocInt value => exact Operation.allocInt value
  | allocFloat bits => exact Operation.allocFloat bits
  | allocBool value => exact Operation.allocBool value
  | allocChar value => exact Operation.allocChar value
  | allocString bytes => exact Operation.allocString bytes
  | allocVector => exact Operation.allocVector extra
  | cons => exact Operation.cons none none

/-- Holding nothing changes nothing. -/
theorem run_withHeld_nil {α : Type} (body : HeapM α) (heap : Heap) :
    (withHeld [] body).run heap = body.run heap := by
  unfold withHeld retainAll retainAfter releaseAll
  rw [HeapM.run_bind, HeapM.run_pure]
  dsimp only
  rw [HeapM.run_bind, HeapM.run_attempt]
  rcases body.run heap with ⟨_ | _, _⟩ <;> rfl

/-- Writing the word of a scalar is gentle. -/
theorem undisturbed_allocScalar (id : ClassId) (word : UInt64) (heap : Heap) :
    ((allocate id 0).run heap).2.Undisturbed ((allocScalar id word).run heap).2 := by
  unfold allocScalar
  exact Gentle.after _ (fun handle =>
    (gentle_modifyObject handle _).bind fun _ => Gentle.pure handle)
    heap

/-- Writing the byte tail is gentle, and an instance of a class without one is refused. -/
theorem undisturbed_allocateBytes (id : ClassId) (bytes : Bytes) (heap : Heap) :
    heap.Undisturbed ((allocateBytes id bytes).run heap).2 ∨
      ((allocate id bytes.length).run heap).2.Undisturbed
        ((allocateBytes id bytes).run heap).2 := by
  unfold allocateBytes
  rw [HeapM.run_bind, HeapM.run_ask]
  split
  · next descriptor middle asked =>
    obtain ⟨_, rfl⟩ := Prod.mk.inj asked
    split
    · exact Or.inr (Gentle.after _
        (fun handle => (gentle_modifyObject handle _).bind fun _ => Gentle.pure handle) heap)
    · exact Or.inl (Undisturbed.refl heap)
  · next error middle asked =>
    obtain ⟨_, rfl⟩ := Prod.mk.inj asked
    exact Or.inl (Undisturbed.refl heap)

/-- A program that allocates one object either leaves the slabs alone or leaves them as the
allocation does. -/
theorem AllocatesOne.undisturbed {id : ClassId} {extra : Nat} {program : HeapM Handle}
    (allocates : AllocatesOne id extra program) (heap : Heap) :
    heap.Undisturbed (program.run heap).2 ∨
      ((Heap.allocate id extra).run heap).2.Undisturbed (program.run heap).2 := by
  cases allocates with
  | allocate => exact Or.inr (Undisturbed.refl _)
  | allocateBytes _ bytes => exact undisturbed_allocateBytes id bytes heap
  | allocInt value => exact Or.inr (undisturbed_allocScalar .int _ heap)
  | allocFloat bits => exact Or.inr (undisturbed_allocScalar .float _ heap)
  | allocBool value => exact Or.inr (undisturbed_allocScalar .bool _ heap)
  | allocChar value => exact Or.inr (undisturbed_allocScalar .char _ heap)
  | allocString bytes => exact undisturbed_allocateBytes .string bytes heap
  | allocVector => exact Or.inr (Undisturbed.refl _)
  | cons =>
      have writes : ∀ cell, Gentle (do
          writeRef cell 0 none
          writeRef cell wordBytes none
          return cell : HeapM Handle) := fun cell =>
        (gentle_writeRef cell 0 none).bind fun _ =>
          (gentle_writeRef cell wordBytes none).bind fun _ => Gentle.pure cell
      have held := Gentle.after (withHeld [] (Heap.allocate .cons 0)) writes heap
      rw [run_withHeld_nil] at held
      exact Or.inr held

/-- A program that allocates one object either leaves the slabs alone or leaves them as reserving
room for the layout does. -/
theorem AllocatesOne.follows_reserve {id : ClassId} {extra : Nat} {program : HeapM Handle}
    (allocates : AllocatesOne id extra program) (heap : Heap) :
    heap.Undisturbed (program.run heap).2 ∨
      ∃ layout ∈ heap.layoutFor? id extra,
        ((reserve layout).run heap).2.Undisturbed (program.run heap).2 := by
  rcases allocates.undisturbed heap with untouched | follows
  · exact Or.inl untouched
  · cases known : heap.classes.get id with
    | error error =>
        have fails : (Heap.allocate id extra).run heap = (.error error, heap) := by
          unfold Heap.allocate
          rw [HeapM.run_bind, HeapM.run_ask, known]
        rw [fails] at follows
        exact Or.inl follows
    | ok descriptor =>
        rcases run_allocate known extra with ⟨_, fails⟩ | ⟨layout, laidOut, sized, ran⟩
        · rw [fails] at follows
          exact Or.inl follows
        · rw [ran] at follows
          refine Or.inr ⟨layout, by rw [layoutFor?, known]; exact sized, ?_⟩
          exact (Gentle.after _ (fun place => gentle_settle place _) heap).trans follows

end Heap

end CompactingHeap
