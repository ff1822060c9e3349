import CompactingHeap.Proofs.Counts
import CompactingHeap.Proofs.OwnedArrays
import CompactingHeap.Proofs.Stores

/-!
# Growing arrays are counted

An array grows in a push that finds it full, and nowhere else.  Whatever object the array is and
whatever becomes of the push, either its capacity has been doubled and one growth has been counted,
or the capacity is as it was and none has.  A push that runs out of memory is of the second kind.
The count of growths is therefore the length of the log that a history of the heap keeps of them.
-/

namespace CompactingHeap

open Heap

/-! ## Words that stay -/

namespace Heap

variable {heap next : Heap}

/-- A word reads alike where the object looks alike. -/
theorem readWord_congr (sound : heap.Sound) (nextSound : next.Sound) {handle : Handle}
    (same : next.view? handle = heap.view? handle) (offset : Nat) :
    next.readWord handle offset = heap.readWord handle offset := by
  cases seen : heap.view? handle with
  | none =>
      unfold Heap.readWord withDataWord
      rw [sound.objectOf_stale seen, nextSound.objectOf_stale (same.trans seen)]
  | some view => rw [readWord_of_view seen, readWord_of_view (same.trans seen)]

/-- Where a word can be read there is an object. -/
theorem exists_view_of_readWord {handle : Handle} {offset : Nat} {word : UInt64}
    (read : heap.readWord handle offset = .ok word) :
    ∃ view, heap.view? handle = some view ∧ view.descriptor.isDataWord offset = true := by
  cases found : heap.objectOf handle with
  | error error =>
      unfold Heap.readWord withDataWord at read
      rw [found] at read
      cases read
  | ok object =>
      have seen := view?_eq_some_iff.mpr ⟨object, found, rfl⟩
      refine ⟨_, seen, ?_⟩
      rw [readWord_of_view seen] at read
      by_contra plain
      rw [if_neg plain] at read
      cases read

section

variable {target : Handle} {allowed : View → Prop} {change : View → View} {program : HeapM PUnit}
  (writing : heap.Writing target allowed change (program.run heap)) {writes : Site → Prop}
  (agrees : ∀ view, allowed view → view.Agrees writes (change view))

include writing agrees

/-- A write that agrees with what was there alters its target at most. -/
theorem Writing.alters (tame : Tame program) : heap.Alters (program.run heap).2 [target] := by
  generalize ran : program.run heap = result at writing
  cases writing with
  | written seen allows rewrites =>
      exact rewrites.alters tame ran seen (agrees _ allows).descriptor
  | refused _ => exact (Alters.refl heap).mono (List.nil_subset _)

/-- A word of the target that is not written reads as before. -/
theorem Writing.readWord (offset : Nat) (apart : ¬ writes (.word offset)) :
    (program.run heap).2.readWord target offset = heap.readWord target offset := by
  generalize program.run heap = result at writing
  cases writing with
  | refused _ => rfl
  | written seen allows rewrites =>
      exact readWord_of_agrees seen rewrites.seen (agrees _ allows) apart

end

end Heap

/-! ## Growths that are not counted -/

/-- A collection counts no growth. -/
theorem Heap.arrayReallocations_collectNow (heap : Heap) :
    heap.collectNow.2.counters.arrayReallocations = heap.counters.arrayReallocations := by
  unfold collectNow
  dsimp only
  split
  · rfl
  · split
    · next finishes =>
      obtain ⟨_, _, _, _, _, rfl⟩ := finishCollection_eq_ok_iff.mp finishes
      rfl
    · rfl

/-- The ledger of the growths: it is kept where none is counted. -/
def Ledger.growths : Ledger where
  relation heap next := next.counters.arrayReallocations = heap.counters.arrayReallocations
  refl _ := rfl
  trans first second := second.trans first
  issued counters _ := by rw [counters]
  collected := arrayReallocations_collectNow
  allocated _ counters _ := by rw [counters]
  resized counters _ := by rw [counters]

namespace RefArray

/-! ## Capacities -/

/-- The array has grown from one heap to another: it shows another capacity. -/
def Grew (array : RefArray) (heap next : Heap) : Prop :=
  match array.capacityWord heap, array.capacityWord next with
  | .ok before, .ok after => before ≠ after
  | _, _ => False

instance (array : RefArray) (heap next : Heap) : Decidable (array.Grew heap next) := by
  unfold Grew
  split <;> infer_instance

/-- The array shows the same capacity, if any, and no growth has been counted. -/
structure KeepsSize (array : RefArray) (heap next : Heap) : Prop where
  capacity : array.capacityWord next = array.capacityWord heap
  uncounted : next.counters.arrayReallocations = heap.counters.arrayReallocations

/-- If the array shows a capacity still, then it is the one that it showed, and no growth has been
counted. -/
structure Unresized (array : RefArray) (heap next : Heap) : Prop where
  capacity : ∀ word, array.capacityWord next = .ok word → array.capacityWord heap = .ok word
  uncounted : next.counters.arrayReallocations = heap.counters.arrayReallocations

/-- The array shows the capacity that comes next, and one growth has been counted. -/
structure Resized (array : RefArray) (heap next : Heap) : Prop where
  capacity : ∃ word, array.capacityWord heap = .ok word ∧
    array.capacityWord next = .ok (max (word * 2) minCapacity)
  counted : next.counters.arrayReallocations = heap.counters.arrayReallocations + 1

section

variable {array : RefArray} {heap middle next : Heap}

theorem KeepsSize.refl (array : RefArray) (heap : Heap) : array.KeepsSize heap heap :=
  ⟨rfl, rfl⟩

theorem KeepsSize.trans (first : array.KeepsSize heap middle)
    (second : array.KeepsSize middle next) :
    array.KeepsSize heap next :=
  ⟨second.capacity.trans first.capacity, second.uncounted.trans first.uncounted⟩

theorem KeepsSize.unresized (keeps : array.KeepsSize heap next) : array.Unresized heap next :=
  ⟨fun _ shown => keeps.capacity.symm.trans shown, keeps.uncounted⟩

theorem Unresized.trans (first : array.Unresized heap middle)
    (second : array.Unresized middle next) :
    array.Unresized heap next :=
  ⟨fun word shown => first.capacity word (second.capacity word shown),
    second.uncounted.trans first.uncounted⟩

/-- What changes nothing about the size before and after a growth is part of it. -/
theorem KeepsSize.resized {last : Heap} (before : array.KeepsSize heap middle)
    (resized : array.Resized middle next) (after : array.KeepsSize next last) :
    array.Resized heap last := by
  obtain ⟨word, shown, grown⟩ := resized.capacity
  refine ⟨⟨word, before.capacity.symm.trans shown, after.capacity.trans grown⟩, ?_⟩
  rw [after.uncounted, resized.counted, before.uncounted]

theorem Unresized.not_grew (unresized : array.Unresized heap next) : ¬ array.Grew heap next := by
  unfold Grew
  split
  · next before after shown grown =>
    rw [unresized.capacity after grown] at shown
    cases shown
    exact not_not_intro rfl
  · exact id

/-- Doubling a word, but to no less than the smallest capacity, changes it. -/
theorem grown_ne (word : UInt64) : word ≠ max (word * 2) minCapacity := by
  change word ≠ if word * 2 ≤ minCapacity then minCapacity else word * 2
  rw [Ne, ← UInt64.toNat_inj]
  have small := word.toNat_lt
  by_cases less : word * 2 ≤ minCapacity
  · rw [if_pos less]
    rw [UInt64.le_iff_toNat_le, UInt64.toNat_mul] at less
    change word.toNat * 2 % 2 ^ 64 ≤ 4 at less
    change word.toNat ≠ 4
    omega
  · rw [if_neg less, UInt64.toNat_mul]
    rw [UInt64.le_iff_toNat_le, UInt64.toNat_mul] at less
    change ¬ word.toNat * 2 % 2 ^ 64 ≤ 4 at less
    change word.toNat ≠ word.toNat * 2 % 2 ^ 64
    omega

theorem Resized.grew (resized : array.Resized heap next) : array.Grew heap next := by
  obtain ⟨word, shown, grown⟩ := resized.capacity
  unfold Grew
  rw [shown, grown]
  exact grown_ne word

/-- Counting holds touches no size. -/
theorem KeepsSize.of_recounts (recounts : heap.Recounts next) : array.KeepsSize heap next := by
  constructor
  · unfold capacityWord readWord withDataWord
    rw [recounts.objectOf]
  · rw [recounts.rest]

/-- A write that leaves the capacity of the array alone keeps its size, and alters its target at
most. -/
theorem KeepsSize.of_writing (array : RefArray) (sound : heap.Sound) {target : Handle}
    {allowed : View → Prop} {change : View → View} {program : HeapM PUnit} (tame : Tame program)
    (writing : heap.Writing target allowed change (program.run heap)) {writes : Site → Prop}
    (agrees : ∀ view, allowed view → view.Agrees writes (change view))
    (apart : ¬ writes (.word capacityOffset)) :
    array.KeepsSize heap (program.run heap).2 ∧ heap.Alters (program.run heap).2 [target] := by
  have alters := writing.alters agrees tame
  refine ⟨⟨?_, by rw [alters.rest]⟩, alters⟩
  by_cases same : array.handle = target
  · unfold capacityWord
    rw [same]
    exact writing.readWord agrees capacityOffset apart
  · exact readWord_congr sound (alters.sound sound) (alters.views _ (by simpa using same)) _

/-- A store that leaves the capacity of the array alone keeps its size. -/
theorem KeepsSize.of_store (array : RefArray) (sound : heap.Sound) (store : Store)
    (tame : Tame store.program) (apart : ¬ store.Writes (.word capacityOffset)) :
    array.KeepsSize heap (store.program.run heap).2 ∧
      heap.Alters (store.program.run heap).2 [store.target] :=
  KeepsSize.of_writing array sound tame (store.writing sound) (fun _ => Store.Allowed.agrees) apart

/-! ## Growing -/

/-- What a run does to the size of an array: nothing, or it grows once and does not run out of
memory. -/
inductive Resizes (array : RefArray) (heap : Heap) : Except HeapError PUnit × Heap → Prop
  | kept {result : Except HeapError PUnit} {next : Heap} :
      array.Unresized heap next → Resizes array heap (result, next)
  | grown {result : Except HeapError PUnit} {next : Heap} : array.Resized heap next →
      (∀ error, result = .error error → ¬ error.IsOutOfMemory) → Resizes array heap (result, next)

/-- What becomes of the size of an array that is given a run: nothing, or the array shows the
capacity and a growth has been counted. -/
inductive Installs (array : RefArray) (heap : Heap) (capacity : UInt64) :
    Except HeapError PUnit × Heap → Prop
  | kept {result : Except HeapError PUnit} {next : Heap} :
      array.KeepsSize heap next → Installs array heap capacity (result, next)
  | grown {next : Heap} : array.capacityWord next = .ok capacity →
      next.counters.arrayReallocations = heap.counters.arrayReallocations + 1 →
      Installs array heap capacity (.ok ⟨⟩, next)

/-- Putting a value where there is room keeps the size. -/
theorem keepsSize_append (sound : heap.Sound) (length : UInt64) (value : Option Handle) :
    array.KeepsSize heap ((array.append length value).run heap).2 := by
  unfold append
  rw [HeapM.run_bind, HeapM.run_ask]
  cases array.backing heap with
  | error error => exact KeepsSize.refl array heap
  | ok backing =>
      have stored : array.KeepsSize heap ((Heap.runSet backing length.toNat value).run heap).2 ∧
          heap.Alters ((Heap.runSet backing length.toNat value).run heap).2 [backing] :=
        KeepsSize.of_store array sound (.element backing length.toNat value)
          (tame_runSet _ _ _) nofun
      dsimp only
      rw [HeapM.run_bind]
      rcases ran : (Heap.runSet backing length.toNat value).run heap with ⟨_ | _, middle⟩
      all_goals rw [ran] at stored
      · exact stored.1
      · exact stored.1.trans (KeepsSize.of_store array (stored.2.sound sound)
          (.word array.handle lengthOffset (length + 1)) (tame_writeWord _ _ _)
          (fun same => nomatch same)).1

/-- A store that is refused has not run out of memory. -/
theorem memory_of_store (sound : heap.Sound) (store : Store) {error : HeapError}
    (failed : store.program.run heap = (.error error, next)) : ¬ error.IsOutOfMemory := by
  rintro ⟨size, limit, rfl⟩
  cases sound.refused_store failed

/-- A missing run is no lack of memory. -/
theorem memory_of_backing (sound : heap.Sound) {error : HeapError}
    (failed : array.backing heap = .error error) : ¬ error.IsOutOfMemory := by
  rintro ⟨size, limit, rfl⟩
  unfold backing at failed
  cases read : heap.readRef array.handle backingOffset with
  | ok value =>
      rw [read] at failed
      cases value <;> cases failed
  | error error =>
      rw [read] at failed
      cases failed
      rcases bind_eq_error_iff.mp read with unfound | ⟨_, _, refused⟩
      · rcases bind_eq_error_iff.mp unfound with missing | ⟨object, _, checked⟩
        · cases (sound.stale_of_objectOf missing).2
        · split at checked <;> cases checked
      · cases refused

/-- Putting a value where there is room takes no memory. -/
theorem memory_of_append (sound : heap.Sound) {length : UInt64} {value : Option Handle}
    {error : HeapError} (failed : (array.append length value).run heap = (.error error, next)) :
    ¬ error.IsOutOfMemory := by
  unfold append at failed
  rw [HeapM.run_bind, HeapM.run_ask] at failed
  cases found : array.backing heap with
  | error reason =>
      rw [found] at failed
      cases failed
      exact memory_of_backing sound found
  | ok backing =>
      rw [found] at failed
      dsimp only at failed
      rw [HeapM.run_bind] at failed
      rcases ran : (Heap.runSet backing length.toNat value).run heap with ⟨reason | _, middle⟩
      all_goals rw [ran] at failed
      · cases failed
        exact memory_of_store sound (.element backing length.toNat value) ran
      · have stored := KeepsSize.of_store array sound (.element backing length.toNat value)
          (tame_runSet backing length.toNat value) nofun
        rw [show (Store.element backing length.toNat value).program.run heap = _ from ran] at stored
        exact memory_of_store (stored.2.sound sound)
          (.word array.handle lengthOffset (length + 1)) failed

/-- An allocation of a run resizes nothing. -/
theorem unresized_allocate (sound : heap.Sound) {length : Nat} {result : Except HeapError Handle}
    (ran : (Heap.allocate .vector length).run heap = (result, next))
    (bounded : next.handles.slots < 2 ^ 32) : array.Unresized heap next := by
  have known : heap.classes.get .vector = .ok Registry.vectorClass := sound.get_builtin rfl
  have allocating := sound.allocating known length (by rw [ran]; exact bounded)
  have keeps : Ledger.growths.Keeps (Heap.allocate .vector length) := keeps_allocate .vector length
  have uncounted := keeps heap
  rw [ran] at allocating uncounted
  refine ⟨fun word shown => ?_, uncounted⟩
  obtain ⟨view, seen, plain⟩ := exists_view_of_readWord shown
  have readsAlike (same : next.view? array.handle = heap.view? array.handle) :
      array.capacityWord heap = .ok word := by
    unfold capacityWord at shown ⊢
    rw [readWord_of_view seen] at shown
    rw [readWord_of_view (same.symm.trans seen)]
    exact shown
  cases allocating with
  | refused retains => exact readsAlike (retains.view array.handle (by simp) (isLive_of_view seen))
  | @placed handle _ allocates =>
      refine readsAlike (allocates.rest.view array.handle ?_ (isLive_of_view seen))
      -- the new run has no word where an array has its capacity
      intro same
      have there := allocates.seen
      rw [← Option.some.inj same, seen] at there
      obtain rfl := Option.some.inj there
      have other : Registry.vectorClass.isDataWord capacityOffset = false := by decide
      exact absurd (other.symm.trans plain) (by decide)

/-- A step that keeps the size comes before an array is given a run. -/
theorem KeepsSize.installs {first : HeapM PUnit} {rest : PUnit → HeapM PUnit} {capacity : UInt64}
    (kept : array.KeepsSize heap (first.run heap).2)
    (installs : ∀ middle, first.run heap = (.ok ⟨⟩, middle) →
      array.Installs middle capacity ((rest ⟨⟩).run middle)) :
    array.Installs heap capacity ((first >>= rest).run heap) := by
  rw [HeapM.run_bind]
  rcases ran : first.run heap with ⟨error | _, middle⟩
  all_goals rw [ran] at kept
  · exact Installs.kept kept
  · dsimp only at kept ⊢
    have outcome := installs middle ran
    generalize (rest ⟨⟩).run middle = result at outcome ⊢
    cases outcome with
    | kept keeps => exact Installs.kept (kept.trans keeps)
    | grown shown counted => exact Installs.grown shown (by rw [counted, kept.uncounted])

section

variable (sound : heap.Sound) {grown : Handle} (vector : heap.classOf grown = .ok .vector)
  (held : heap.holds grown = .ok 1)

include sound vector held

/-- A run that is held once is let go, and the growth is counted. -/
theorem run_countGrowth :
    ∃ next, (do
        Heap.release grown
        modify fun heap : Heap => { heap with
          counters := { heap.counters with
            arrayReallocations := heap.counters.arrayReallocations + 1 } } : HeapM PUnit).run heap =
        (.ok ⟨⟩, next) ∧
      (∀ array : RefArray, array.capacityWord next = array.capacityWord heap) ∧
      next.counters.arrayReallocations = heap.counters.arrayReallocations + 1 := by
  obtain ⟨released, ran, _, recounts, _⟩ :=
    sound.exists_release (isInterned_of_classOf vector (by decide)) held
  have same (array : RefArray) : array.KeepsSize heap released := KeepsSize.of_recounts recounts
  rw [HeapM.run_bind, ran]
  exact ⟨_, rfl, fun array => (same array).capacity, congrArg (· + 1) (same ⟨grown⟩).uncounted⟩

/-- An array is given a run that is held once. -/
theorem installs_install (capacity : UInt64) :
    array.Installs heap capacity ((array.install capacity grown).run heap) := by
  obtain ⟨kept, alters⟩ := KeepsSize.of_store array sound
    (.field array.handle backingOffset (some grown)) (tame_writeRef _ _ _) nofun
  apply kept.installs
  intro first ran
  rw [ran] at alters
  have writing : first.Writing array.handle _ _
      ((Heap.writeWord array.handle capacityOffset capacity).run first) :=
    (Store.word array.handle capacityOffset capacity).writing (alters.sound sound)
  have altersToo := writing.alters (fun _ => Store.Allowed.agrees) (tame_writeWord _ _ _)
  rw [HeapM.run_bind]
  generalize (Heap.writeWord array.handle capacityOffset capacity).run first = result
    at writing altersToo
  cases writing with
  | refused _ => exact Installs.kept (KeepsSize.refl array first)
  | @written _ second seen allowed rewrites =>
    dsimp only at alters altersToo ⊢
    have both := alters.trans altersToo
    obtain ⟨last, counts, same, counted⟩ := run_countGrowth (both.sound sound)
      ((both.classOf sound grown).trans vector) ((both.holds grown).trans held)
    rw [counts]
    rw [altersToo.rest] at counted
    exact Installs.grown ((same array).trans (Store.Allowed.readsBack allowed rewrites)) counted

/-- An array moves to a run that is held once. -/
theorem installs_moveTo (length capacity : UInt64) :
    array.Installs heap capacity ((array.moveTo length capacity grown).run heap) := by
  unfold moveTo
  by_cases positive : 0 < length
  · rw [if_pos positive, HeapM.run_bind, HeapM.run_ask]
    cases array.backing heap with
    | error error => exact Installs.kept (KeepsSize.refl array heap)
    | ok old =>
        obtain ⟨kept, alters⟩ := KeepsSize.of_writing array sound
          (tame_copyRun old grown length.toNat) (sound.writing_copy old grown length.toNat)
          (fun view allowed => view.agrees_copied allowed.2.2.1 allowed.2.2.2)
          (by rintro ⟨_, _, same⟩; cases same)
        apply kept.installs
        intro middle ran
        rw [ran] at alters
        exact installs_install (alters.sound sound) ((alters.classOf sound grown).trans vector)
          ((alters.holds grown).trans held) capacity
  · rw [if_neg positive]
    exact installs_install sound vector held capacity

end

/-- An array that grows shows the capacity that comes next, and the growth is counted. -/
theorem resizes_grow {roots : List Handle} (length : UInt64)
    (assured : heap.Assured ((array.grow length).run heap).2 roots) :
    array.Resizes heap ((array.grow length).run heap) := by
  have sound := assured.sound
  rw [grow_eq, HeapM.run_bind, HeapM.run_ask] at assured ⊢
  cases shown : array.capacityWord heap with
  | error error => exact Resizes.kept (KeepsSize.refl array heap).unresized
  | ok word =>
      rw [shown] at assured
      dsimp only at assured ⊢
      have stages := assured.stages (tame_allocate .vector _)
        (array.tame_moveTo length (max (word * 2) minCapacity))
      have known : heap.classes.get .vector = .ok Registry.vectorClass := sound.get_builtin rfl
      have allocating := sound.allocating known (max (word * 2) minCapacity).toNat
      generalize (Heap.allocate .vector (max (word * 2) minCapacity).toNat >>= _).run heap = result
        at stages ⊢
      cases stages with
      | stopped ran assuredFirst =>
          exact Resizes.kept (unresized_allocate sound ran assuredFirst.bounded)
      | @went grown middle ran assuredFirst assuredRest =>
          have before : array.Unresized heap middle :=
            unresized_allocate sound ran assuredFirst.bounded
          rw [ran] at allocating
          cases allocating assuredFirst.bounded with
          | placed allocates =>
              have vector := classOf_of_view allocates.seen
              have installs : array.Installs middle _ _ := installs_moveTo assuredRest.sound vector
                allocates.held length (max (word * 2) minCapacity)
              generalize (array.moveTo length _ grown).run middle = outcome at installs ⊢
              cases installs with
              | kept keeps => exact Resizes.kept (before.trans keeps.unresized)
              | grown now counted =>
                  exact Resizes.grown ⟨⟨word, shown, now⟩, by rw [counted, before.uncounted]⟩ nofun

/-- An array grows while objects are held as it does otherwise. -/
theorem resizes_withHeld (array : RefArray) (handles : List Handle) (length : UInt64) (heap : Heap)
    (roots : List Handle)
    (assured : heap.Assured ((withHeld handles (array.grow length)).run heap).2 roots) :
    array.Resizes heap ((withHeld handles (array.grow length)).run heap) := by
  have around {held after next : Heap} {result : Except HeapError PUnit}
      {outcome : Except HeapError PUnit} (holding : heap.Held held handles)
      (runs : (array.grow length).run held = (result, after)) (recounts : after.Recounts next)
      (failed : ∀ error, outcome = .error error → result = .error error ∨ ¬ error.IsOutOfMemory) :
      array.Resizes heap (outcome, next) := by
    have taken : array.KeepsSize heap held := KeepsSize.of_recounts holding.adds.recounts
    have given : array.KeepsSize after next := KeepsSize.of_recounts recounts
    have inner := holding.assured (array.tame_grow length) assured runs
    have resizes : array.Resizes held (result, after) := by
      rw [← runs]
      apply resizes_grow
      rw [runs]
      exact inner
    cases resizes with
    | kept unresized => exact Resizes.kept ((taken.unresized.trans unresized).trans given.unresized)
    | grown resized memory =>
        exact Resizes.grown (taken.resized resized given) fun error said =>
          (failed error said).elim (memory error) id
  have holding := assured.sound.run_withHeld handles (array.grow length) assured.bounded
  generalize (withHeld handles (array.grow length)).run heap = result at holding around ⊢
  cases holding with
  | unheld _ _ recounts => exact Resizes.kept (KeepsSize.of_recounts recounts).unresized
  | ran holding runs _ _ drops _ => exact around holding runs drops.recounts fun _ => Or.inl
  | unreleased holding runs _ recounts failed =>
      refine around holding runs recounts fun _ said => Or.inr ?_
      cases said
      exact releaseAll_memory failed

/-- A push reads the length and the capacity, and makes room first if they are the same. -/
theorem run_push_cases (array : RefArray) (heap : Heap) (value : Option Handle) :
    (∃ error, (array.push value).run heap = (.error error, heap)) ∨
      ∃ length capacity, array.lengthWord heap = .ok length ∧
        array.capacityWord heap = .ok capacity ∧
        (length ≠ capacity ∧
            (array.push value).run heap = (array.append length value).run heap ∨
          length = capacity ∧
            (array.push value).run heap =
              (withHeld (array.handle :: value.toList) (array.grow length) >>= fun _ =>
                array.append length value).run heap) := by
  rw [push_eq, HeapM.run_bind, HeapM.run_ask]
  cases array.lengthWord heap with
  | error error => exact Or.inl ⟨error, rfl⟩
  | ok length =>
      dsimp only
      rw [HeapM.run_bind, HeapM.run_ask]
      cases array.capacityWord heap with
      | error error => exact Or.inl ⟨error, rfl⟩
      | ok capacity =>
          dsimp only
          refine Or.inr ⟨length, capacity, rfl, rfl, ?_⟩
          by_cases full : length = capacity
          · exact Or.inr ⟨full, by rw [if_pos full]⟩
          · exact Or.inl ⟨full, by rw [if_neg full]⟩

/-- A push into an array that is not full keeps its size. -/
theorem keepsSize_push (sound : heap.Sound) (value : Option Handle)
    (room : array.lengthWord heap ≠ array.capacityWord heap) :
    array.KeepsSize heap ((array.push value).run heap).2 := by
  rcases array.run_push_cases heap value with ⟨error, ran⟩ |
    ⟨length, capacity, counted, shown, ⟨_, ran⟩ | ⟨full, _⟩⟩
  · rw [ran]
    exact KeepsSize.refl array heap
  · rw [ran]
    exact keepsSize_append sound length value
  · exact absurd (counted.trans (by rw [full, shown])) room

/-- A push resizes an array once or not at all, and not if it runs out of memory. -/
theorem resizes_push (array : RefArray) (value : Option Handle) {roots : List Handle}
    (assured : heap.Assured ((array.push value).run heap).2 roots) :
    array.Resizes heap ((array.push value).run heap) := by
  rcases array.run_push_cases heap value with ⟨error, ran⟩ |
    ⟨length, capacity, _, _, ⟨_, ran⟩ | ⟨_, ran⟩⟩
  · rw [ran]
    exact Resizes.kept (KeepsSize.refl array heap).unresized
  · rw [ran]
    exact Resizes.kept (keepsSize_append assured.sound length value).unresized
  · rw [ran] at assured ⊢
    have stages := assured.stages (tame_withHeld _ (array.tame_grow length))
      fun _ => array.tame_append length value
    have resizes := array.resizes_withHeld (array.handle :: value.toList) length heap roots
    generalize (withHeld (array.handle :: value.toList) (array.grow length) >>= fun _ =>
      array.append length value).run heap = result at stages ⊢
    cases stages with
    | stopped ran assuredFirst =>
        rw [ran] at resizes
        exact resizes assuredFirst
    | @went _ middle ran assuredFirst assuredRest =>
        rw [ran] at resizes
        have appended : array.KeepsSize middle _ := keepsSize_append assuredRest.sound length value
        rcases appends : (array.append length value).run middle with ⟨outcome, last⟩
        rw [appends] at appended
        cases resizes assuredFirst with
        | kept unresized => exact Resizes.kept (unresized.trans appended.unresized)
        | grown resized _ =>
            refine Resizes.grown ((KeepsSize.refl array heap).resized resized appended) ?_
            rintro error rfl
            exact memory_of_append assuredRest.sound appends

end

end RefArray

namespace Heap

/-! ## The log of growths -/

section

variable {α : Type} {operation : HeapM α} {heap next : Heap} {log more : List Handle}

/-- How the log of growths goes on over an operation.  A push that lets its array grow is entered,
and nothing else is. -/
inductive Enters (heap next : Heap) (operation : HeapM α) (log : List Handle) : List Handle → Prop
  | grew {array : RefArray} : array.IsPush operation → array.Grew heap next →
      Enters heap next operation log (array.handle :: log)
  | quiet : (∀ array : RefArray, array.IsPush operation → ¬ array.Grew heap next) →
      Enters heap next operation log log

/-- The heaps of a history with the log of the growths since the heap was created, latest first. -/
inductive Growths : Heap → List Handle → Prop
  | created {system : MemorySystem} {config : Config} {heap : Heap} :
      Heap.new system config = .ok heap → Growths heap []
  | after {α : Type} {operation : HeapM α} {heap next : Heap} {log more : List Handle} :
      Growths heap log → Operation operation → (operation.run heap).2 = next →
        next.handles.slots < 2 ^ 32 → Enters heap next operation log more → Growths next more

/-- The log can be kept whatever the operation is. -/
theorem exists_enters (operation : HeapM α) (heap next : Heap) (log : List Handle) :
    ∃ more, Enters heap next operation log more := by
  by_cases grows : ∃ array : RefArray, array.IsPush operation ∧ array.Grew heap next
  · obtain ⟨array, push, grew⟩ := grows
    exact ⟨_, Enters.grew push grew⟩
  · exact ⟨log, Enters.quiet fun array push grew => grows ⟨array, push, grew⟩⟩

/-- An operation counts a growth for each one that is entered. -/
theorem Enters.counted (reachable : heap.Reachable) (offered : Operation operation)
    (ran : (operation.run heap).2 = next) (bounded : next.handles.slots < 2 ^ 32)
    (enters : Enters heap next operation log more)
    (before : heap.counters.arrayReallocations = log.length) :
    next.counters.arrayReallocations = more.length := by
  subst ran
  have outcome {array : RefArray} {value : Option Handle}
      (bounded : ((array.push value).run heap).2.handles.slots < 2 ^ 32) :=
    array.resizes_push value (reachable.assured bounded)
  cases enters with
  | grew push grew =>
      cases push with
      | push value =>
          have resizes := outcome bounded
          generalize (RefArray.push _ value).run heap = result at resizes grew ⊢
          cases resizes with
          | kept unresized => exact absurd grew unresized.not_grew
          | grown resized _ => rw [resized.counted, before, List.length_cons]
  | quiet unmoved =>
      rw [← before]
      by_cases pushed : ∃ array : RefArray, array.IsPush operation
      · obtain ⟨array, push⟩ := pushed
        cases push with
        | push value =>
            have still := unmoved array (.push value)
            have resizes := outcome bounded
            generalize (array.push value).run heap = result at resizes still ⊢
            cases resizes with
            | kept unresized => exact unresized.uncounted
            | grown resized _ => exact absurd resized.grew still
      · have keeps : Ledger.growths.Keeps operation := offered.keeps fun push => absurd push pushed
        exact keeps heap

/-- What a log of growths has been kept of is reachable, and the growths have been counted. -/
theorem Growths.counted (growths : Growths heap log) :
    heap.Reachable ∧ heap.counters.arrayReallocations = log.length := by
  induction growths with
  | created new =>
      refine ⟨Reachable.created new, ?_⟩
      obtain ⟨_, rfl⟩ := new_eq_ok_iff.mp new
      rfl
  | after _ offered ran bounded enters ih =>
      obtain ⟨reachable, counted⟩ := ih
      have counts := enters.counted reachable offered ran bounded counted
      subst ran
      exact ⟨reachable.after offered bounded, counts⟩

/-- A log of growths can be kept of every reachable heap. -/
theorem Reachable.exists_growths (reachable : heap.Reachable) : ∃ log, Growths heap log := by
  induction reachable with
  | created new => exact ⟨[], Growths.created new⟩
  | after _ offered bounded ih =>
      obtain ⟨log, growths⟩ := ih
      obtain ⟨more, enters⟩ := exists_enters _ _ _ log
      exact ⟨more, Growths.after growths offered rfl bounded enters⟩

end

/-- The statistics count the growths of all arrays: as many as any log of them holds, and none for
a push that runs out of memory. -/
structure CountsGrowths (heap : Heap) : Prop where
  logged : ∃ log, Growths heap log
  counted : ∀ log, Growths heap log → heap.counters.arrayReallocations = log.length
  memory : ∀ (array : RefArray) (value : Option Handle) {error : HeapError} {next : Heap},
    (array.push value).run heap = (.error error, next) → next.handles.slots < 2 ^ 32 →
      error.IsOutOfMemory → ¬ array.Grew heap next ∧
        next.counters.arrayReallocations = heap.counters.arrayReallocations

theorem Reachable.countsGrowths {heap : Heap} (reachable : heap.Reachable) :
    heap.CountsGrowths where
  logged := reachable.exists_growths
  counted _ growths := growths.counted.2
  memory array value {error next} ran bounded memory := by
    have assured : heap.Assured next [] := reachable.assured bounded
    have resizes : heap.Assured ((array.push value).run heap).2 [] → _ := array.resizes_push value
    rw [ran] at resizes
    cases resizes assured with
    | kept unresized => exact ⟨unresized.not_grew, unresized.uncounted⟩
    | grown _ other => exact absurd memory (other error rfl)

end Heap

end CompactingHeap
