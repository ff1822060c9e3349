import CompactingHeap.Proofs.SparingPrograms

/-!
# Operations of containers that spare an enclave

An operation on an array or a table spares every enclave that the container is clear of: what it
writes is the container, what backs it, and new objects.  The loops are followed by induction on
the number of steps that are left.
-/

namespace CompactingHeap

open Heap

namespace Enclave

variable {enclave : Enclave} {known : List Fact}

/-- Counting does not touch the objects. -/
theorem spares_count {change : Counters → Counters} (aside : Counters.Aside change) :
    enclave.Spares known
      (modify fun heap => { heap with counters := change heap.counters } : HeapM PUnit) :=
  Gives.of_views (tame_count aside) fun _ => view?_of_space rfl fun _ => rfl

/-! ## Arrays -/

/-- What is known of an array that is clear of the enclave. -/
def arrayFacts (array : RefArray) : List Fact :=
  [.clear .vector array.handle]

/-- The run that backs a clear array is no vector of the enclave. -/
theorem Clear.bare_backing {heap : Heap} {array : RefArray} {backing : Handle}
    (clear : enclave.Clear heap .vector array.handle)
    (found : array.backing heap = .ok backing) : ¬ enclave.Has backing .vector := by
  unfold RefArray.backing at found
  cases read : heap.readRef array.handle RefArray.backingOffset with
  | error error =>
      rw [read] at found
      cases found
  | ok value =>
      rw [read] at found
      cases value with
      | none => cases found
      | some name =>
          cases found
          obtain ⟨object, here, field, named⟩ := readRef_eq_ok_iff.mp read
          have seen := view?_eq_some_iff.mpr ⟨object, here, rfl⟩
          apply clear.backed _ _ seen
          change (object.view heap.handleOf?).ref RefArray.backingOffset = some backing
          rw [Object.ref_view, if_pos field]
          exact named

theorem gives_backing {array : RefArray}
    (clear : ∀ heap, enclave.Knows heap known → enclave.Clear heap .vector array.handle) :
    enclave.Gives known (HeapM.ask array.backing) fun backing => [.bare backing] := by
  apply Gives.ask
  intro heap backing _ _ knows found fact member
  cases List.mem_singleton.mp member
  exact (clear heap knows).bare_backing found

theorem gives_backingAt {array : RefArray} {index : Nat}
    (clear : ∀ heap, enclave.Knows heap known → enclave.Clear heap .vector array.handle) :
    enclave.Gives known (HeapM.ask fun heap => array.backingAt heap index)
      fun backing => [.bare backing] := by
  apply Gives.ask
  intro heap backing _ _ knows found fact member
  cases List.mem_singleton.mp member
  unfold RefArray.backingAt at found
  cases length : array.length heap with
  | error error =>
      rw [length] at found
      cases found
  | ok count =>
      rw [length] at found
      dsimp only [bind, Except.bind] at found
      split at found
      · exact (clear heap knows).bare_backing found
      · cases found

theorem spares_set {array : RefArray} {index : Nat} {value : Option Handle}
    (clear : ∀ heap, enclave.Knows heap known → enclave.Clear heap .vector array.handle) :
    enclave.Spares known (array.set index value) := by
  unfold RefArray.set
  apply (gives_backingAt clear).bind
  intro backing
  exact spares_runSet fun heap knows => knows (.bare backing) List.mem_cons_self

theorem gives_withCapacity (capacity : Nat) :
    enclave.Gives known (RefArray.withCapacity capacity) fun array => newFacts array.handle := by
  unfold RefArray.withCapacity
  apply (gives_allocate .array 0).bind
  intro handle
  have tells : ∀ (others : List Fact) (heap : Heap),
      enclave.Knows heap (others ++ (newFacts handle ++ known)) →
        enclave.Knows heap (newFacts handle) := by
    intro others heap knows fact member
    exact knows fact (List.mem_append_right _ (List.mem_append_left _ member))
  apply Gives.ite
  · exact Gives.pure (tells [])
  · apply (gives_orRelease handle (gives_withHeld [handle] (gives_allocate .vector capacity))).bind
    intro backing
    have outside : ∀ heap,
        enclave.Knows heap (newFacts backing ++ (newFacts handle ++ known)) →
          enclave.Outside handle := fun heap knows =>
      tells _ heap knows (.outside handle) List.mem_cons_self
    apply (spares_writeWord outside).bind
    intro _
    unfold RefArray.adopt
    apply ((spares_writeRef outside ?_).bind fun _ => spares_release backing).bind
    · intro _
      exact Gives.pure (tells (newFacts backing))
    · rintro _ target same heap knows
      cases same
      exact knows (.outside backing) List.mem_cons_self

theorem gives_filled (length : Nat) :
    enclave.Gives known (RefArray.filled length) fun array => newFacts array.handle := by
  unfold RefArray.filled
  apply (gives_withCapacity length).bind
  intro array
  apply (spares_writeWord fun heap knows =>
    knows (.outside array.handle) (List.mem_append_left _ List.mem_cons_self)).bind
  intro _
  apply Gives.pure
  intro heap knows fact member
  exact knows fact (List.mem_append_right _ (List.mem_append_left _ member))

/-- An array that is no part gets a run that is no part. -/
theorem spares_install {array : RefArray} {grown : Handle} {capacity : UInt64}
    (outside : ∀ heap, enclave.Knows heap known →
      enclave.Outside array.handle ∧ enclave.Outside grown) :
    enclave.Spares known (do
      Heap.writeRef array.handle RefArray.backingOffset (some grown)
      Heap.writeWord array.handle RefArray.capacityOffset capacity
      Heap.release grown
      modify fun heap => { heap with
        counters := { heap.counters with
          arrayReallocations := heap.counters.arrayReallocations + 1 } } : HeapM PUnit) := by
  apply (spares_writeRef (fun heap knows => (outside heap knows).1) ?_).bind
  · intro _
    apply (spares_writeWord fun heap knows => (outside heap knows).1).bind
    intro _
    apply (spares_release grown).bind
    intro _
    exact spares_count Counters.aside_arrayReallocations
  · rintro _ target same heap knows
    cases same
    exact (outside heap knows).2

theorem spares_arrayGrow {array : RefArray} {length : UInt64}
    (clear : ∀ heap, enclave.Knows heap known → enclave.Clear heap .vector array.handle) :
    enclave.Spares known (array.grow length) := by
  unfold RefArray.grow
  apply (Gives.asking _).bind
  intro oldCapacity
  apply (gives_allocate .vector _).bind
  intro grown
  have later : ∀ (others : List Fact) (heap : Heap),
      enclave.Knows heap (others ++ (newFacts grown ++ known)) →
        enclave.Knows heap known ∧ enclave.Outside grown := by
    intro others heap knows
    constructor
    · intro fact member
      exact knows fact (List.mem_append_right _ (List.mem_append_right _ member))
    · exact knows (.outside grown) (List.mem_append_right _ List.mem_cons_self)
  have apart : ∀ (others : List Fact) (heap : Heap),
      enclave.Knows heap (others ++ (newFacts grown ++ known)) →
        enclave.Outside array.handle ∧ enclave.Outside grown := fun others heap knows =>
    ⟨(clear heap (later others heap knows).1).outside, (later others heap knows).2⟩
  apply Gives.ite
  · apply (gives_backing fun heap knows => clear heap (later [] heap knows).1).bind
    intro old
    have bare : ∀ heap, enclave.Knows heap ([.bare old] ++ (newFacts grown ++ known)) →
        ¬ enclave.Has grown .vector := fun heap knows =>
      (later [.bare old] heap knows).2.not_has .vector
    apply (spares_copyRun bare).bind
    intro _
    exact spares_install (apart [.bare old])
  · exact spares_install (apart [])

theorem spares_push {array : RefArray} {value : Option Handle}
    (clear : ∀ heap, enclave.Knows heap known → enclave.Clear heap .vector array.handle) :
    enclave.Spares known (array.push value) := by
  have finish (length : UInt64) : enclave.Spares known (do
      let backing ← HeapM.ask array.backing
      Heap.runSet backing length.toNat value
      Heap.writeWord array.handle RefArray.lengthOffset (length + 1)) := by
    apply (gives_backing clear).bind
    intro backing
    apply (spares_runSet fun heap knows => knows (.bare backing) List.mem_cons_self).bind
    intro _
    apply spares_writeWord
    intro heap knows
    exact (clear heap fun fact member => knows fact (List.mem_cons_of_mem _ member)).outside
  unfold RefArray.push
  apply (Gives.asking _).bind
  intro length
  apply (Gives.asking _).bind
  intro capacity
  apply Gives.ite
  · exact (gives_withHeld _ (spares_arrayGrow clear)).bind fun _ => finish length
  · exact finish length

theorem spares_pop {array : RefArray}
    (clear : ∀ heap, enclave.Knows heap known → enclave.Clear heap .vector array.handle) :
    enclave.Spares known array.pop := by
  unfold RefArray.pop
  apply (Gives.asking _).bind
  intro length
  apply Gives.ite
  · exact Gives.throw _
  · apply (gives_backing clear).bind
    intro backing
    apply (Gives.asking _).bind
    intro value
    apply (spares_runSet fun heap knows => knows (.bare backing) List.mem_cons_self).bind
    intro _
    apply (spares_writeWord fun heap knows =>
      (clear heap fun fact member => knows fact (List.mem_cons_of_mem _ member)).outside).bind
    intro _
    exact Gives.pure fun heap _ => knows_nil heap

theorem spares_eraseFrom {backing : Handle} (index count : Nat)
    (bare : ∀ heap, enclave.Knows heap known → ¬ enclave.Has backing .vector) :
    enclave.Spares known (RefArray.eraseFrom backing index count) := by
  induction count generalizing index with
  | zero => exact Gives.pure fun heap _ => knows_nil heap
  | succ count ih =>
      unfold RefArray.eraseFrom
      exact (spares_runSet bare).bind fun _ => ih (index + 1)

theorem spares_clear {array : RefArray}
    (clear : ∀ heap, enclave.Knows heap known → enclave.Clear heap .vector array.handle) :
    enclave.Spares known array.clear := by
  unfold RefArray.clear
  apply (Gives.asking _).bind
  intro length
  apply Gives.ite
  · apply (gives_backing clear).bind
    intro backing
    apply (spares_eraseFrom 0 length fun heap knows =>
      knows (.bare backing) List.mem_cons_self).bind
    intro _
    exact spares_writeWord fun heap knows =>
      (clear heap fun fact member => knows fact (List.mem_cons_of_mem _ member)).outside
  · exact spares_writeWord fun heap knows => (clear heap knows).outside

/-! ## Tables -/

/-- The bucket array of a clear table is clear of the vectors of the enclave. -/
theorem Clear.clear_buckets {heap : Heap} {table : RefTable} {buckets : RefArray}
    (clear : enclave.Clear heap .array table.handle) (guarded : enclave.Guarded heap)
    (found : table.buckets heap = .ok buckets) : enclave.Clear heap .vector buckets.handle := by
  unfold RefTable.buckets at found
  cases read : heap.readRef table.handle RefTable.bucketsOffset with
  | error error =>
      rw [read] at found
      cases found
  | ok value =>
      rw [read] at found
      cases value with
      | none => cases found
      | some name =>
          dsimp only [bind, Except.bind] at found
          unfold RefArray.ofHandle at found
          cases passes : heap.expect name .array with
          | error error =>
              rw [passes] at found
              cases found
          | ok target =>
              rw [passes] at found
              cases found
              dsimp only
              obtain ⟨object, here, field, named⟩ := readRef_eq_ok_iff.mp read
              have seen := view?_eq_some_iff.mpr ⟨object, here, rfl⟩
              have bare : ¬ enclave.Has name .array := by
                apply clear.backed _ _ seen
                change (object.view heap.handleOf?).ref RefTable.bucketsOffset = some name
                rw [Object.ref_view, if_pos field]
                exact named
              obtain ⟨shown, array⟩ := exists_view_of_expect passes
              have outside : enclave.Outside name := by
                cases part : enclave.part? name with
                | none => exact part
                | some view =>
                    have same := guarded.parts name view part
                    rw [array.1] at same
                    cases same
                    exact absurd ⟨_, part, array.2⟩ bare
              exact guarded.arrays name shown array.1 array.2 outside

theorem gives_buckets {table : RefTable}
    (clear : ∀ heap, enclave.Knows heap known → enclave.Clear heap .array table.handle) :
    enclave.Gives known (HeapM.ask table.buckets) arrayFacts := by
  apply Gives.ask
  intro heap buckets _ guarded knows found fact member
  cases List.mem_singleton.mp member
  exact (clear heap knows).clear_buckets guarded found

/-- What is known of the bucket array in which a key has been found. -/
def foundFacts : Option (RefArray × UInt64) → List Fact
  | some (buckets, _) => arrayFacts buckets
  | none => []

theorem gives_find {table : RefTable} {key : Handle} {hash : Key → UInt64}
    (clear : ∀ heap, enclave.Knows heap known → enclave.Clear heap .array table.handle) :
    enclave.Gives known (HeapM.ask fun heap => table.find? heap key hash) foundFacts := by
  apply Gives.ask
  intro heap result _ guarded knows found
  unfold RefTable.find? at found
  cases read : table.buckets heap with
  | error error =>
      rw [read] at found
      cases found
  | ok buckets =>
      rw [read] at found
      dsimp only [bind, Except.bind] at found
      cases capacity : table.capacityWord heap with
      | error error =>
          rw [capacity] at found
          cases found
      | ok count =>
          rw [capacity] at found
          dsimp only at found
          cases probed : RefTable.probe heap buckets count key hash with
          | error error =>
              rw [probed] at found
              cases found
          | ok probe =>
              rw [probed] at found
              cases probe with
              | found index =>
                  cases found
                  intro fact member
                  cases List.mem_singleton.mp member
                  exact (clear heap knows).clear_buckets guarded read
              | vacant index =>
                  cases found
                  exact knows_nil heap

theorem spares_fillBucket {buckets : RefArray} {index : UInt64} {key value : Option Handle}
    (clear : ∀ heap, enclave.Knows heap known → enclave.Clear heap .vector buckets.handle) :
    enclave.Spares known (RefTable.fillBucket buckets index key value) :=
  (spares_set clear).bind fun _ => spares_set clear

theorem spares_tableWithCapacity (capacity : Nat) :
    enclave.Spares known (RefTable.withCapacity capacity) := by
  unfold RefTable.withCapacity
  apply Gives.ite
  · exact Gives.get.bind fun heap => Gives.throw _
  · apply (gives_allocate .hashtable 0).bind
    intro handle
    apply (gives_orRelease handle (gives_withHeld [handle] (gives_filled _))).bind
    intro buckets
    have outside : ∀ heap,
        enclave.Knows heap (newFacts buckets.handle ++ (newFacts handle ++ known)) →
          enclave.Outside handle := fun heap knows =>
      knows (.outside handle) (List.mem_append_right _ List.mem_cons_self)
    apply (spares_writeWord outside).bind
    intro _
    apply (spares_writeRef outside ?_).bind
    · intro _
      apply (spares_release buckets.handle).bind
      intro _
      exact Gives.pure fun heap _ => knows_nil heap
    · rintro _ target same heap knows
      cases same
      exact knows (.outside buckets.handle) List.mem_cons_self

theorem spares_newTable : enclave.Spares known RefTable.new :=
  Gives.get.bind fun heap => spares_tableWithCapacity heap.config.tableInitialCapacity

theorem spares_reinsertFrom {table : RefTable} {old grown : RefArray} {capacity : UInt64}
    (index : UInt64) (count : Nat) {hash : Key → UInt64}
    (clear : ∀ heap, enclave.Knows heap known → enclave.Clear heap .vector grown.handle) :
    enclave.Spares known (table.reinsertFrom old grown capacity index count hash) := by
  induction count generalizing index with
  | zero => exact Gives.pure fun heap _ => knows_nil heap
  | succ count ih =>
      unfold RefTable.reinsertFrom
      apply (Gives.asking _).bind
      intro key
      cases key with
      | none => exact ih (index + 1)
      | some key =>
          apply (Gives.asking _).bind
          intro value
          apply (Gives.asking _).bind
          intro probed
          cases probed with
          | found _ => exact Gives.throw _
          | vacant slot => exact (spares_fillBucket clear).bind fun _ => ih (index + 1)

theorem spares_resize {table : RefTable} {capacity : UInt64} {hash : Key → UInt64}
    (clear : ∀ heap, enclave.Knows heap known → enclave.Clear heap .array table.handle) :
    enclave.Spares known (table.resize capacity hash) := by
  unfold RefTable.resize
  apply (Gives.asking _).bind
  intro oldCapacity
  apply (gives_filled _).bind
  intro grown
  have outside : ∀ heap, enclave.Knows heap (newFacts grown.handle ++ known) →
      enclave.Outside table.handle := by
    intro heap knows
    exact (clear heap fun fact member => knows fact (List.mem_append_right _ member)).outside
  have new : ∀ heap, enclave.Knows heap (newFacts grown.handle ++ known) →
      enclave.Outside grown.handle := fun heap knows => knows (.outside _) List.mem_cons_self
  apply (Gives.asking _).bind
  intro old
  apply (spares_reinsertFrom 0 oldCapacity.toNat fun heap knows =>
    knows (.clear .vector grown.handle) (by simp [newFacts])).bind
  intro _
  apply (spares_writeRef outside ?_).bind
  · intro _
    apply (spares_writeWord outside).bind
    intro _
    apply (spares_release grown.handle).bind
    intro _
    exact spares_count Counters.aside_tableResizes
  · rintro _ target same heap knows
    cases same
    exact new heap knows

theorem spares_makeRoom {table : RefTable} {count : UInt64} {key value : Handle}
    {hash : Key → UInt64}
    (clear : ∀ heap, enclave.Knows heap known → enclave.Clear heap .array table.handle) :
    enclave.Spares known (table.makeRoom count key value hash) := by
  unfold RefTable.makeRoom
  apply (Gives.asking _).bind
  intro capacity
  apply Gives.get.bind
  intro heap
  apply Gives.ite
  · apply Gives.ite
    · exact Gives.throw _
    · exact gives_withHeld _ (spares_resize clear)
  · exact Gives.pure fun heap _ => knows_nil heap

theorem spares_insert {table : RefTable} {key value : Handle} {hash : Key → UInt64}
    (clear : ∀ heap, enclave.Knows heap known → enclave.Clear heap .array table.handle) :
    enclave.Spares known (table.insert key value hash) := by
  unfold RefTable.insert
  apply (Gives.asking _).bind
  intro _
  apply (gives_find clear).bind
  intro found
  rcases found with _ | ⟨buckets, index⟩
  · apply (Gives.asking _).bind
    intro count
    apply (spares_makeRoom clear).bind
    intro _
    apply (gives_buckets clear).bind
    intro buckets
    apply (Gives.asking _).bind
    intro capacity
    apply (Gives.asking _).bind
    intro probed
    cases probed with
    | found _ => exact Gives.throw _
    | vacant slot =>
        apply (spares_fillBucket fun heap knows =>
          knows (.clear .vector buckets.handle) List.mem_cons_self).bind
        intro _
        apply (spares_writeWord fun heap knows =>
          (clear heap fun fact member => knows fact (List.mem_cons_of_mem _ member)).outside).bind
        intro _
        exact Gives.pure fun heap _ => knows_nil heap
  · apply (Gives.asking _).bind
    intro previous
    apply (spares_set fun heap knows =>
      knows (.clear .vector buckets.handle) List.mem_cons_self).bind
    intro _
    exact Gives.pure fun heap _ => knows_nil heap

theorem spares_shiftBack {buckets : RefArray} {mask : UInt64} (hole next : UInt64) (steps : Nat)
    {hash : Key → UInt64}
    (clear : ∀ heap, enclave.Knows heap known → enclave.Clear heap .vector buckets.handle) :
    enclave.Spares known (RefTable.shiftBack buckets mask hole next steps hash) := by
  induction steps generalizing hole next with
  | zero => exact Gives.throw _
  | succ steps ih =>
      unfold RefTable.shiftBack
      apply (Gives.asking _).bind
      intro moving
      cases moving with
      | none => exact Gives.pure fun heap _ => knows_nil heap
      | some moving =>
          apply (Gives.asking _).bind
          intro home
          apply Gives.ite
          · apply (Gives.asking _).bind
            intro value
            exact (spares_fillBucket clear).bind fun _ => ih next _
          · exact ih hole _

theorem spares_remove {table : RefTable} {key : Handle} {hash : Key → UInt64}
    (clear : ∀ heap, enclave.Knows heap known → enclave.Clear heap .array table.handle) :
    enclave.Spares known (table.remove key hash) := by
  unfold RefTable.remove
  apply (gives_find clear).bind
  intro found
  rcases found with _ | ⟨buckets, index⟩
  · exact Gives.pure fun heap _ => knows_nil heap
  · have clearBuckets : ∀ heap, enclave.Knows heap (foundFacts (some (buckets, index)) ++ known) →
        enclave.Clear heap .vector buckets.handle := fun heap knows =>
      knows (.clear .vector buckets.handle) List.mem_cons_self
    apply (Gives.asking _).bind
    intro value
    apply (Gives.asking _).bind
    intro capacity
    apply (spares_shiftBack index _ _ clearBuckets).bind
    intro hole
    apply (spares_fillBucket clearBuckets).bind
    intro _
    apply (Gives.asking _).bind
    intro count
    apply (spares_writeWord fun heap knows =>
      (clear heap fun fact member => knows fact (List.mem_cons_of_mem _ member)).outside).bind
    intro _
    exact Gives.pure fun heap _ => knows_nil heap

end Enclave

end CompactingHeap
