import CompactingHeap.Proofs.Compounds

/-!
# Lists in arrays

An array shows a list: its length and its capacity are recorded, and the run that backs it has
exactly as many slots as the capacity says, the elements first and nothing behind them.  This
module tells what the questions to such an array answer, and what the programs do that write it
where it is.
-/

namespace CompactingHeap

open Heap

/-- A word holds every number below `2 ^ 64`. -/
theorem toNat_toUInt64_of_lt {number : Nat} (small : number < 2 ^ 64) :
    number.toUInt64.toNat = number := by
  rw [Nat.toUInt64_eq, UInt64.toNat_ofNat']
  exact Nat.mod_eq_of_lt small

theorem toNat_toUInt64 {number : Nat} (small : number < 2 ^ 32) : number.toUInt64.toNat = number :=
  toNat_toUInt64_of_lt (by omega)

theorem toUInt64_eq_zero_iff {number : Nat} (small : number < 2 ^ 32) :
    number.toUInt64 = 0 ↔ number = 0 := by
  rw [← UInt64.toNat_inj, toNat_toUInt64 small]
  rfl

/-! ## Padding -/

/-- The elements with absent ones behind them up to the capacity. -/
def padded (elements : List (Option Handle)) (capacity : Nat) : List (Option Handle) :=
  elements ++ List.replicate (capacity - elements.length) none

section

variable {elements : List (Option Handle)} {capacity : Nat}

theorem length_padded (fits : elements.length ≤ capacity) :
    (padded elements capacity).length = capacity := by
  unfold padded
  rw [List.length_append, List.length_replicate]
  omega

theorem getElem?_padded {index : Nat} (inside : index < elements.length) :
    (padded elements capacity)[index]? = elements[index]? :=
  List.getElem?_append_left inside

/-- Behind the elements everything is absent. -/
theorem getElem?_padded_behind {index : Nat} (behind : elements.length ≤ index)
    (inside : index < capacity) : (padded elements capacity)[index]? = some none := by
  unfold padded
  rw [List.getElem?_append_right behind, List.getElem?_replicate, if_pos]
  omega

theorem set_padded {index : Nat} (inside : index < elements.length) (value : Option Handle) :
    (padded elements capacity).set index value = padded (elements.set index value) capacity := by
  unfold padded
  rw [List.set_append_left _ _ inside, List.length_set]

/-- Writing the first absent element appends. -/
theorem set_padded_push (room : elements.length < capacity) (value : Option Handle) :
    (padded elements capacity).set elements.length value =
      padded (elements ++ [value]) capacity := by
  unfold padded
  obtain ⟨spare, enough⟩ := Nat.exists_eq_add_of_lt room
  have before : capacity - elements.length = spare + 1 := by omega
  have after : capacity - (elements ++ [value]).length = spare := by
    rw [List.length_append, List.length_singleton]
    omega
  rw [before, after, List.set_append_right _ _ (Nat.le_refl _), Nat.sub_self, List.replicate_succ,
    List.set_cons_zero, List.append_assoc]
  rfl

/-- Taking the last element away removes it. -/
theorem set_padded_pop (last : Option Handle) (fits : (elements ++ [last]).length ≤ capacity) :
    (padded (elements ++ [last]) capacity).set elements.length none = padded elements capacity := by
  have room : elements.length < capacity := by
    rw [List.length_append, List.length_singleton] at fits
    exact fits
  rw [← set_padded_push room last, List.set_set]
  unfold padded
  rw [List.set_append_right _ _ (Nat.le_refl _), Nat.sub_self]
  obtain ⟨spare, enough⟩ := Nat.exists_eq_add_of_lt room
  have before : capacity - elements.length = spare + 1 := by omega
  rw [before, List.replicate_succ, List.set_cons_zero]

/-- The elements of a full run, copied into an absent one. -/
theorem copied_padded (more : Nat) :
    (padded elements capacity).take elements.length ++
      (List.replicate more (none : Option Handle)).drop elements.length = padded elements more := by
  unfold padded
  rw [List.take_left, List.drop_replicate]

end

namespace Heap

/-- The array shows the list, and has room for `capacity` elements in its backing run. -/
structure Lists (heap : Heap) (array : RefArray) (elements : List (Option Handle)) (capacity : Nat)
    (storage : Option Handle) : Prop where
  record : heap.Record Registry.arrayClass array.handle elements.length.toUInt64 capacity.toUInt64
    storage
  small : capacity < 2 ^ 32
  fits : elements.length ≤ capacity
  bare : storage = none ↔ capacity = 0
  backed : ∀ backing, storage = some backing → heap.Runs backing (padded elements capacity)

variable {heap next : Heap} {array : RefArray} {elements : List (Option Handle)} {capacity : Nat}
  {storage : Option Handle}

namespace Lists

/-- The objects that an array consists of. -/
def parts (array : RefArray) (storage : Option Handle) : List Handle :=
  array.handle :: storage.toList

section

variable (lists : heap.Lists array elements capacity storage)

include lists

/-- An array shows the same wherever its parts do. -/
theorem congr (same : ∀ handle ∈ parts array storage, next.view? handle = heap.view? handle) :
    next.Lists array elements capacity storage where
  record := lists.record.congr (same _ List.mem_cons_self)
  small := lists.small
  fits := lists.fits
  bare := lists.bare
  backed backing here := by
    subst here
    exact (lists.backed backing rfl).congr (same _ (by simp [parts]))

omit lists in
/-- An array shows the same where everything but new objects is left alone, as long as it is
live. -/
theorem of_leaves {new : List Handle} (lists : heap.Lists array elements capacity storage)
    (leaves : heap.Leaves next new []) (old : ∀ handle ∈ parts array storage, handle ∉ new)
    (live : next.isLive array.handle = true) : next.Lists array elements capacity storage := by
  have same := leaves.views array.handle (old _ List.mem_cons_self) List.not_mem_nil live
  apply lists.congr
  intro handle member
  rcases List.mem_cons.mp member with rfl | stored
  · exact same
  · have alive := (lists.record.congr same).isLive_storage (Option.mem_toList.mp stored)
    exact leaves.views handle (old _ member) List.not_mem_nil alive

/-- The array and its backing run are different objects. -/
theorem apart {backing : Handle} (here : storage = some backing) : array.handle ≠ backing :=
  ne_of_classOf lists.record.classOf (lists.backed backing here).classOf (by decide)

theorem isLive : ∀ handle ∈ parts array storage, heap.isLive handle = true := by
  intro handle member
  rcases List.mem_cons.mp member with rfl | member
  · exact lists.record.isLive
  · exact lists.record.isLive_storage (Option.mem_toList.mp member)

/-- The parts of an array are an array and a vector. -/
theorem classOf_part {handle : Handle}
    (part : handle ∈ Lists.parts array storage) :
    heap.classOf handle = .ok (if handle = array.handle then .array else .vector) := by
  rcases List.mem_cons.mp part with rfl | stored
  · rw [if_pos rfl]
    exact lists.record.classOf
  · have here := Option.mem_toList.mp stored
    rw [if_neg (lists.apart here).symm]
    exact (lists.backed handle here).classOf

/-- The parts of an array are sane. -/
theorem sane {handle : Handle}
    (part : handle ∈ Lists.parts array storage) {view : View}
    (seen : heap.view? handle = some view) :
    view.Sane := by
  rcases List.mem_cons.mp part with rfl | stored
  · exact lists.record.sane (Or.inl rfl) seen
  · exact (lists.backed handle (Option.mem_toList.mp stored)).sane seen

/-- The elements are live. -/
theorem present : ∀ element ∈ elements, heap.Present element := by
  intro element member
  cases storage with
  | none =>
      have empty := lists.fits
      rw [lists.bare.mp rfl, Nat.le_zero, List.length_eq_zero_iff] at empty
      rw [empty] at member
      cases member
  | some backing =>
      exact (lists.backed backing rfl).present element (List.mem_append_left _ member)

theorem small_length : elements.length < 2 ^ 32 :=
  Nat.lt_of_le_of_lt lists.fits lists.small

/-- An array with room has a backing run. -/
theorem exists_backing (room : 0 < capacity) : ∃ backing, storage = some backing := by
  cases storage with
  | none =>
      rw [lists.bare.mp rfl] at room
      cases room
  | some backing => exact ⟨backing, rfl⟩

/-! ### Questions -/

theorem lengthWord : array.lengthWord heap = .ok elements.length.toUInt64 :=
  lists.record.readFirst (Or.inl rfl)

theorem length : array.length heap = .ok elements.length := by
  unfold RefArray.length
  rw [lists.lengthWord]
  exact congrArg Except.ok (toNat_toUInt64 lists.small_length)

theorem isEmpty : array.isEmpty heap = .ok elements.isEmpty := by
  unfold RefArray.isEmpty
  rw [lists.lengthWord]
  change Except.ok (elements.length.toUInt64 == 0) = _
  congr 1
  rw [Bool.eq_iff_iff, beq_iff_eq, toUInt64_eq_zero_iff lists.small_length, List.isEmpty_iff,
    List.length_eq_zero_iff]

theorem capacityWord : array.capacityWord heap = .ok capacity.toUInt64 :=
  lists.record.readSecond (Or.inl rfl)

theorem capacity_eq : array.capacity heap = .ok capacity := by
  unfold RefArray.capacity
  rw [lists.capacityWord]
  exact congrArg Except.ok (toNat_toUInt64 lists.small)

theorem readBacking : heap.readRef array.handle RefArray.backingOffset = .ok storage :=
  lists.record.readStorage (Or.inl rfl)

theorem backing {backing : Handle} (here : storage = some backing) :
    array.backing heap = .ok backing := by
  unfold RefArray.backing
  rw [lists.readBacking, here]
  rfl

/-- An array answers for the run behind an element, or tells that there is no such element. -/
theorem backingAt (index : Nat) :
    (∃ backing, storage = some backing ∧ index < elements.length ∧
        array.backingAt heap index = .ok backing) ∨
      elements.length ≤ index ∧
        array.backingAt heap index = .error (.indexOutOfRange index elements.length) := by
  unfold RefArray.backingAt
  rw [lists.length]
  dsimp only [bind, Except.bind]
  by_cases inside : index < elements.length
  · left
    obtain ⟨backing, here⟩ :=
      lists.exists_backing (Nat.lt_of_lt_of_le (Nat.zero_lt_of_lt inside) lists.fits)
    rw [if_pos inside]
    exact ⟨backing, here, inside, lists.backing here⟩
  · right
    rw [if_neg inside]
    exact ⟨Nat.le_of_not_lt inside, rfl⟩

theorem get (index : Nat) :
    array.get heap index =
      match elements[index]? with
      | some element => .ok element
      | none => .error (.indexOutOfRange index elements.length) := by
  unfold RefArray.get
  rcases lists.backingAt index with ⟨backing, here, inside, found⟩ | ⟨outside, refused⟩
  · have element := List.getElem?_eq_getElem inside
    rw [found, element]
    exact (lists.backed backing here).get ((getElem?_padded inside).trans element)
  · rw [refused, List.getElem?_eq_none outside]
    rfl

/-- The slots behind the elements are absent. -/
theorem runGet_behind {backing : Handle} (here : storage = some backing) {index : Nat}
    (behind : elements.length ≤ index) (inside : index < capacity) :
    heap.runGet backing index = .ok none :=
  (lists.backed backing here).get (getElem?_padded_behind behind inside)

omit lists in
/-- The elements of a run are read in order. -/
theorem elementsFrom_eq {backing : Handle} {slots : List (Option Handle)}
    (runs : heap.Runs backing slots) (count index : Nat) (inside : index + count ≤ slots.length) :
    RefArray.elementsFrom heap backing index count = .ok ((slots.drop index).take count) := by
  induction count generalizing index with
  | zero => rfl
  | succ count ih =>
      have here : index < slots.length := by omega
      unfold RefArray.elementsFrom
      rw [runs.get (List.getElem?_eq_getElem here), ih (index + 1) (by omega),
        List.drop_eq_getElem_cons here, List.take_succ_cons]
      rfl

theorem toList : array.toList heap = .ok elements := by
  unfold RefArray.toList
  rw [lists.length]
  dsimp only [bind, Except.bind]
  by_cases empty : elements.length = 0
  · rw [if_pos empty, List.length_eq_zero_iff.mp empty]
    rfl
  · rw [if_neg empty]
    obtain ⟨backing, here⟩ := lists.exists_backing
      (Nat.lt_of_lt_of_le (Nat.pos_of_ne_zero empty) lists.fits)
    rw [lists.backing here]
    have enough : 0 + elements.length ≤ (padded elements capacity).length := by
      rw [length_padded lists.fits, Nat.zero_add]
      exact lists.fits
    change RefArray.elementsFrom heap backing 0 elements.length = _
    rw [elementsFrom_eq (lists.backed backing here) _ _ enough, List.drop_zero]
    exact congrArg Except.ok (List.take_left)

end

/-! ### Writing -/

section

variable (lists : heap.Lists array elements capacity storage) (sound : heap.Sound)

include lists sound

/-- A slot of the backing run is written, and the rest of the array is as it was. -/
theorem writeSlot {backing : Handle} (here : storage = some backing) {index : Nat}
    {value : Option Handle} (inside : index < capacity) (present : heap.Present value) :
    ∃ next, (runSet backing index value).run heap = (.ok ⟨⟩, next) ∧ heap.Alters next [backing] ∧
      next.Record Registry.arrayClass array.handle elements.length.toUInt64 capacity.toUInt64
        storage ∧
      next.Runs backing ((padded elements capacity).set index value) := by
  have within : index < (padded elements capacity).length := by
    rw [length_padded lists.fits]
    exact inside
  obtain ⟨next, ran, alters, runs⟩ := (lists.backed backing here).set sound within present
  have same := alters.views array.handle (by simp [lists.apart here])
  exact ⟨next, ran, alters, lists.record.congr same, runs⟩

/-- An element is replaced. -/
theorem set {index : Nat} (inside : index < elements.length) {value : Option Handle}
    (present : heap.Present value) :
    ∃ next, (array.set index value).run heap = (.ok ⟨⟩, next) ∧
      heap.Alters next storage.toList ∧
      next.Lists array (elements.set index value) capacity storage := by
  unfold RefArray.set
  rw [HeapM.run_bind, HeapM.run_ask]
  rcases lists.backingAt index with ⟨backing, here, _, found⟩ | ⟨outside, _⟩
  · rw [found]
    dsimp only
    obtain ⟨next, ran, alters, record, runs⟩ :=
      lists.writeSlot sound here (Nat.lt_of_lt_of_le inside lists.fits) present
    subst here
    refine ⟨next, ran, alters, ?_⟩
    rw [set_padded inside] at runs
    refine ⟨by rwa [List.length_set], lists.small, by rw [List.length_set]; exact lists.fits,
      lists.bare, ?_⟩
    rintro other same
    cases same
    exact runs
  · exact absurd inside (Nat.not_lt.mpr outside)

/-- A stale value is not stored. -/
theorem set_stale {index : Nat} (inside : index < elements.length) {value : Handle}
    (stale : heap.isLive value = false) :
    (array.set index (some value)).run heap = (.error (.staleHandle value), heap) := by
  unfold RefArray.set
  rw [HeapM.run_bind, HeapM.run_ask]
  rcases lists.backingAt index with ⟨backing, here, _, found⟩ | ⟨outside, _⟩
  · rw [found]
    have within : index < (padded elements capacity).length := by
      rw [length_padded lists.fits]
      exact Nat.lt_of_lt_of_le inside lists.fits
    exact (lists.backed backing here).set_stale sound within stale
  · exact absurd inside (Nat.not_lt.mpr outside)

omit sound in
/-- There is nothing to replace behind the elements. -/
theorem set_outside {index : Nat} (outside : elements.length ≤ index) (value : Option Handle) :
    (array.set index value).run heap =
      (.error (.indexOutOfRange index elements.length), heap) := by
  unfold RefArray.set
  rw [HeapM.run_bind, HeapM.run_ask]
  rcases lists.backingAt index with ⟨_, _, inside, _⟩ | ⟨_, refused⟩
  · exact absurd inside (Nat.not_lt.mpr outside)
  · rw [refused]

omit sound in
/-- An array whose length and slots have been written shows what has been written. -/
theorem rewritten {others : List (Option Handle)} {backing : Handle} (here : storage = some backing)
    (record : next.Record Registry.arrayClass array.handle others.length.toUInt64
      capacity.toUInt64 storage)
    (fits : others.length ≤ capacity) (runs : next.Runs backing (padded others capacity)) :
    next.Lists array others capacity storage := by
  refine ⟨record, lists.small, fits, lists.bare, ?_⟩
  intro other again
  cases here.symm.trans again
  exact runs

/-- Where there is room, a value comes behind the elements. -/
theorem append (room : elements.length < capacity) {value : Option Handle}
    (present : heap.Present value) :
    ∃ next, (array.append elements.length.toUInt64 value).run heap = (.ok ⟨⟩, next) ∧
      heap.Alters next (parts array storage) ∧
      next.Lists array (elements ++ [value]) capacity storage := by
  obtain ⟨backing, here⟩ := lists.exists_backing (Nat.zero_lt_of_lt room)
  obtain ⟨written, ran, alters, record, runs⟩ := lists.writeSlot sound here room present
  obtain ⟨next, wrote, altersToo, recordToo⟩ := record.writeFirst (Or.inl rfl)
    (alters.sound sound) (elements.length.toUInt64 + 1)
  unfold RefArray.append
  rw [HeapM.run_bind, HeapM.run_ask, lists.backing here]
  dsimp only
  rw [HeapM.run_bind, toNat_toUInt64 lists.small_length, ran]
  refine ⟨next, wrote, (alters.trans altersToo).mono ?_, ?_⟩
  · subst here
    simp [parts]
  have longer : (elements ++ [value]).length.toUInt64 = elements.length.toUInt64 + 1 := by
    rw [List.length_append, List.length_singleton]
    simp
  have same := altersToo.views backing (by simp [(lists.apart here).symm])
  rw [set_padded_push room] at runs
  refine lists.rewritten here (by rw [longer]; exact recordToo) ?_ (runs.congr same)
  rw [List.length_append, List.length_singleton]
  exact room

/-- A stale value is not appended. -/
theorem append_stale (room : elements.length < capacity) {value : Handle}
    (stale : heap.isLive value = false) :
    (array.append elements.length.toUInt64 (some value)).run heap =
      (.error (.staleHandle value), heap) := by
  obtain ⟨backing, here⟩ := lists.exists_backing (Nat.zero_lt_of_lt room)
  have within : elements.length < (padded elements capacity).length := by
    rw [length_padded lists.fits]
    exact room
  unfold RefArray.append
  rw [HeapM.run_bind, HeapM.run_ask, lists.backing here]
  dsimp only
  rw [HeapM.run_bind, toNat_toUInt64 lists.small_length,
    (lists.backed backing here).set_stale sound within stale]

end

/-- The last element is taken away. -/
theorem pop {last : Option Handle}
    (lists : heap.Lists array (elements ++ [last]) capacity storage) (sound : heap.Sound) :
    ∃ next, array.pop.run heap = (.ok last, next) ∧ heap.Alters next (parts array storage) ∧
      next.Lists array elements capacity storage := by
  have long : (elements ++ [last]).length = elements.length + 1 := by
    rw [List.length_append, List.length_singleton]
  have small := lists.small_length
  have fits := lists.fits
  rw [long] at small fits
  have word : (elements ++ [last]).length.toUInt64 - 1 = elements.length.toUInt64 := by
    rw [long]
    simp
  obtain ⟨backing, here⟩ := lists.exists_backing (Nat.zero_lt_of_lt fits)
  have runs := lists.backed backing here
  have element : (padded (elements ++ [last]) capacity)[elements.length]? = some last := by
    rw [getElem?_padded (by rw [long]; exact Nat.lt_succ_self _), List.getElem?_append_right
      (Nat.le_refl _), Nat.sub_self]
    rfl
  obtain ⟨written, ran, alters, record, shorter⟩ := lists.writeSlot sound here fits
    (by simp [Present] : heap.Present none)
  obtain ⟨next, wrote, altersToo, recordToo⟩ := record.writeFirst (Or.inl rfl)
    (alters.sound sound) elements.length.toUInt64
  refine ⟨next, ?_, (alters.trans altersToo).mono ?_, ?_⟩
  · unfold RefArray.pop
    rw [HeapM.run_bind, HeapM.run_ask, lists.lengthWord]
    dsimp only
    have filled : (elements ++ [last]).length.toUInt64 ≠ 0 := by
      rw [Ne, toUInt64_eq_zero_iff lists.small_length, long]
      exact Nat.succ_ne_zero _
    rw [if_neg filled, word, HeapM.run_bind, HeapM.run_ask, lists.backing here]
    dsimp only
    rw [HeapM.run_bind, HeapM.run_ask, toNat_toUInt64 (by omega), runs.get element]
    dsimp only
    rw [HeapM.run_bind, ran]
    dsimp only
    have wroteLength : (writeWord array.handle RefArray.lengthOffset
        elements.length.toUInt64).run written = (.ok ⟨⟩, next) := wrote
    rw [HeapM.run_bind, wroteLength]
    rfl
  · subst here
    simp [parts]
  have same := altersToo.views backing (by simp [(lists.apart here).symm])
  rw [set_padded_pop last lists.fits] at shorter
  exact lists.rewritten here recordToo (Nat.le_of_lt fits) (shorter.congr same)

/-- There is nothing to take away from an empty list. -/
theorem pop_empty (lists : heap.Lists array [] capacity storage) :
    array.pop.run heap = (.error (.indexOutOfRange 0 0), heap) := by
  unfold RefArray.pop
  rw [HeapM.run_bind, HeapM.run_ask, lists.lengthWord]
  rfl

/-- Erasing makes the slots absent one by one. -/
theorem run_eraseFrom {backing : Handle} {slots : List (Option Handle)}
    (runs : heap.Runs backing slots) (sound : heap.Sound) (count index : Nat)
    (inside : index + count ≤ slots.length) :
    ∃ next, (RefArray.eraseFrom backing index count).run heap = (.ok ⟨⟩, next) ∧
      heap.Alters next [backing] ∧ next.Runs backing
        (slots.take index ++ List.replicate count none ++ slots.drop (index + count)) := by
  induction count generalizing heap index slots with
  | zero =>
      refine ⟨heap, rfl, (Alters.refl heap).mono (by simp), ?_⟩
      rw [List.replicate_zero, List.append_nil, Nat.add_zero, List.take_append_drop]
      exact runs
  | succ count ih =>
      obtain ⟨written, ran, alters, erased⟩ := runs.set sound (show index < slots.length by omega)
        (by simp [Present] : heap.Present none)
      obtain ⟨next, rest, altersToo, gone⟩ := ih erased (alters.sound sound) (index + 1)
        (by rw [List.length_set]; omega)
      refine ⟨next, ?_, (alters.trans altersToo).mono (by simp), ?_⟩
      · unfold RefArray.eraseFrom
        rw [HeapM.run_bind, ran]
        exact rest
      · have front : (slots.set index none).take (index + 1) = slots.take index ++ [none] := by
          rw [List.take_set, List.take_add_one, List.getElem?_eq_getElem (by omega),
            Option.toList_some, List.set_append_right _ _ (by simp)]
          simp [List.length_take, Nat.min_eq_left (show index ≤ slots.length by omega)]
        have back : (slots.set index none).drop (index + 1 + count) =
            slots.drop (index + (count + 1)) := by
          rw [List.drop_set_of_lt (by omega)]
          congr 1
          omega
        rw [front, back, List.append_assoc (slots.take index), List.singleton_append,
          ← List.replicate_succ] at gone
        exact gone

/-- All elements are taken away. -/
theorem clear (lists : heap.Lists array elements capacity storage) (sound : heap.Sound) :
    ∃ next, array.clear.run heap = (.ok ⟨⟩, next) ∧ heap.Alters next (parts array storage) ∧
      next.Lists array [] capacity storage := by
  unfold RefArray.clear
  rw [HeapM.run_bind, HeapM.run_ask, lists.length]
  dsimp only
  by_cases empty : elements.length = 0
  · rw [if_neg (by omega)]
    obtain ⟨next, wrote, alters, record⟩ := lists.record.writeFirst (Or.inl rfl) sound 0
    refine ⟨next, wrote, alters.mono (by simp [parts]), ?_⟩
    cases List.length_eq_zero_iff.mp empty
    refine ⟨record, lists.small, lists.fits, lists.bare, ?_⟩
    intro backing here
    exact (lists.backed backing here).congr
      (alters.views backing (by simp [(lists.apart here).symm]))
  · rw [if_pos (Nat.pos_of_ne_zero empty)]
    obtain ⟨backing, here⟩ := lists.exists_backing
      (Nat.lt_of_lt_of_le (Nat.pos_of_ne_zero empty) lists.fits)
    have enough : 0 + elements.length ≤ (padded elements capacity).length := by
      rw [length_padded lists.fits, Nat.zero_add]
      exact lists.fits
    obtain ⟨erased, ran, alters, runs⟩ :=
      run_eraseFrom (lists.backed backing here) sound elements.length 0 enough
    have same := alters.views array.handle (by simp [lists.apart here])
    obtain ⟨next, wrote, altersToo, record⟩ :=
      (lists.record.congr same).writeFirst (Or.inl rfl) (alters.sound sound) 0
    refine ⟨next, ?_, (alters.trans altersToo).mono ?_, ?_⟩
    · rw [HeapM.run_bind, HeapM.run_ask, lists.backing here]
      dsimp only
      rw [HeapM.run_bind, ran]
      exact wrote
    · subst here
      simp [parts]
    have absent : (padded elements capacity).take 0 ++ List.replicate elements.length none ++
        (padded elements capacity).drop (0 + elements.length) = padded [] capacity := by
      unfold padded
      rw [List.take_zero, List.nil_append, Nat.zero_add, List.drop_left, List.length_nil,
        List.nil_append, Nat.sub_zero, List.replicate_append_replicate,
        Nat.add_sub_cancel' lists.fits]
    rw [absent] at runs
    have still := altersToo.views backing (by simp [(lists.apart here).symm])
    exact lists.rewritten here record (Nat.zero_le _) (runs.congr still)

end Lists

end Heap

end CompactingHeap
