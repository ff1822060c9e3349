import Mathlib.Data.Nat.Log
import Mathlib.Order.Bounds.Basic
import CompactingHeap.Proofs.GrowableLists
import CompactingHeap.Proofs.HoldBalance
import CompactingHeap.Proofs.Reallocations

/-!
# Arrays grow logarithmically

The tally of an empty array that is made and changed counts how often it grows and how many slots
growing hands on to be copied.  Capacities are doubled from four on and never given back, so the
largest length alone determines the capacity and the number of growths, whatever order the changes
come in and whatever goes on in the heap meanwhile, and less has been copied than there is room
for.
-/

namespace CompactingHeap

open Heap

namespace RefArray

/-! ## Slots that are copied -/

/-- Copy the elements into a new run, and tell how many slots have been handed to `copyRun`. -/
def copyElements (array : RefArray) (length : UInt64) (grown : Handle) : HeapM Nat := do
  if 0 < length then
    let count := length.toNat
    let old ← HeapM.ask array.backing
    Heap.copyRun old grown count
    return count
  else return 0

/-- A growth that also tells how many slots it has copied. -/
def growCopying (array : RefArray) (length : UInt64) : HeapM Nat := do
  let oldCapacity ← HeapM.ask array.capacityWord
  let capacity := max (oldCapacity * 2) minCapacity
  let grown ← Heap.allocVector capacity.toNat
  let copied ← array.copyElements length grown
  array.install capacity grown
  return copied

/-- A push that also tells how many slots its growth has copied. -/
def pushCopying (array : RefArray) (value : Option Handle) : HeapM Nat := do
  let length ← HeapM.ask array.lengthWord
  let capacity ← HeapM.ask array.capacityWord
  let copied ←
    if length = capacity then
      Heap.withHeld (array.handle :: value.toList) (array.growCopying length)
    else pure 0
  array.append length value
  return copied

theorem moveTo_eq (array : RefArray) (length capacity : UInt64) (grown : Handle) :
    array.moveTo length capacity grown =
      array.copyElements length grown >>= fun _ => array.install capacity grown := by
  unfold moveTo copyElements
  split
  · simp only [bind_assoc, pure_bind]
  · rfl

/-- Growing does the same whether it tells or not. -/
theorem grow_eq_growCopying (array : RefArray) (length : UInt64) :
    array.grow length = array.growCopying length >>= fun _ => pure () := by
  rw [grow_eq]
  unfold growCopying
  simp only [bind_assoc, pure_bind, bind_pure_unit]
  congr 1
  funext oldCapacity
  congr 1
  funext grown
  exact array.moveTo_eq length _ grown

/-- What a program tells can be forgotten while objects are held, or later. -/
theorem withHeld_forget (handles : List Handle) (body : HeapM Nat) :
    Heap.withHeld handles (body >>= fun _ => pure ()) =
      Heap.withHeld handles body >>= fun _ => (pure () : HeapM PUnit) := by
  unfold Heap.withHeld
  rw [bind_assoc]
  congr 1
  funext _ heap
  change HeapM.run _ heap = HeapM.run _ heap
  rw [HeapM.run_bind, HeapM.run_bind, HeapM.run_bind, HeapM.run_attempt, HeapM.run_attempt,
    HeapM.run_bind]
  rcases body.run heap with ⟨error | copied, after⟩
  all_goals
    dsimp only [HeapM.run_pure]
    rw [HeapM.run_bind, HeapM.run_bind]
    rcases (releaseAll handles).run after with ⟨_ | _, _⟩ <;> rfl

/-- Pushing does the same whether it tells or not. -/
theorem push_eq_pushCopying (array : RefArray) (value : Option Handle) :
    array.push value = array.pushCopying value >>= fun _ => pure () := by
  rw [push_eq]
  unfold pushCopying
  simp only [bind_assoc]
  congr 1
  funext length
  congr 1
  funext capacity
  split
  · rw [grow_eq_growCopying, withHeld_forget]
    simp only [bind_assoc, pure_bind, bind_pure_unit]
  · simp only [bind_assoc, pure_bind, bind_pure_unit]

section

variable {array : RefArray} {heap next : Heap} {count : Nat}

/-- A program that succeeds while objects are held has succeeded with the same value. -/
theorem exists_of_withHeld {α : Type} {handles : List Handle} {body : HeapM α} {value : α}
    (ran : (Heap.withHeld handles body).run heap = (.ok value, next)) :
    ∃ held after, body.run held = (.ok value, after) := by
  obtain ⟨_, held, _, ran⟩ := HeapM.run_bind_eq_ok ran
  obtain ⟨result, after, attempted, ran⟩ := HeapM.run_bind_eq_ok ran
  rw [HeapM.run_attempt] at attempted
  obtain ⟨same, rfl⟩ := Prod.mk.inj attempted
  refine ⟨held, _, Prod.ext ?_ rfl⟩
  cases result with
  | error error =>
      obtain ⟨_, _, _, threw⟩ := HeapM.run_bind_eq_ok ran
      cases threw
  | ok told =>
      obtain ⟨_, _, _, returned⟩ := HeapM.run_bind_eq_ok ran
      cases returned
      exact Except.ok.inj same

/-- A growth copies as many slots as the array has elements. -/
theorem copied_of_growCopying {length : UInt64}
    (ran : (array.growCopying length).run heap = (.ok count, next)) : count = length.toNat := by
  obtain ⟨oldCapacity, _, _, ran⟩ := HeapM.run_bind_eq_ok ran
  obtain ⟨grown, _, _, ran⟩ := HeapM.run_bind_eq_ok ran
  obtain ⟨_, _, copies, ran⟩ := HeapM.run_bind_eq_ok ran
  obtain ⟨_, _, _, told⟩ := HeapM.run_bind_eq_ok ran
  cases told
  unfold copyElements at copies
  split at copies
  · obtain ⟨_, _, _, copies⟩ := HeapM.run_bind_eq_ok copies
    obtain ⟨_, _, _, told⟩ := HeapM.run_bind_eq_ok copies
    cases told
    rfl
  · next empty =>
    cases copies
    have none : length = 0 := UInt64.le_antisymm (UInt64.not_lt.mp empty) UInt64.zero_le
    rw [none]
    rfl

/-- A push copies the elements of a full array, and otherwise nothing. -/
theorem copied_of_pushCopying {value : Option Handle} {length capacity : UInt64}
    (counted : array.lengthWord heap = .ok length) (shown : array.capacityWord heap = .ok capacity)
    (ran : (array.pushCopying value).run heap = (.ok count, next)) :
    count = if length = capacity then length.toNat else 0 := by
  obtain ⟨_, same, ran⟩ := HeapM.run_ask_bind_eq_ok ran
  obtain rfl := Except.ok.inj (counted.symm.trans same)
  obtain ⟨_, same, ran⟩ := HeapM.run_ask_bind_eq_ok ran
  obtain rfl := Except.ok.inj (shown.symm.trans same)
  split at ran
  · next full =>
    obtain ⟨_, _, grows, ran⟩ := HeapM.run_bind_eq_ok ran
    obtain ⟨_, _, _, told⟩ := HeapM.run_bind_eq_ok ran
    cases told
    obtain ⟨held, after, grows⟩ := exists_of_withHeld grows
    rw [if_pos full]
    exact copied_of_growCopying grows
  · next room =>
    obtain ⟨_, _, none, ran⟩ := HeapM.run_bind_eq_ok ran
    obtain ⟨_, _, _, told⟩ := HeapM.run_bind_eq_ok ran
    cases told
    cases none
    rw [if_neg room]

/-- How many slots a change that succeeds has copied. -/
def Change.copied (array : RefArray) (heap : Heap) : Change → Nat
  | push value => ((array.pushCopying value).run heap).1.toOption.getD 0
  | _ => 0

theorem copied_of_error {change : Change} {error : HeapError}
    (failed : (change.program array).run heap = (.error error, next)) :
    change.copied array heap = 0 := by
  cases change with
  | push value =>
      change (array.push value >>= fun _ => pure none).run heap = _ at failed
      rw [push_eq_pushCopying, bind_assoc, HeapM.run_bind] at failed
      change ((array.pushCopying value).run heap).1.toOption.getD 0 = 0
      rcases told : (array.pushCopying value).run heap with ⟨_ | count, _⟩
      · rfl
      · rw [told] at failed
        cases failed
  | _ => rfl

theorem copied_of_ok {value : Option Handle} {length capacity : UInt64} {answer : Option Handle}
    (counted : array.lengthWord heap = .ok length) (shown : array.capacityWord heap = .ok capacity)
    (ran : ((Change.push value).program array).run heap = (.ok answer, next)) :
    (Change.push value).copied array heap = if length = capacity then length.toNat else 0 := by
  change (array.push value >>= fun _ => pure none).run heap = _ at ran
  rw [push_eq_pushCopying, bind_assoc] at ran
  obtain ⟨count, middle, told, _⟩ := HeapM.run_bind_eq_ok ran
  change ((array.pushCopying value).run heap).1.toOption.getD 0 = _
  rw [told]
  exact copied_of_pushCopying counted shown told

end

/-! ## Tallies -/

/-- What an array shows of its size. -/
structure Extent where
  length : Nat
  capacity : Nat

/-- What has come about since an array was made. -/
structure Tally where
  /-- The largest length of the array. -/
  largest : Nat := 0
  /-- How often the array has grown. -/
  growths : Nat := 0
  /-- How many slots have been copied in growing. -/
  copied : Nat := 0

namespace Tally

/-- A change is noted: the array has grown if the capacity is not what it was. -/
def note (tally : Tally) (before after : Extent) (copied : Nat) : Tally where
  largest := max tally.largest after.length
  growths := if before.capacity = after.capacity then tally.growths else tally.growths + 1
  copied := tally.copied + copied

/-- No array has grown yet, or the capacity is the power of two that the growths have led to, all
smaller capacities have been copied, and the last growth was needed. -/
inductive Doubled (tally : Tally) (capacity : Nat) : Prop
  | fresh : capacity = 0 → tally.growths = 0 → tally.copied = 0 → Doubled tally capacity
  | grown : capacity = 2 ^ (tally.growths + 1) → tally.copied + 4 = capacity →
      (tally.growths = 1 ∨ 2 ^ tally.growths < tally.largest) → 1 ≤ tally.growths →
      Doubled tally capacity

/-- The tally fits an array of this extent. -/
structure Fits (tally : Tally) (extent : Extent) : Prop where
  length_le : extent.length ≤ tally.largest
  largest_le : tally.largest ≤ extent.capacity
  doubled : tally.Doubled extent.capacity

variable {tally : Tally} {length capacity more : Nat}

theorem fits_empty : ({} : Tally).Fits ⟨0, 0⟩ :=
  ⟨Nat.le_refl 0, Nat.le_refl 0, Doubled.fresh rfl rfl rfl⟩

/-- Another length that there is room for fits. -/
theorem Fits.kept (fits : tally.Fits ⟨length, capacity⟩) (room : more ≤ capacity) :
    (tally.note ⟨length, capacity⟩ ⟨more, capacity⟩ 0).Fits ⟨more, capacity⟩ where
  length_le := Nat.le_max_right _ _
  largest_le := max_le fits.largest_le room
  doubled := by
    have same : (tally.note ⟨length, capacity⟩ ⟨more, capacity⟩ 0).growths = tally.growths :=
      if_pos rfl
    cases fits.doubled with
    | fresh none growths copied => exact Doubled.fresh none (same.trans growths) copied
    | grown power copied needed some =>
        apply Doubled.grown
        · rw [same, power]
        · exact copied
        · rw [same]
          exact needed.imp_right fun less => less.trans_le (Nat.le_max_left _ _)
        · rw [same]
          exact some

/-- A full array that has copied its elements into twice the capacity and got one more fits. -/
theorem Fits.grown (fits : tally.Fits ⟨capacity, capacity⟩) :
    (tally.note ⟨capacity, capacity⟩ ⟨capacity + 1, max (capacity * 2) 4⟩ capacity).Fits
      ⟨capacity + 1, max (capacity * 2) 4⟩ := by
  have different : capacity ≠ max (capacity * 2) 4 := by omega
  have largest : tally.largest = capacity := Nat.le_antisymm fits.largest_le fits.length_le
  generalize noted : tally.note ⟨capacity, capacity⟩ ⟨capacity + 1, max (capacity * 2) 4⟩ capacity =
    later
  obtain ⟨most, growths, copied⟩ : later.largest = capacity + 1 ∧
      later.growths = tally.growths + 1 ∧ later.copied = tally.copied + capacity := by
    rw [← noted]
    refine ⟨?_, if_neg different, rfl⟩
    change max tally.largest (capacity + 1) = capacity + 1
    omega
  refine ⟨most.ge, by rw [most]; change capacity + 1 ≤ max (capacity * 2) 4; omega, ?_⟩
  cases fits.doubled with
  | fresh none before nothing =>
      obtain rfl : capacity = 0 := none
      have once : later.growths = 1 := by rw [growths, before]
      have still : later.copied = 0 := by rw [copied, nothing]
      exact Doubled.grown (by rw [once]; rfl) (by rw [still]; rfl) (Or.inl once) once.ge
  | grown power before needed some =>
      have power : capacity = 2 ^ (tally.growths + 1) := power
      have before : tally.copied + 4 = capacity := before
      have twice : max (capacity * 2) 4 = capacity * 2 := by omega
      refine Doubled.grown ?_ ?_ (Or.inr ?_) (by omega)
      · change max (capacity * 2) 4 = _
        rw [twice, growths, Nat.pow_succ, ← power]
      · change _ = max (capacity * 2) 4
        omega
      · rw [growths, ← power, most]
        exact Nat.lt_succ_self capacity

/-- How a change moves the extent of an array, and what it copies.  There is room for the new
length, or a full array has grown for one more element. -/
inductive Moves : Extent → Extent → Nat → Prop
  | kept {length capacity more : Nat} : more ≤ capacity →
      Moves ⟨length, capacity⟩ ⟨more, capacity⟩ 0
  | grown (capacity : Nat) :
      Moves ⟨capacity, capacity⟩ ⟨capacity + 1, max (capacity * 2) 4⟩ capacity

/-- A tally that fits before a change fits after it when the change has been noted. -/
theorem Fits.note {before after : Extent} {copied : Nat} (fits : tally.Fits before)
    (moves : Moves before after copied) : (tally.note before after copied).Fits after := by
  cases moves with
  | kept room => exact fits.kept room
  | grown capacity => exact fits.grown

/-! ## What the largest length determines -/

/-- The power of two at which a number arrives is the least that is no smaller. -/
theorem isLeast_pow_clog (number : Nat) :
    IsLeast {power | (∃ exponent, power = 2 ^ exponent) ∧ number ≤ power}
      (2 ^ Nat.clog 2 number) := by
  refine ⟨⟨⟨_, rfl⟩, Nat.le_pow_clog (by decide) number⟩, ?_⟩
  rintro power ⟨⟨exponent, rfl⟩, enough⟩
  exact Nat.pow_le_pow_right (by decide) (Nat.clog_le_of_le_pow enough)

/-- The largest length determines how often a fitting array has grown, and its capacity. -/
theorem Fits.growths_capacity {extent : Extent} (fits : tally.Fits extent)
    (some : 1 ≤ tally.largest) :
    tally.growths = max 1 (Nat.clog 2 tally.largest - 1) ∧
      extent.capacity = max 4 (2 ^ Nat.clog 2 tally.largest) := by
  have largest_le := fits.largest_le
  cases fits.doubled with
  | fresh none _ _ => omega
  | grown power _ needed grew =>
      rw [power] at largest_le
      have upper := Nat.clog_le_of_le_pow largest_le
      rcases needed with once | needed
      · -- the first growth makes room for four
        rw [once] at upper power
        have small : 2 ^ Nat.clog 2 tally.largest ≤ 2 ^ 2 := Nat.pow_le_pow_right (by decide) upper
        exact ⟨by omega, by omega⟩
      · have lower := (Nat.lt_clog_iff_pow_lt (by decide)).mpr needed
        have same : Nat.clog 2 tally.largest = tally.growths + 1 := by omega
        have four : 2 ^ 2 ≤ 2 ^ (tally.growths + 1) := Nat.pow_le_pow_right (by decide) (by omega)
        rw [same, power]
        exact ⟨by omega, by omega⟩

/-- Fewer slots have been copied than there is room for. -/
theorem Fits.copied_lt {extent : Extent} (fits : tally.Fits extent) (some : 1 ≤ tally.largest) :
    tally.copied < extent.capacity := by
  have largest_le := fits.largest_le
  cases fits.doubled with
  | fresh none _ _ => omega
  | grown _ copied _ _ => omega

end Tally

/-- The array shows the extent. -/
structure Shows (array : RefArray) (heap : Heap) (extent : Extent) : Prop where
  length : array.length heap = .ok extent.length
  capacity : array.capacity heap = .ok extent.capacity

end RefArray

/-! ## Changes of an array that owns its run -/

namespace Heap

variable {heap next : Heap} {array : RefArray} {elements : List (Option Handle)}
  {capacity : Nat} {storage : Option Handle}

/-- An array that owns its run shows nothing else. -/
theorem Owns.extent_eq (owns : heap.Owns array elements capacity storage) {extent : RefArray.Extent}
    (shows : array.Shows heap extent) : extent = ⟨elements.length, capacity⟩ := by
  have length := shows.length
  have room := shows.capacity
  rw [owns.lists.length] at length
  rw [owns.lists.capacity_eq] at room
  cases extent
  cases length
  cases room
  rfl

/-- A change that is no push keeps the capacity. -/
theorem Owns.capacityWord_change (owns : heap.Owns array elements capacity storage)
    (sound : heap.Sound) {change : RefArray.Change} (other : ∀ value, change ≠ .push value) :
    array.capacityWord ((change.program array).run heap).2 = .ok capacity.toUInt64 := by
  cases change with
  | push value => exact absurd rfl (other value)
  | pop =>
      change array.capacityWord (array.pop.run heap).2 = _
      rcases List.eq_nil_or_concat elements with rfl | ⟨front, last, rfl⟩
      · rw [owns.lists.pop_empty]
        exact owns.lists.capacityWord
      · rw [List.concat_eq_append] at owns
        obtain ⟨next, ran, _, lists⟩ := owns.lists.pop sound
        rw [ran]
        exact lists.capacityWord
  | set index value =>
      change array.capacityWord ((array.set index value >>= fun _ => pure none).run heap).2 = _
      rw [HeapM.run_bind]
      by_cases inside : index < elements.length
      · by_cases present : heap.Present value
        · obtain ⟨next, ran, _, lists⟩ := owns.lists.set sound inside present
          rw [ran]
          exact lists.capacityWord
        · obtain ⟨handle, rfl, stale⟩ :
              ∃ handle, value = some handle ∧ heap.isLive handle = false := by
            simpa [Present] using present
          rw [owns.lists.set_stale sound inside stale]
          exact owns.lists.capacityWord
      · rw [owns.lists.set_outside (Nat.le_of_not_lt inside)]
        exact owns.lists.capacityWord
  | clear =>
      change array.capacityWord ((array.clear >>= fun _ => pure none).run heap).2 = _
      rw [HeapM.run_bind]
      obtain ⟨next, ran, _, lists⟩ := owns.lists.clear sound
      rw [ran]
      exact lists.capacityWord

/-- Where a push leaves the heap. -/
theorem snd_run_push (array : RefArray) (value : Option Handle) (heap : Heap) :
    (((RefArray.Change.push value).program array).run heap).2 =
      ((array.push value).run heap).2 := by
  change ((array.push value >>= fun _ => pure none).run heap).2 = _
  rw [HeapM.run_bind]
  rcases (array.push value).run heap with ⟨_ | _, _⟩ <;> rfl

section

variable {change : RefArray.Change} {result : Except HeapError (Option Handle)}
    {roots : List Handle}
  {others : List (Option Handle)} {more : Nat} {held : Option Handle}
  (owns : heap.Owns array elements capacity storage)
  (assured : heap.Assured next roots) (ran : (change.program array).run heap = (result, next))

include owns assured ran

/-- A change keeps the capacity, or it is a push into a full array and takes the next one. -/
theorem Owns.capacity_change (after : next.Owns array others more held) :
    more = capacity ∨ (∃ value, change = .push value) ∧ elements.length = capacity ∧
      more = max (capacity * 2) 4 := by
  have kept (same : array.capacityWord next = .ok capacity.toUInt64) : more = capacity := by
    rw [after.lists.capacityWord] at same
    have word := Except.ok.inj same
    rwa [← UInt64.toNat_inj, toNat_toUInt64 after.lists.small,
      toNat_toUInt64 owns.lists.small] at word
  by_cases push : ∃ value, change = .push value
  · obtain ⟨value, rfl⟩ := push
    have left : ((array.push value).run heap).2 = next := by
      rw [← snd_run_push, ran]
    by_cases full : array.lengthWord heap = array.capacityWord heap
    · have resizes := array.resizes_push value (by rw [left]; exact assured)
      rcases pushes : (array.push value).run heap with ⟨outcome, last⟩
      rw [pushes] at resizes left
      obtain rfl : last = next := left
      cases resizes with
      | kept unresized =>
          have shown := unresized.capacity _ after.lists.capacityWord
          exact Or.inl (kept (after.lists.capacityWord.trans
            (shown.symm.trans owns.lists.capacityWord)))
      | grown resized _ =>
          obtain ⟨word, shown, grown⟩ := resized.capacity
          rw [owns.lists.capacityWord] at shown
          obtain rfl := Except.ok.inj shown
          rw [after.lists.capacityWord, grown_capacity owns.lists.small] at grown
          have word := Except.ok.inj grown
          have small := owns.lists.small
          rw [← UInt64.toNat_inj, toNat_toUInt64 after.lists.small,
            toNat_toUInt64_of_lt (by omega)] at word
          rw [owns.lists.lengthWord, owns.lists.capacityWord] at full
          have same := Except.ok.inj full
          rw [← UInt64.toNat_inj, toNat_toUInt64 owns.lists.small_length,
            toNat_toUInt64 owns.lists.small] at same
          exact Or.inr ⟨⟨value, rfl⟩, same, word⟩
    · have keeps := array.keepsSize_push assured.sound value full
      rw [left] at keeps
      exact Or.inl (kept (keeps.capacity.trans owns.lists.capacityWord))
  · have same := owns.capacityWord_change assured.sound fun value pushed => push ⟨value, pushed⟩
    rw [ran] at same
    exact Or.inl (kept same)

/-- A push that has gone well copies the elements if the array had to grow for it, and otherwise
nothing. -/
theorem Owns.moves_push {value answer : Option Handle} (shape : change = .push value)
    (pushed : result = .ok answer) (after : next.Owns array (elements ++ [value]) more held) :
    RefArray.Tally.Moves ⟨elements.length, capacity⟩ ⟨elements.length + 1, more⟩
      (change.copied array heap) := by
  subst shape pushed
  have copied := RefArray.copied_of_ok owns.lists.lengthWord owns.lists.capacityWord ran
  have longer : (elements ++ [value]).length = elements.length + 1 := List.length_append
  have fits : elements.length + 1 ≤ more := by
    rw [← longer]
    exact after.lists.fits
  rw [copied]
  rcases owns.capacity_change assured ran after with rfl | ⟨_, full, rfl⟩
  · have room : elements.length.toUInt64 ≠ more.toUInt64 := by
      rw [Ne, ← UInt64.toNat_inj, toNat_toUInt64 owns.lists.small_length,
        toNat_toUInt64 owns.lists.small]
      omega
    rw [if_neg room]
    exact .kept fits
  · rw [full, if_pos rfl, toNat_toUInt64 owns.lists.small]
    exact .grown capacity

/-- An array that owns its run owns one after a change, and its extent has moved. -/
theorem Owns.change_moves (room : heap.Holdable (change.held array)) :
    next.Sound ∧ next.classes.Numbered ∧ ∃ others more held, next.Owns array others more held ∧
      RefArray.Tally.Moves ⟨elements.length, capacity⟩ ⟨others.length, more⟩
        (change.copied array heap) := by
  obtain ⟨sound, numbered, changes⟩ := owns.change_of_run change (Or.inl room) ran assured
  refine ⟨sound, numbered, ?_⟩
  cases changes with
  | refused _ =>
      rw [RefArray.copied_of_error ran]
      exact ⟨elements, capacity, storage, owns, .kept owns.lists.fits⟩
  | @done more held _ _ after _ _ =>
      refine ⟨_, more, held, after, ?_⟩
      cases change with
      | push value =>
          have longer : (RefArray.Change.apply elements (.push value)).length =
              elements.length + 1 := List.length_append
          rw [longer]
          exact owns.moves_push assured ran rfl rfl after
      | _ =>
          rcases owns.capacity_change assured ran after with rfl | ⟨⟨_, shape⟩, _, _⟩
          · exact .kept after.lists.fits
          · cases shape
  | failed _ unpushed _ _ =>
      rw [RefArray.copied_of_error ran]
      obtain ⟨more, held, after, settled⟩ := unpushed.owns
      refine ⟨elements, more, held, after, ?_⟩
      rcases owns.capacity_change assured ran after with rfl | ⟨⟨value, rfl⟩, full, grew⟩
      · exact .kept after.lists.fits
      · -- a push that fails for another reason than the holds has not grown the array
        have kept : more = capacity := by
          apply settled
          rcases unpushed.reason room with ⟨_, memory⟩ | ⟨handle, stored, stale, _⟩
          · exact Or.inl memory
          · refine Or.inr fun present => ?_
            rw [present handle stored] at stale
            cases stale
        omega

end

end Heap

namespace RefArray

/-! ## Growing -/

/-- The heaps that lead on from the making of an empty array, with the tally of the array.  Its
changes come in any order, with room for the holds that a push takes, and between them there are
operations elsewhere during which it lasts. -/
inductive Growing (array : RefArray) : Heap → Tally → Prop
  | made {heap next : Heap} : heap.Reachable → new.run heap = (.ok array, next) →
      next.handles.slots < 2 ^ 32 → Growing array next {}
  | changed {heap next : Heap} {tally : Tally} {before after : Extent} (change : Change)
      {result : Except HeapError (Option Handle)} :
      Growing array heap tally → (change.program array).run heap = (result, next) →
        next.handles.slots < 2 ^ 32 → heap.Holdable (change.held array) →
        array.Shows heap before → array.Shows next after →
        Growing array next (tally.note before after (change.copied array heap))
  | elsewhere {heap next : Heap} {tally : Tally} {α : Type} {operation : HeapM α} :
      Growing array heap tally → heap.Elsewhere (array.parts heap) [] operation →
        (operation.run heap).2 = next → next.handles.slots < 2 ^ 32 →
        heap.Lasting next [array.handle] → Growing array next tally

/-- The array has grown as often as its largest length demands and has the least power of two for
its capacity, but at least four; growing has copied fewer slots than that. -/
structure GrowsLogarithmically (array : RefArray) (heap : Heap) (tally : Tally) : Prop where
  growths : 1 ≤ tally.largest → tally.growths = max 1 (Nat.clog 2 tally.largest - 1)
  capacity : 1 ≤ tally.largest → ∃ power,
    IsLeast {power | (∃ exponent, power = 2 ^ exponent) ∧ tally.largest ≤ power} power ∧
      array.capacity heap = .ok (max 4 power) ∧ tally.copied < max 4 power

variable {array : RefArray} {heap : Heap} {tally : Tally}

/-- A change may come at any time, if no count of holds comes to its bound. -/
theorem Growing.change (growing : array.Growing heap tally) (change : Change)
    {before after : Extent} (bounded : ((change.program array).run heap).2.handles.slots < 2 ^ 32)
    (room : heap.Holdable (change.held array)) (start : array.Shows heap before)
    (finish : array.Shows ((change.program array).run heap).2 after) {copied : Nat}
    (copies : change.copied array heap = copied) :
    array.Growing ((change.program array).run heap).2 (tally.note before after copied) := by
  subst copies
  exact growing.changed change Prod.mk.eta.symm bounded room start finish

/-- A collection may come at any time: an array that is held lasts. -/
theorem Growing.collected (growing : array.Growing heap tally) (sound : heap.Sound)
    (kept : heap.Kept array.handle) (bounded : (collect.run heap).2.handles.slots < 2 ^ 32) :
    array.Growing (collect.run heap).2 tally := by
  refine growing.elsewhere .collect rfl bounded ?_
  change heap.Lasting heap.collectNow.2 [array.handle]
  change heap.collectNow.2.handles.slots < 2 ^ 32 at bounded
  rcases sound.collectNow with ⟨finish, live, ran, compacts⟩ | ⟨size, allocator, ran, _⟩
  all_goals rw [ran] at bounded ⊢
  · have counted := ((Course.collected ran (Course.done finish)).traced sound bounded).collections
    have still := (compacts.retains sound).kept array.handle kept
    refine lasting_of_isLive sound bounded ?_ (by simpa using sound.isLive_of_kept kept)
      (by simpa using still)
    rw [counted]
    exact Nat.add_lt_add_left (show 1 < 2 ^ 32 by decide) _
  · exact lasting_of_counter sound bounded rfl

/-- Throughout its history the tally of an array fits its extent. -/
theorem Growing.fits (growing : array.Growing heap tally) :
    heap.Sound ∧ heap.classes.Numbered ∧ ∃ elements capacity storage,
      heap.Owns array elements capacity storage ∧ tally.Fits ⟨elements.length, capacity⟩ := by
  induction growing with
  | @made heap next reachable ran bounded =>
      have assured : heap.Assured ((withCapacity 0).run heap).2 [] :=
        reachable.assured (by rw [show (withCapacity 0).run heap = _ from ran]; exact bounded)
      have makes := assured.withCapacity
      have numbered := (assured.after (tame_withCapacity 0)).2
      rw [show (withCapacity 0).run heap = _ from ran] at makes numbered
      cases makes with
      | made made =>
          exact ⟨made.sound, numbered, _, _, _, Owns.of_made reachable.apart made, Tally.fits_empty⟩
  | changed change _ ran bounded room before after ih =>
      obtain ⟨sound, numbered, elements, capacity, storage, owns, fits⟩ := ih
      obtain ⟨sound, numbered, others, more, held, owned, moves⟩ := owns.change_moves
        ⟨sound, numbered, bounded, lasting_nil _ _⟩ ran room
      rw [owns.extent_eq before, owned.extent_eq after]
      exact ⟨sound, numbered, others, more, held, owned, fits.note moves⟩
  | elsewhere _ elsewhere same bounded lasting ih =>
      obtain ⟨sound, numbered, elements, capacity, storage, owns, fits⟩ := ih
      subst same
      rw [owns.lists.parts_eq] at elsewhere
      obtain ⟨nextSound, nextNumbered, still⟩ :=
        owns.elsewhere elsewhere ⟨sound, numbered, bounded, lasting⟩
      exact ⟨nextSound, nextNumbered, elements, capacity, storage, still, fits⟩

theorem Growing.growsLogarithmically (growing : array.Growing heap tally) :
    array.GrowsLogarithmically heap tally := by
  obtain ⟨_, _, elements, capacity, storage, owns, fits⟩ := growing.fits
  constructor
  · exact fun some => (fits.growths_capacity some).1
  · intro some
    have room : capacity = _ := (fits.growths_capacity some).2
    refine ⟨_, Tally.isLeast_pow_clog tally.largest, ?_, ?_⟩
    · rw [← room]
      exact owns.lists.capacity_eq
    · rw [← room]
      exact fits.copied_lt some

end RefArray

/-- In a reachable heap the growths of all arrays are counted, and every array that was made empty,
that lasts and that has not been written but by its own operations has grown logarithmically, if
there was room for the holds of its pushes. -/
theorem Heap.Reachable.arraysGrowLogarithmically {heap : Heap} (reachable : heap.Reachable) :
    heap.CountsGrowths ∧ ∀ (array : RefArray) (tally : RefArray.Tally),
      array.Growing heap tally → array.GrowsLogarithmically heap tally :=
  ⟨reachable.countsGrowths, fun _ _ growing => growing.growsLogarithmically⟩

namespace RefArray

/-- A heap with a new array into which absent elements have been pushed. -/
def filledUp : Nat → Heap
  | 0 => begun
  | count + 1 => (((Change.push none).program ⟨⟨0, 0⟩⟩).run (filledUp count)).2

theorem reachable_filledUp {count : Nat} (bounded : (filledUp count).handles.slots < 2 ^ 32) :
    (filledUp count).Reachable := by
  induction count with
  | zero => exact (reachable_blank (by decide +kernel)).after Operation.newArray bounded
  | succ count ih =>
      unfold filledUp at bounded ⊢
      rw [snd_run_push] at bounded ⊢
      have before := ih (Nat.lt_of_le_of_lt ((tame_push ⟨⟨0, 0⟩⟩ none).grows _) bounded)
      exact before.after (Operation.arrayPush ⟨⟨0, 0⟩⟩ none) bounded

/-- What the array shows after a number of pushes. -/
def extentOf (count : Nat) : Extent :=
  ⟨count, if count = 0 then 0 else if count < 5 then 4 else 8⟩

theorem shows_filledUp {count : Nat} (few : count < 6) :
    Shows ⟨⟨0, 0⟩⟩ (filledUp count) (extentOf count) := by
  have lengths : ∀ count < 6, length ⟨⟨0, 0⟩⟩ (filledUp count) = .ok (extentOf count).length := by
    decide +kernel
  have rooms : ∀ count < 6, capacity ⟨⟨0, 0⟩⟩ (filledUp count) = .ok (extentOf count).capacity := by
    decide +kernel
  exact ⟨lengths count few, rooms count few⟩

/-- Five pushes make the array grow twice. -/
theorem growing_filledUp : Growing ⟨⟨0, 0⟩⟩ (filledUp 5) ⟨5, 2, 4⟩ := by
  have bounded : ∀ count < 6, (filledUp count).handles.slots < 2 ^ 32 := by decide +kernel
  have held : ∀ count < 5, (filledUp count).holds ⟨0, 0⟩ = .ok 1 := by decide +kernel
  have copies : ∀ count < 5, (Change.push none).copied ⟨⟨0, 0⟩⟩ (filledUp count) =
      if count = 4 then 4 else 0 := by decide +kernel
  have step {tally : Tally} {count : Nat} (few : count < 5)
      (growing : Growing ⟨⟨0, 0⟩⟩ (filledUp count) tally) :
      Growing ⟨⟨0, 0⟩⟩ (filledUp (count + 1)) (tally.note (extentOf count) (extentOf (count + 1))
        (if count = 4 then 4 else 0)) := by
    have finish : Shows ⟨⟨0, 0⟩⟩ (filledUp (count + 1)) (extentOf (count + 1)) :=
      shows_filledUp (by omega)
    exact growing.change (.push none) (bounded (count + 1) (by omega))
      (holdable_singleton (held count few)) (shows_filledUp (by omega)) finish (copies count few)
  have empty : Growing ⟨⟨0, 0⟩⟩ (filledUp 0) {} :=
    .made (reachable_blank (by decide +kernel)) (Prod.ext (by decide +kernel) rfl)
      (bounded 0 (by decide))
  have two := step (by decide) (step (by decide) empty)
  exact step (by decide) (step (by decide) (step (by decide) two))

/-- The heap after five pushes, a pop and a collection. -/
def settled : Heap :=
  (collect.run ((Change.pop.program ⟨⟨0, 0⟩⟩).run (filledUp 5)).2).2

theorem reachable_settled : settled.Reachable := by
  have filled : (filledUp 5).Reachable := reachable_filledUp (by decide +kernel)
  have popped := filled.after (Operation.arrayPop ⟨⟨0, 0⟩⟩) (by decide +kernel)
  exact popped.after Operation.collect (by decide +kernel)

theorem growing_settled : Growing ⟨⟨0, 0⟩⟩ settled ⟨5, 2, 4⟩ := by
  have shows : Shows ⟨⟨0, 0⟩⟩ ((Change.pop.program ⟨⟨0, 0⟩⟩).run (filledUp 5)).2 ⟨4, 8⟩ :=
    ⟨by decide +kernel, by decide +kernel⟩
  have popped : Growing ⟨⟨0, 0⟩⟩ ((Change.pop.program ⟨⟨0, 0⟩⟩).run (filledUp 5)).2 ⟨5, 2, 4⟩ :=
    growing_filledUp.change .pop (by decide +kernel) (holdable_of_listed (by simp [Change.held]))
      (shows_filledUp (by decide)) shows rfl
  have kept : Heap.Kept ((Change.pop.program ⟨⟨0, 0⟩⟩).run (filledUp 5)).2 ⟨0, 0⟩ :=
    Kept.held (by decide +kernel : Heap.holds _ ⟨0, 0⟩ = .ok 1) (by decide)
  exact popped.collected popped.fits.1 kept (by decide +kernel)

/-- Five elements make an array grow twice, to a capacity of eight; a pop does not take that
back. -/
theorem arraysGrowLogarithmically_settled :
    settled.Reachable ∧ Growing ⟨⟨0, 0⟩⟩ settled ⟨5, 2, 4⟩ ∧
      length ⟨⟨0, 0⟩⟩ settled = .ok 4 ∧ capacity ⟨⟨0, 0⟩⟩ settled = .ok 8 ∧
      settled.counters.arrayReallocations = 2 ∧ settled.CountsGrowths ∧
      GrowsLogarithmically ⟨⟨0, 0⟩⟩ settled ⟨5, 2, 4⟩ :=
  ⟨reachable_settled, growing_settled, by decide +kernel, by decide +kernel, by decide +kernel,
    (Reachable.arraysGrowLogarithmically reachable_settled).1,
    (Reachable.arraysGrowLogarithmically reachable_settled).2 _ _ growing_settled⟩

/-- A heap with an array that nothing keeps any longer, into which an absent element has been
pushed. -/
def abandoned : Heap :=
  ((Heap.release ⟨0, 0⟩).run (filledUp 1)).2

theorem reachable_abandoned : abandoned.Reachable := by
  have filled : (filledUp 1).Reachable := reachable_filledUp (by decide +kernel)
  exact filled.after (Operation.release ⟨0, 0⟩) (by decide +kernel)

/-- A heap with an integer that is held as often as can be counted, and an array of four absent
elements. -/
def brimfulFour : Heap :=
  let made := (new.run brimful).2
  let one := ((push ⟨⟨1, 0⟩⟩ none).run made).2
  let two := ((push ⟨⟨1, 0⟩⟩ none).run one).2
  let three := ((push ⟨⟨1, 0⟩⟩ none).run two).2
  ((push ⟨⟨1, 0⟩⟩ none).run three).2

theorem reachable_brimfulFour : brimfulFour.Reachable := by
  have made := reachable_brimful.after Operation.newArray (by decide +kernel)
  have one := made.after (Operation.arrayPush ⟨⟨1, 0⟩⟩ none) (by decide +kernel)
  have two := one.after (Operation.arrayPush ⟨⟨1, 0⟩⟩ none) (by decide +kernel)
  have three := two.after (Operation.arrayPush ⟨⟨1, 0⟩⟩ none) (by decide +kernel)
  exact three.after (Operation.arrayPush ⟨⟨1, 0⟩⟩ none) (by decide +kernel)

/-- An array whose largest length is one does not end with a capacity of four: a collection has
reclaimed it.  An array whose largest length is four has not grown once to a capacity of four, but
twice to eight: a push of an object that was held as often as can be counted has failed after the
growth. -/
theorem growth_overshoots :
    (abandoned.Reachable ∧ (filledUp 1).isLive ⟨0, 0⟩ = true ∧
      length ⟨⟨0, 0⟩⟩ (filledUp 1) = .ok 1 ∧ (collect.run abandoned).1 = .ok () ∧
        capacity ⟨⟨0, 0⟩⟩ (collect.run abandoned).2 = .error (.staleHandle ⟨0, 0⟩)) ∧
      brimfulFour.Reachable ∧ (new.run brimful).1 = .ok ⟨⟨1, 0⟩⟩ ∧
      brimful.counters.arrayReallocations = 0 ∧
      length ⟨⟨1, 0⟩⟩ brimfulFour = .ok 4 ∧ capacity ⟨⟨1, 0⟩⟩ brimfulFour = .ok 4 ∧
      ∃ next, (push ⟨⟨1, 0⟩⟩ (some ⟨0, 0⟩)).run brimfulFour = (.error (.notRooted ⟨0, 0⟩), next) ∧
        length ⟨⟨1, 0⟩⟩ next = .ok 4 ∧ capacity ⟨⟨1, 0⟩⟩ next = .ok 8 ∧
        next.counters.arrayReallocations = 2 := by
  have ended {α : Type} {outcome : Except HeapError α × Heap} {result : Except HeapError α}
      (same : outcome.1 = result) : outcome = (result, outcome.2) := by
    rw [← same]
  refine ⟨⟨reachable_abandoned, ?_, ?_, ?_, ?_⟩, reachable_brimfulFour, ?_, ?_, ?_, ?_,
    _, ended (?_ : _ = Except.error (HeapError.notRooted ⟨0, 0⟩)), ?_, ?_, ?_⟩
  all_goals decide +kernel

end RefArray

end CompactingHeap
