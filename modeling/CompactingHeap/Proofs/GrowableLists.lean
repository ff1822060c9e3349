import CompactingHeap.Proofs.OwnedArrays
import CompactingHeap.Proofs.Sanity

/-!
# Arrays are growable lists

From its making on an array behaves as a list, whatever goes on in the heap meanwhile, as long as
its handle lasts and nothing else writes it or its backing run.  A history of an array follows the
heap through the changes of the array and the operations elsewhere, together with the list that the
changes amount to.
-/

namespace CompactingHeap

open Heap

namespace RefArray

/-! ## Changes of a list -/

/-- The operations that change an array. -/
inductive Change where
  | push (value : Option Handle)
  | pop
  | set (index : Nat) (value : Option Handle)
  | clear

namespace Change

/-- The program of a change.  It answers what `pop` takes away. -/
def program (array : RefArray) : Change → HeapM (Option Handle)
  | push value => do
      array.push value
      return none
  | pop => array.pop
  | set index value => do
      array.set index value
      return none
  | clear => do
      array.clear
      return none

/-- What a change does to a list. -/
def apply (elements : List (Option Handle)) : Change → List (Option Handle)
  | push value => elements ++ [value]
  | pop => elements.dropLast
  | set index value => elements.set index value
  | clear => []

/-- What a change of a list answers. -/
def answer (elements : List (Option Handle)) : Change → Option Handle
  | pop => elements.getLast?.join
  | _ => none

/-- Why a list refuses a change: the index is out of range. -/
def refusal? (elements : List (Option Handle)) : Change → Option HeapError
  | pop => if elements = [] then some (.indexOutOfRange 0 0) else none
  | set index _ =>
      if index < elements.length then none else some (.indexOutOfRange index elements.length)
  | _ => none

/-- The value that a change puts into the list. -/
def value : Change → Option Handle
  | push value => value
  | set _ value => value
  | _ => none

/-- The objects that a change holds while the array grows. -/
def held (array : RefArray) : Change → List Handle
  | push value => array.handle :: value.toList
  | _ => []

theorem tame_program (array : RefArray) (change : Change) : Tame (change.program array) := by
  cases change with
  | push value => exact (array.tame_push value).bind fun _ => Tame.pure none
  | pop => exact array.tame_pop
  | set index value => exact (array.tame_set index value).bind fun _ => Tame.pure none
  | clear => exact array.tame_clear.bind fun _ => Tame.pure none

end Change

end RefArray

namespace Heap

variable {heap next : Heap} {array : RefArray} {elements : List (Option Handle)}
  {capacity : Nat} {storage : Option Handle}

/-- What a change of an array that owns its run does.  The holds balance, unless a count comes to
its bound. -/
inductive Changes (heap : Heap) (array : RefArray) (elements : List (Option Handle))
    (capacity : Nat) (change : RefArray.Change) : Except HeapError (Option Handle) × Heap → Prop
  | refused {error : HeapError} : change.refusal? elements = some error →
      Changes heap array elements capacity change (.error error, heap)
  | done {more : Nat} {storage : Option Handle} {next : Heap} :
      change.refusal? elements = none → next.Owns array (change.apply elements) more storage →
        next.Present change.value → (heap.Holdable (change.held array) → heap.Steady next []) →
        Changes heap array elements capacity change (.ok (change.answer elements), next)
  | failed {error : HeapError} {next : Heap} : change.refusal? elements = none →
      heap.Unpushed next array elements capacity change.value error →
        ((∀ value, change ≠ .push value) → heap.Blames change.value error) →
        (heap.Holdable (change.held array) → heap.Undone next) →
        Changes heap array elements capacity change (.error error, next)

section

variable (owns : heap.Owns array elements capacity storage)

include owns

/-- Pushing enters a further element, or fails and leaves the list. -/
theorem Owns.changes_push {value : Option Handle} {roots : List Handle}
    (stays : heap.Holdable (array.handle :: value.toList) ∨ array.handle ∈ roots)
    (assured : heap.Assured (((RefArray.Change.push value).program array).run heap).2 roots) :
    heap.Changes array elements capacity (.push value)
      (((RefArray.Change.push value).program array).run heap) := by
  have stages := assured.stages (array.tame_push value) fun _ => Tame.pure none
  have pushes := owns.push value stays
  change heap.Changes array elements capacity (.push value)
    ((array.push value >>= fun _ => pure none).run heap)
  generalize (array.push value >>= fun _ => pure none).run heap = result at stages ⊢
  cases stages with
  | stopped ran assuredFirst =>
      rw [ran] at pushes
      cases pushes assuredFirst with
      | failed unpushed undone =>
          exact Changes.failed rfl unpushed (fun other => absurd rfl (other value)) undone
  | went ran assuredFirst _ =>
      rw [ran] at pushes
      cases pushes assuredFirst with
      | pushed _ owns steady =>
          exact Changes.done rfl owns (owns.lists.present value (by simp)) steady

variable (sound : heap.Sound)

include sound

/-- Popping gives the last element back, if there is one. -/
theorem Owns.changes_pop : heap.Changes array elements capacity .pop (array.pop.run heap) := by
  rcases List.eq_nil_or_concat elements with rfl | ⟨front, last, rfl⟩
  · rw [owns.lists.pop_empty]
    exact Changes.refused rfl
  · rw [List.concat_eq_append] at owns ⊢
    obtain ⟨next, ran, alters, lists⟩ := owns.lists.pop sound
    have taken : RefArray.Change.answer (front ++ [last]) .pop = last := by
      simp [RefArray.Change.answer]
    have shorter : RefArray.Change.apply (front ++ [last]) .pop = front := List.dropLast_concat
    have owned := owns.written sound alters lists
    rw [← shorter] at owned
    have done : heap.Changes array (front ++ [last]) capacity .pop
        (.ok (RefArray.Change.answer (front ++ [last]) .pop), next) :=
      Changes.done (by simp [RefArray.Change.refusal?]) owned
        (by simp [Present, RefArray.Change.value])
        fun _ => owns.lists.steady sound alters lists
    rw [taken] at done
    rw [ran]
    exact done

/-- Setting an element needs a position that is inside and a value that is live. -/
theorem Owns.changes_set (index : Nat) (value : Option Handle) :
    heap.Changes array elements capacity (.set index value)
      (((RefArray.Change.set index value).program array).run heap) := by
  change heap.Changes array elements capacity (.set index value)
    ((array.set index value >>= fun _ => pure none).run heap)
  by_cases inside : index < elements.length
  · have allowed : (RefArray.Change.set index value).refusal? elements = none := if_pos inside
    by_cases present : heap.Present value
    · obtain ⟨next, ran, alters, lists⟩ := owns.lists.set sound inside present
      rw [HeapM.run_bind, ran]
      have all := alters.mono (List.subset_cons_self array.handle _)
      exact Changes.done allowed
        (owns.written sound all lists) (alters.present.mpr present)
        fun _ => owns.lists.steady sound all lists
    · cases value with
      | none => exact absurd (by simp [Present]) present
      | some handle =>
          have stale : heap.isLive handle = false := by
            simpa [Present] using present
          rw [HeapM.run_bind, owns.lists.set_stale sound inside stale]
          have blames : heap.Blames (some handle) (.staleHandle handle) :=
            Or.inr ⟨handle, rfl, stale, rfl⟩
          exact Changes.failed allowed
            ⟨sound, ⟨capacity, storage, owns, fun _ => rfl⟩, fun _ => blames⟩ (fun _ => blames)
            fun _ => Undone.refl sound
  · rw [HeapM.run_bind, owns.lists.set_outside (Nat.le_of_not_lt inside)]
    exact Changes.refused (if_neg inside)

/-- Clearing leaves no element. -/
theorem Owns.changes_clear :
    heap.Changes array elements capacity .clear
      ((RefArray.Change.clear.program array).run heap) := by
  obtain ⟨next, ran, alters, lists⟩ := owns.lists.clear sound
  change heap.Changes array elements capacity .clear
    ((array.clear >>= fun _ => pure none).run heap)
  rw [HeapM.run_bind, ran]
  exact Changes.done rfl (owns.written sound alters lists)
    (by simp [Present, RefArray.Change.value]) fun _ => owns.lists.steady sound alters lists

end

/-- A step of a list is what a change of an array that owns its run is. -/
theorem Owns.change (owns : heap.Owns array elements capacity storage) (change : RefArray.Change)
    {roots : List Handle} (stays : heap.Holdable (change.held array) ∨ array.handle ∈ roots)
    (assured : heap.Assured ((change.program array).run heap).2 roots) :
    heap.Changes array elements capacity change ((change.program array).run heap) := by
  cases change with
  | push value => exact owns.changes_push stays assured
  | pop => exact owns.changes_pop assured.sound
  | set index value => exact owns.changes_set assured.sound index value
  | clear => exact owns.changes_clear assured.sound

/-- A change that has been run is a step of the list, and the heap that it leads to is sound. -/
theorem Owns.change_of_run (owns : heap.Owns array elements capacity storage)
    (change : RefArray.Change) {roots : List Handle}
    (stays : heap.Holdable (change.held array) ∨ array.handle ∈ roots)
    {result : Except HeapError (Option Handle)}
    (ran : (change.program array).run heap = (result, next)) (assured : heap.Assured next roots) :
    next.Sound ∧ next.classes.Numbered ∧
      heap.Changes array elements capacity change (result, next) := by
  have whole : heap.Assured ((change.program array).run heap).2 roots := by
    rw [ran]
    exact assured
  have changes := owns.change change stays whole
  obtain ⟨sound, numbered⟩ := whole.after (change.tame_program array)
  rw [ran] at changes sound numbered
  exact ⟨sound, numbered, changes⟩

/-! ## Operations elsewhere -/

/-- An array that owns its run is a compound. -/
theorem Owns.compound (owns : heap.Owns array elements capacity storage) :
    heap.Compound array.handle (Lists.parts array storage) [] [] where
  rooted := List.mem_cons_self
  live handle part := owns.lists.isLive handle (by simpa using part)
  hangs handle part := by
    simp only [List.append_nil] at part ⊢
    rcases List.mem_cons.mp part with rfl | stored
    · exact Hangs.root List.mem_cons_self
    · obtain ⟨view, seen, _, _, _, refers⟩ := owns.lists.record.shown
      have shown : heap.partOf (Lists.parts array storage) array.handle = some view :=
        (partOf_of_mem List.mem_cons_self).trans seen
      exact Hangs.refers (Hangs.root List.mem_cons_self) shown
        (Or.inl ⟨storageOffset, refers.trans (Option.mem_toList.mp stored)⟩)
  vectors handle part view seen run := by
    have known := owns.lists.classOf_part (by simpa using part)
    rw [classOf_of_view seen] at known
    split at known
    · next same =>
      obtain ⟨shown, there, arrays, _⟩ := owns.lists.record.shown
      rw [← same, seen] at there
      cases there
      rw [arrays] at run
      cases run
    · exact Except.ok.inj known
  plain handle still := absurd still List.not_mem_nil

/-- An array still owns its run after an operation elsewhere during which it lasts. -/
theorem Owns.elsewhere (owns : heap.Owns array elements capacity storage) {α : Type}
    {operation : HeapM α}
    (elsewhere : heap.Elsewhere (Lists.parts array storage) [] operation)
    (assured : heap.Assured (operation.run heap).2 [array.handle]) :
    (operation.run heap).2.Sound ∧ (operation.run heap).2.classes.Numbered ∧
      (operation.run heap).2.Owns array elements capacity storage := by
  have compound := owns.compound
  have guarded := compound.guarded assured.sound owns.apart
  obtain ⟨tame, keeps⟩ := elsewhere.keeps (compound.within assured.sound) guarded
  have still := keeps ⟨assured, guarded⟩
  obtain ⟨sound, numbered⟩ := assured.after tame
  refine ⟨sound, numbered, owns.lists.congr ?_, Compound.apart_of_guarded still⟩
  intro handle part
  exact Compound.view?_of_guarded still (by simpa using part)

end Heap

namespace RefArray

/-! ## Histories -/

/-- The objects that an array consists of: its own and the run that backs it. -/
def parts (array : RefArray) (heap : Heap) : List Handle :=
  match heap.readRef array.handle backingOffset with
  | .ok storage => Lists.parts array storage
  | .error _ => [array.handle]

/-- The heaps that lead on from the making of an array, with the list that its changes amount to.
The array lasts throughout. -/
inductive History (array : RefArray) : Heap → List (Option Handle) → Prop
  | made {heap next : Heap} (capacity : Nat) :
      heap.Reachable → (withCapacity capacity).run heap = (.ok array, next) →
        next.handles.slots < 2 ^ 32 → History array next []
  | filled {heap next : Heap} (length : Nat) :
      heap.Reachable → (filled length).run heap = (.ok array, next) →
        next.handles.slots < 2 ^ 32 → History array next (List.replicate length none)
  | changed {heap next : Heap} {elements : List (Option Handle)} (change : Change)
      {answer : Option Handle} :
      History array heap elements → (change.program array).run heap = (.ok answer, next) →
        next.handles.slots < 2 ^ 32 → heap.Lasting next [array.handle] →
        History array next (change.apply elements)
  | failed {heap next : Heap} {elements : List (Option Handle)} (change : Change)
      {error : HeapError} :
      History array heap elements → (change.program array).run heap = (.error error, next) →
        next.handles.slots < 2 ^ 32 → heap.Lasting next [array.handle] →
        History array next elements
  | elsewhere {heap next : Heap} {elements : List (Option Handle)} {α : Type}
      {operation : HeapM α} :
      History array heap elements → heap.Elsewhere (array.parts heap) [] operation →
        (operation.run heap).2 = next → next.handles.slots < 2 ^ 32 →
        heap.Lasting next [array.handle] → History array next elements

/-- The backing run has exactly as many slots as the capacity says, none if it is zero, and the
slots from the length on are absent. -/
structure Room (heap : Heap) (array : RefArray) (length capacity : Nat) : Prop where
  capacity_eq : array.capacity heap = .ok capacity
  fits : length ≤ capacity
  bare : capacity = 0 → heap.readRef array.handle backingOffset = .ok none
  backed : 0 < capacity → ∃ backing,
    heap.readRef array.handle backingOffset = .ok (some backing) ∧
      heap.runLength backing = .ok capacity ∧
      ∀ index, length ≤ index → index < capacity → heap.runGet backing index = .ok none

/-- What becomes of a change of an array that shows a list.  It is refused and the heap is left
alone, or it does to the array what it does to the list, or it fails and leaves the list as it was.
In the last case the capacity is as it was, too, if memory has run out or the value is stale; and
that is what has happened and what the error says, unless a count of holds comes to its bound in a
push. -/
inductive Outcome (array : RefArray) (heap : Heap) (elements : List (Option Handle))
    (change : Change) : Except HeapError (Option Handle) × Heap → Prop
  | refused {error : HeapError} : change.refusal? elements = some error →
      Outcome array heap elements change (.error error, heap)
  | done {next : Heap} : change.refusal? elements = none →
      array.toList next = .ok (change.apply elements) → next.Present change.value →
        Outcome array heap elements change (.ok (change.answer elements), next)
  | failed {error : HeapError} {next : Heap} : change.refusal? elements = none →
      array.toList next = .ok elements →
        (error.IsOutOfMemory ∨ ¬ heap.Present change.value →
          array.capacity next = array.capacity heap) →
        (heap.Holdable (array.handle :: change.value.toList) ∨ (∀ value, change ≠ .push value) →
          heap.Blames change.value error) →
        Outcome array heap elements change (.error error, next)

/-- The array shows the list and changes as the list does. -/
structure ActsAsList (array : RefArray) (heap : Heap) (elements : List (Option Handle)) : Prop where
  length : array.length heap = .ok elements.length
  isEmpty : array.isEmpty heap = .ok elements.isEmpty
  toList : array.toList heap = .ok elements
  get : ∀ index, array.get heap index =
    match elements[index]? with
    | some element => .ok element
    | none => .error (.indexOutOfRange index elements.length)
  present : ∀ element ∈ elements, heap.Present element
  room : ∃ capacity, Room heap array elements.length capacity
  outcome : ∀ change, ((change.program array).run heap).2.handles.slots < 2 ^ 32 →
    heap.Lasting ((change.program array).run heap).2 [array.handle] →
      Outcome array heap elements change ((change.program array).run heap)

end RefArray

namespace Heap

variable {heap : Heap} {array : RefArray} {elements : List (Option Handle)} {capacity : Nat}
  {storage : Option Handle}

theorem Lists.parts_eq (lists : heap.Lists array elements capacity storage) :
    array.parts heap = Lists.parts array storage := by
  unfold RefArray.parts
  rw [lists.readBacking]

theorem Lists.room (lists : heap.Lists array elements capacity storage) :
    RefArray.Room heap array elements.length capacity where
  capacity_eq := lists.capacity_eq
  fits := lists.fits
  bare empty := by
    rw [lists.readBacking, lists.bare.mpr empty]
  backed filled := by
    obtain ⟨backing, here⟩ := lists.exists_backing filled
    have length := (lists.backed backing here).length
    rw [length_padded lists.fits] at length
    exact ⟨backing, here ▸ lists.readBacking, length,
      fun index behind inside => lists.runGet_behind here behind inside⟩

/-- An array that owns its run acts as a list. -/
theorem Owns.behavesAsList (owns : heap.Owns array elements capacity storage) (sound : heap.Sound)
    (numbered : heap.classes.Numbered) : array.ActsAsList heap elements where
  length := owns.lists.length
  isEmpty := owns.lists.isEmpty
  toList := owns.lists.toList
  get := owns.lists.get
  present := owns.lists.present
  room := ⟨capacity, owns.lists.room⟩
  outcome change bounded lasting := by
    have changes := owns.change change (Or.inr List.mem_cons_self)
      ⟨sound, numbered, bounded, lasting⟩
    generalize (change.program array).run heap = result at changes
    cases changes with
    | refused refused => exact RefArray.Outcome.refused refused
    | done allowed changed present _ =>
        exact RefArray.Outcome.done allowed changed.lists.toList present
    | failed allowed unpushed blames _ =>
        obtain ⟨more, storage, same, kept⟩ := unpushed.owns
        apply RefArray.Outcome.failed allowed same.lists.toList
        · intro cause
          rw [same.lists.capacity_eq, owns.lists.capacity_eq, kept cause]
        · exact fun cause => cause.elim unpushed.reason blames

end Heap

namespace RefArray

variable {array : RefArray} {heap : Heap} {elements : List (Option Handle)}

/-- Throughout its history an array owns its run. -/
theorem History.owns (history : array.History heap elements) :
    heap.Sound ∧ heap.classes.Numbered ∧
      ∃ capacity storage, heap.Owns array elements capacity storage := by
  induction history with
  | @made heap next capacity reachable ran bounded =>
      have assured : heap.Assured ((withCapacity capacity).run heap).2 [] :=
        reachable.assured (by rw [ran]; exact bounded)
      have makes := assured.withCapacity
      have numbered := (assured.after (tame_withCapacity capacity)).2
      rw [ran] at makes numbered
      cases makes with
      | made made => exact ⟨made.sound, numbered, _, _, Owns.of_made reachable.apart made⟩
  | @filled heap next length reachable ran bounded =>
      have assured : heap.Assured ((RefArray.filled length).run heap).2 [] :=
        reachable.assured (by rw [ran]; exact bounded)
      have makes := assured.filled
      have numbered := (assured.after (tame_filled length)).2
      rw [ran] at makes numbered
      cases makes with
      | made made => exact ⟨made.sound, numbered, _, _, Owns.of_made reachable.apart made⟩
  | @changed heap next elements change answer _ ran bounded lasting ih =>
      obtain ⟨sound, numbered, capacity, storage, owns⟩ := ih
      obtain ⟨nextSound, nextNumbered, changes⟩ := owns.change_of_run change
        (Or.inr List.mem_cons_self) ran ⟨sound, numbered, bounded, lasting⟩
      cases changes with
      | done _ owns _ _ => exact ⟨nextSound, nextNumbered, _, _, owns⟩
  | @failed heap next elements change error _ ran bounded lasting ih =>
      obtain ⟨sound, numbered, capacity, storage, owns⟩ := ih
      obtain ⟨nextSound, nextNumbered, changes⟩ := owns.change_of_run change
        (Or.inr List.mem_cons_self) ran ⟨sound, numbered, bounded, lasting⟩
      cases changes with
      | refused _ => exact ⟨sound, numbered, capacity, storage, owns⟩
      | failed _ unpushed _ _ =>
          obtain ⟨more, held, same, _⟩ := unpushed.owns
          exact ⟨nextSound, nextNumbered, more, held, same⟩
  | @elsewhere heap next elements _ operation _ elsewhere same bounded lasting ih =>
      obtain ⟨sound, numbered, capacity, storage, owns⟩ := ih
      subst same
      rw [owns.lists.parts_eq] at elsewhere
      obtain ⟨nextSound, nextNumbered, still⟩ :=
        owns.elsewhere elsewhere ⟨sound, numbered, bounded, lasting⟩
      exact ⟨nextSound, nextNumbered, capacity, storage, still⟩

/-- An array is a growable list: throughout its history it shows the list that its changes amount
to. -/
theorem History.actsAsList (history : array.History heap elements) :
    array.ActsAsList heap elements := by
  obtain ⟨sound, numbered, capacity, storage, owns⟩ := history.owns
  exact owns.behavesAsList sound numbered

/-! ## A history, and an array that is not left alone -/

/-- A heap with a new array. -/
def begun : Heap :=
  (new.run (blank {})).2

/-- An integer has been allocated beside the array. -/
def beside : Heap :=
  ((Heap.allocInt 5).run begun).2

/-- The integer has been pushed. -/
def pushed : Heap :=
  ((Change.program ⟨⟨0, 0⟩⟩ (.push (some ⟨1, 0⟩))).run beside).2

/-- The hold on the integer has been given up. -/
def released : Heap :=
  ((Heap.release ⟨1, 0⟩).run pushed).2

/-- A collection has run. -/
def collected : Heap :=
  (Heap.collect.run released).2

theorem history_pushed : History ⟨⟨0, 0⟩⟩ pushed [some ⟨1, 0⟩] := by
  have created : new.run (blank {}) = (.ok ⟨⟨0, 0⟩⟩, begun) :=
    Prod.ext (by decide +kernel) (by rw [begun])
  have start : History ⟨⟨0, 0⟩⟩ begun [] :=
    History.made 0 (reachable_blank (by decide +kernel)) created (by decide +kernel)
  have between : History ⟨⟨0, 0⟩⟩ beside [] :=
    start.elsewhere (.allocInt 5) (by rw [beside]) (by decide +kernel)
      (lasting_of_counter start.owns.1 (by decide +kernel) (by decide +kernel))
  have ran : (Change.program ⟨⟨0, 0⟩⟩ (.push (some ⟨1, 0⟩))).run beside = (.ok none, pushed) :=
    Prod.ext (by decide +kernel) (by rw [pushed])
  exact between.changed (.push (some ⟨1, 0⟩)) ran (by decide +kernel)
    (lasting_of_counter between.owns.1 (by decide +kernel) (by decide +kernel))

/-- The integer is held by nothing but the array when a collection has run. -/
theorem actsAsList_pushed : ActsAsList ⟨⟨0, 0⟩⟩ collected [some ⟨1, 0⟩] := by
  have dropped : History ⟨⟨0, 0⟩⟩ released [some ⟨1, 0⟩] :=
    history_pushed.elsewhere (.release ⟨1, 0⟩) (by rw [released]) (by decide +kernel)
      (lasting_of_counter history_pushed.owns.1 (by decide +kernel) (by decide +kernel))
  have moved : History ⟨⟨0, 0⟩⟩ collected [some ⟨1, 0⟩] :=
    dropped.elsewhere .collect (by rw [collected]) (by decide +kernel)
      (lasting_of_isLive dropped.owns.1 (by decide +kernel) (by decide +kernel)
        (by decide +kernel) (by decide +kernel))
  exact moved.actsAsList

/-- Two arrays with one element each.  A direct write makes the run of the first one the run of the
second one as well; then the element of the second one is replaced.  What the first one shows
before and after that is told. -/
def borrow : HeapM (List (Option Handle) × List (Option Handle)) := do
  let first ← filled 1
  let second ← filled 1
  let backing ← HeapM.ask fun heap => heap.readRef first.handle backingOffset
  Heap.writeRef second.handle backingOffset backing
  let value ← Heap.allocInt 5
  let before ← HeapM.ask first.toList
  second.set 0 (some value)
  let after ← HeapM.ask first.toList
  return (before, after)

/-- An array whose run another array has borrowed does not keep its elements. -/
theorem borrowed_run_changes : (borrow.run (blank {})).1 = .ok ([none], [some ⟨4, 0⟩]) := by
  decide +kernel

end RefArray

end CompactingHeap
