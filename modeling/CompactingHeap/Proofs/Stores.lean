import CompactingHeap.Proofs.Anatomy
import CompactingHeap.Proofs.Sanity

/-!
# Stores

A store writes a word, a reference, an element of a run, or the first elements of a run that it
copies from another object.  It touches the sites that it names, in one object.  What it wrote is
read back; whatever else can be read through any handle reads as before, and the handles, the
holds, the roots, the interned strings and the statistics are as before.  A store that is refused
changes nothing at all, and the error says why.
-/

namespace CompactingHeap

/-- A site of an object that can be written: a plain word or a reference by its payload offset, or
an element of the run by its index. -/
inductive Site where
  | word (offset : Nat)
  | field (offset : Nat)
  | element (index : Nat)

/-- A write through a handle.  A run is copied from another object than the one that is written. -/
inductive Store where
  | word (handle : Handle) (offset : Nat) (value : UInt64)
  | field (handle : Handle) (offset : Nat) (value : Option Handle)
  | element (handle : Handle) (index : Nat) (value : Option Handle)
  | run (source target : Handle) (apart : source ≠ target) (count : Nat)

namespace Store

/-- The program that carries a store out. -/
def program : Store → HeapM PUnit
  | word handle offset value => Heap.writeWord handle offset value
  | field handle offset value => Heap.writeRef handle offset value
  | element handle index value => Heap.runSet handle index value
  | run source target _ count => Heap.copyRun source target count

/-- The object that is written. -/
def target : Store → Handle
  | word handle _ _ => handle
  | field handle _ _ => handle
  | element handle _ _ => handle
  | run _ target _ _ => target

/-- The handles that have to be live: those of the objects, and the reference that is stored. -/
def handles : Store → List Handle
  | word handle _ _ => [handle]
  | field handle _ value => handle :: value.toList
  | element handle _ value => handle :: value.toList
  | run source target _ _ => [source, target]

/-- The objects that have to have a run. -/
def runs : Store → List Handle
  | word _ _ _ => []
  | field _ _ _ => []
  | element handle _ _ => [handle]
  | run source target _ _ => [source, target]

/-- The site is one of those that the store writes. -/
def Writes : Store → Site → Prop
  | word _ offset _, site => site = .word offset
  | field _ offset _, site => site = .field offset
  | element _ index _, site => site = .element index
  | run _ _ _ count, site => ∃ index < count, site = .element index

/-- The store writes this site of this object. -/
def Touches (store : Store) (handle : Handle) (site : Site) : Prop :=
  handle = store.target ∧ store.Writes site

/-- Why a store is refused, and the error that says so. -/
inductive Refused (heap : Heap) : Store → HeapError → Prop
  | stale {store : Store} {handle : Handle} :
      handle ∈ store.handles → heap.isLive handle = false → Refused heap store (.staleHandle handle)
  | noWord {handle : Handle} {offset : Nat} {value : UInt64} {descriptor : Descriptor} :
      heap.descriptorOf handle = .ok descriptor → descriptor.isDataWord offset = false →
        Refused heap (.word handle offset value) (.invalidField descriptor.id offset)
  | noField {handle : Handle} {offset : Nat} {value : Option Handle} {descriptor : Descriptor} :
      heap.descriptorOf handle = .ok descriptor → descriptor.isRefField offset = false →
        Refused heap (.field handle offset value) (.invalidField descriptor.id offset)
  | noRun {store : Store} {handle : Handle} {descriptor : Descriptor} :
      handle ∈ store.runs → heap.descriptorOf handle = .ok descriptor →
        descriptor.runOffset? = none →
          Refused heap store (.invalidField descriptor.id descriptor.size)
  | outside {handle : Handle} {index length : Nat} {value : Option Handle} :
      heap.runLength handle = .ok length → length ≤ index →
        Refused heap (.element handle index value) (.indexOutOfRange index length)
  | short {source target : Handle} {apart : source ≠ target} {count sourceLength length : Nat} :
      heap.runLength source = .ok sourceLength → heap.runLength target = .ok length →
        min sourceLength length < count →
          Refused heap (.run source target apart count)
            (.indexOutOfRange count (min sourceLength length))

/-- What has been stored is read back.  The copied elements read as those of the source, which are
as before. -/
def ReadsBack (heap next : Heap) : Store → Prop
  | word handle offset value => next.readWord handle offset = .ok value
  | field handle offset value => next.readRef handle offset = .ok value
  | element handle index value => next.runGet handle index = .ok value
  | run source target _ count => ∀ index < count, ∃ element,
      heap.runGet source index = .ok element ∧ next.runGet source index = .ok element ∧
        next.runGet target index = .ok element

end Store

namespace Heap

/-- What can be read through a handle is the same in two heaps, but for the sites that are written.
A number is its first word, and plain bytes are those of the words that they lie in. -/
structure ReadsAlikeOff (writes : Site → Prop) (start finish : Heap) (handle : Handle) : Prop where
  classOf : finish.classOf handle = start.classOf handle
  descriptorOf : finish.descriptorOf handle = start.descriptorOf handle
  payloadOffset : finish.payloadOffset handle = start.payloadOffset handle
  tailLength : finish.tailLength handle = start.tailLength handle
  readWord : ∀ offset, ¬ writes (.word offset) →
    finish.readWord handle offset = start.readWord handle offset
  bytes : finish.bytes handle = start.bytes handle
  peek : ∀ offset length, (∀ position, offset ≤ position → position < offset + length →
      ¬ writes (.word (wordBytes * (position / wordBytes)))) →
    finish.peek handle offset length = start.peek handle offset length
  string : finish.string handle = start.string handle
  int : (writes (.word 0) → start.classOf handle ≠ .ok .int) →
    finish.int handle = start.int handle
  float : (writes (.word 0) → start.classOf handle ≠ .ok .float) →
    finish.float handle = start.float handle
  bool : finish.bool handle = start.bool handle
  char : finish.char handle = start.char handle
  runLength : finish.runLength handle = start.runLength handle
  holds : finish.holds handle = start.holds handle
  readRef : ∀ offset, ¬ writes (.field offset) →
    finish.readRef handle offset = start.readRef handle offset
  runGet : ∀ index, ¬ writes (.element index) →
    finish.runGet handle index = start.runGet handle index

end Heap

namespace Store

/-- What a store does to a heap.  Only the contents of objects differ: the handles with their
holds, the roots, the interned strings, the classes and the counters are in the rest. -/
structure Done (store : Store) (heap next : Heap) : Prop where
  rest : next = { heap with space := next.space }
  stats : next.stats = heap.stats
  written : store.ReadsBack heap next
  reads : ∀ handle, heap.isLive handle = true →
    heap.ReadsAlikeOff (store.Touches handle) next handle

/-- A store is done if there is no reason to refuse it, and otherwise refused for a reason, without
any change. -/
inductive Outcome (store : Store) (heap : Heap) : Except HeapError PUnit × Heap → Prop
  | done {next : Heap} :
      (∀ error, ¬ Refused heap store error) → store.Done heap next →
        Outcome store heap (.ok ⟨⟩, next)
  | refused {error : HeapError} :
      Refused heap store error → Outcome store heap (.error error, heap)

end Store

/-! ## Views that agree off the written sites -/

/-- Two views agree but for the sites that are written.  The words that are written are plain
data. -/
structure View.Agrees (writes : Site → Prop) (before after : View) : Prop where
  descriptor : after.descriptor = before.descriptor
  extra : after.extra = before.extra
  tail : after.tail = before.tail
  plain : ∀ offset, writes (.word offset) → before.descriptor.isDataWord offset = true
  word : ∀ offset, ¬ writes (.word (wordBytes * (offset / wordBytes))) →
    after.word offset = before.word offset
  ref : ∀ offset, ¬ writes (.field offset) → after.ref offset = before.ref offset
  length : after.run.length = before.run.length
  element : ∀ index, ¬ writes (.element index) → after.run[index]? = before.run[index]?

namespace View

theorem Agrees.refl {writes : Site → Prop} (view : View)
    (plain : ∀ offset, writes (.word offset) → view.descriptor.isDataWord offset = true) :
    view.Agrees writes view where
  descriptor := rfl
  extra := rfl
  tail := rfl
  plain := plain
  word _ _ := rfl
  ref _ _ := rfl
  length := rfl
  element _ _ := rfl

variable {writes : Site → Prop} {before after : View}

/-- A view agrees with itself but for the word that is set. -/
theorem agrees_setWord {view : View} {offset : Nat}
    (plain : view.descriptor.isDataWord offset = true) (value : UInt64) :
    view.Agrees (· = .word offset) (view.setWord offset value) where
  descriptor := rfl
  extra := rfl
  tail := rfl
  plain other same := by
    cases same
    exact plain
  word other apart := by
    have aligned := (Descriptor.isDataWord_iff.mp plain).1
    change (if other / wordBytes = offset / wordBytes then value else view.word other) = _
    rw [if_neg]
    intro same
    apply apart
    congr 1
    simp only [wordBytes] at same aligned ⊢
    omega
  ref _ _ := rfl
  length := rfl
  element _ _ := rfl

theorem agrees_setRef (view : View) (offset : Nat) (value : Option Handle) :
    view.Agrees (· = .field offset) (view.setRef offset value) where
  descriptor := rfl
  extra := rfl
  tail := rfl
  plain _ same := nomatch same
  word _ _ := rfl
  ref _ apart := Function.update_of_ne (fun same => apart (congrArg Site.field same)) _ _
  length := rfl
  element _ _ := rfl

theorem agrees_setElement (view : View) (index : Nat) (value : Option Handle) :
    view.Agrees (· = .element index) (view.setRun (view.run.set index value)) where
  descriptor := rfl
  extra := rfl
  tail := rfl
  plain _ same := nomatch same
  word _ _ := rfl
  ref _ _ := rfl
  length := List.length_set
  element _ apart := List.getElem?_set_ne fun same => apart (congrArg Site.element same.symm)

theorem agrees_copied (view : View) {elements : List (Option Handle)} {count : Nat}
    (enough : count ≤ elements.length) (room : count ≤ view.run.length) :
    view.Agrees (fun site => ∃ index < count, site = .element index)
      (view.setRun (elements.take count ++ view.run.drop count)) where
  descriptor := rfl
  extra := rfl
  tail := rfl
  plain _ := by
    rintro ⟨_, _, same⟩
    cases same
  word _ _ := rfl
  ref _ _ := rfl
  length := by
    change (elements.take count ++ view.run.drop count).length = _
    rw [List.length_append, List.length_take, List.length_drop]
    omega
  element index apart := by
    have beyond : count ≤ index := Nat.le_of_not_lt fun inside => apart ⟨index, inside, rfl⟩
    change (elements.take count ++ view.run.drop count)[index]? = _
    rw [List.getElem?_append_right (by rw [List.length_take]; omega), List.length_take,
      Nat.min_eq_left enough, List.getElem?_drop, Nat.add_sub_cancel' beyond]

/-- An object that is smaller than a word has no word of plain data that could be written. -/
theorem Agrees.word_small (agrees : before.Agrees writes after)
    (small : before.descriptor.size < wordBytes) : after.word 0 = before.word 0 := by
  apply agrees.word
  intro written
  have inside := (Descriptor.isDataWord_iff.mp (agrees.plain _ written)).2.1
  omega

end View

namespace Heap

section

variable {heap next : Heap} {handle : Handle} {writes : Site → Prop} {before after : View}

/-- The word of an instance of a class reads as before if it was not written. -/
theorem scalar_of_agrees (seen : heap.view? handle = some before)
    (still : next.view? handle = some after) (agrees : before.Agrees writes after)
    (classes : next.classes = heap.classes) {id : ClassId}
    (word : before.descriptor.id = id → after.word 0 = before.word 0) :
    next.scalar handle id = heap.scalar handle id := by
  rw [scalar_of_view seen, scalar_of_view still, agrees.descriptor, classes]
  split
  · next same => rw [word same]
  · rfl

/-- A word reads as before if it was not written. -/
theorem readWord_of_agrees (seen : heap.view? handle = some before)
    (still : next.view? handle = some after) (agrees : before.Agrees writes after) {offset : Nat}
    (apart : ¬ writes (.word offset)) :
    next.readWord handle offset = heap.readWord handle offset := by
  rw [readWord_of_view seen, readWord_of_view still, agrees.descriptor]
  split
  · next plain =>
    have aligned := (Descriptor.isDataWord_iff.mp plain).1
    have exactly : wordBytes * (offset / wordBytes) = offset :=
      Nat.mul_div_cancel' (Nat.dvd_of_mod_eq_zero aligned)
    rw [agrees.word offset (by rw [exactly]; exact apart)]
  · rfl

/-- Plain bytes read as before if none of their words was written. -/
theorem peek_of_agrees (seen : heap.view? handle = some before)
    (still : next.view? handle = some after) (agrees : before.Agrees writes after)
    {offset length : Nat}
    (apart : ∀ position, offset ≤ position → position < offset + length →
      ¬ writes (.word (wordBytes * (position / wordBytes)))) :
    next.peek handle offset length = heap.peek handle offset length := by
  rcases view?_eq_some_iff.mp seen with ⟨object, found, rfl⟩
  rcases view?_eq_some_iff.mp still with ⟨other, there, rfl⟩
  have descriptor : other.descriptor = object.descriptor := agrees.descriptor
  have tail : other.tail = object.tail := agrees.tail
  unfold peek
  rw [found, there]
  simp only [Except.map, Object.peek, descriptor, tail]
  congr 2
  apply List.map_congr_left
  intro index member
  have inside := List.mem_range.mp member
  have word : other.word (offset + index) = object.word (offset + index) :=
    agrees.word _ (apart _ (by omega) (by omega))
  unfold Object.fixedByte
  rw [word]

/-- The number of an instance reads as before if its word was not written. -/
theorem scalar_of_unwritten (seen : heap.view? handle = some before)
    (still : next.view? handle = some after) (agrees : before.Agrees writes after)
    (classes : next.classes = heap.classes) {id : ClassId}
    (unwritten : writes (.word 0) → heap.classOf handle ≠ .ok id) :
    next.scalar handle id = heap.scalar handle id :=
  scalar_of_agrees seen still agrees classes fun same =>
    agrees.word 0 fun written => unwritten written (by rw [classOf_of_view seen, same])

/-- What is smaller than a word reads as before. -/
theorem scalar_of_small (seen : heap.view? handle = some before)
    (still : next.view? handle = some after) (agrees : before.Agrees writes after)
    (sane : before.Sane) (classes : next.classes = heap.classes) {id : ClassId}
    {descriptor : Descriptor} (builtin : Registry.initial.classes[id.index]? = some descriptor)
    (small : descriptor.size < wordBytes) : next.scalar handle id = heap.scalar handle id := by
  apply scalar_of_agrees seen still agrees classes
  intro same
  apply agrees.word_small
  rw [sane.builtin descriptor (by rw [same]; exact builtin)]
  exact small

/-- Objects whose views agree off the written sites read alike off them. -/
theorem readsAlikeOff_of_agrees (seen : heap.view? handle = some before)
    (still : next.view? handle = some after) (agrees : before.Agrees writes after)
    (sane : before.Sane) (rest : next = { heap with space := next.space })
    (payloadOffset : next.payloadOffset handle = heap.payloadOffset handle) :
    heap.ReadsAlikeOff writes next handle := by
  have classes : next.classes = heap.classes := by rw [rest]
  constructor
  case classOf => rw [classOf_of_view seen, classOf_of_view still, agrees.descriptor]
  case descriptorOf => rw [descriptorOf_of_view seen, descriptorOf_of_view still, agrees.descriptor]
  case payloadOffset => exact payloadOffset
  case tailLength => rw [tailLength_of_view seen, tailLength_of_view still, agrees.extra]
  case readWord => exact fun _ => readWord_of_agrees seen still agrees
  case bytes => rw [bytes_of_view seen, bytes_of_view still, agrees.descriptor, agrees.tail]
  case peek => exact fun _ _ => peek_of_agrees seen still agrees
  case string =>
    rw [string_of_view seen, string_of_view still, agrees.descriptor, agrees.tail, classes]
  case int =>
    intro unwritten
    unfold Heap.int
    rw [scalar_of_unwritten seen still agrees classes unwritten]
  case float => exact scalar_of_unwritten seen still agrees classes
  case bool =>
    unfold Heap.bool
    rw [scalar_of_small seen still agrees sane classes rfl (by decide)]
  case char =>
    unfold Heap.char
    rw [scalar_of_small seen still agrees sane classes rfl (by decide)]
  case runLength =>
    rw [runLength_of_view seen, runLength_of_view still, agrees.descriptor, agrees.length]
  case holds =>
    rw [rest]
    rfl
  case readRef =>
    intro offset apart
    rw [readRef_of_view seen, readRef_of_view still, agrees.descriptor, agrees.ref offset apart]
  case runGet =>
    intro index apart
    rw [runGet_of_view seen, runGet_of_view still, agrees.descriptor, agrees.element index apart,
      agrees.length]

end

end Heap

/-! ## Outlines and places -/

/-- All of an object but its header, its words and its references. -/
structure Outline where
  descriptor : Descriptor
  extra : UInt32
  layout : Layout
  tail : Bytes

/-- The outline of an object. -/
def Object.outline {α : Type} (object : Object α) : Outline :=
  ⟨object.descriptor, object.extra, object.layout, object.tail⟩

namespace Heap

/-- Every run of the program leaves a part of the heap as it is. -/
def Fixes {α β : Type} (part : Heap → β) (program : HeapM α) : Prop :=
  ∀ heap, part (program.run heap).2 = part heap

namespace Fixes

variable {α β γ : Type} {part : Heap → γ}

protected theorem ask (question : Heap → Except HeapError α) : Fixes part (HeapM.ask question) := by
  intro heap
  rw [HeapM.run_ask]

protected theorem pure (value : α) : Fixes part (pure value : HeapM α) :=
  fun _ => rfl

protected theorem throw (error : HeapError) : Fixes part (throw error : HeapM α) :=
  fun _ => rfl

protected theorem bind {first : HeapM α} {next : α → HeapM β} (before : Fixes part first)
    (after : ∀ value, Fixes part (next value)) : Fixes part (first >>= next) := by
  intro heap
  have fixed := before heap
  rw [HeapM.run_bind]
  rcases ran : first.run heap with ⟨_ | value, middle⟩
  all_goals rw [ran] at fixed
  · exact fixed
  · exact (after value middle).trans fixed

end Fixes

/-- No change of an object that leaves its outline alone shows in this part of the heap. -/
def Unseen {γ : Type} (part : Heap → γ) : Prop :=
  ∀ (heap : Heap) (handle : Handle) (f : HeapObject → HeapObject),
    (∀ object, (f object).outline = object.outline) → part (heap.modifyObject handle f) = part heap

theorem unseen_slabs : Unseen fun heap => heap.space.slabs := by
  intro heap handle f _
  unfold Heap.modifyObject
  split
  · exact Space.slabs_modify _ _ _
  · rfl

theorem unseen_footprint? : Unseen fun heap => heap.space.footprint? := by
  intro heap handle f keeps
  unfold Heap.modifyObject
  split
  · exact funext (Space.footprint?_modify _ _ fun object => congrArg Outline.layout (keeps object))
  · rfl

/-- A payload is where it was if the handles and the places of all objects are. -/
theorem payloadOffset_congr {heap next : Heap} (handles : next.handles = heap.handles)
    (footprint? : next.space.footprint? = heap.space.footprint?) (handle : Handle) :
    next.payloadOffset handle = heap.payloadOffset handle := by
  have offset (heap : Heap) : heap.payloadOffset handle =
      (heap.handles.resolve handle).bind fun address =>
        (heap.space.footprint? address).elim (.error (.fault (.missingObject address))) fun found =>
          .ok (found.1.offset + found.2.payload) := by
    unfold Heap.payloadOffset residentOf Space.footprint?
    cases heap.handles.resolve handle with
    | error error => rfl
    | ok address =>
        dsimp only [Except.bind]
        cases heap.space.resident? address <;> rfl
  rw [offset, offset, handles, footprint?]

end Heap

/-- A store leaves alone whatever shows no change of an object that keeps its outline. -/
theorem Store.fixes {γ : Type} {part : Heap → γ} (unseen : Heap.Unseen part) (store : Store) :
    Heap.Fixes part store.program := by
  have modified {handle : Handle} {f : HeapObject → HeapObject}
      (keeps : ∀ object, (f object).outline = object.outline) :
      Heap.Fixes part (modify fun heap => heap.modifyObject handle f) := by
    intro heap
    rw [HeapM.run_modify]
    exact unseen heap handle f keeps
  cases store with
  | word handle offset value =>
      exact (Heap.Fixes.ask _).bind fun _ => modified fun _ => rfl
  | field handle offset value =>
      exact (Heap.Fixes.ask _).bind fun _ => (Heap.Fixes.ask _).bind fun _ => modified fun _ => rfl
  | element handle index value =>
      exact (Heap.Fixes.ask _).bind fun _ => (Heap.Fixes.ask _).bind fun _ => modified fun _ => rfl
  | run source target apart count =>
      refine (Heap.Fixes.ask _).bind fun _ => (Heap.Fixes.ask _).bind fun _ => ?_
      dsimp only
      split
      · exact Heap.Fixes.throw _
      · apply modified
        intro object
        induction List.range count generalizing object with
        | nil => rfl
        | cons index others ih => exact ih _

/-! ## Refusals -/

/-- A sequence of two steps fails if the first does, or the second after it. -/
theorem bind_eq_error_iff {ε α β : Type} {first : Except ε α} {next : α → Except ε β} {error : ε} :
    (first >>= next) = .error error ↔
      first = .error error ∨ ∃ value, first = .ok value ∧ next value = .error error := by
  cases first with
  | error error => simp [bind, Except.bind]
  | ok value => simp [bind, Except.bind]

/-- A program that starts with a question fails if there is no answer, or fails later. -/
theorem HeapM.run_ask_bind_eq_error {α β : Type} {question : Heap → Except HeapError α}
    {next : α → HeapM β} {heap last : Heap} {error : HeapError}
    (ran : (ask question >>= next).run heap = (.error error, last)) :
    question heap = .error error ∨
      ∃ value, question heap = .ok value ∧ (next value).run heap = (.error error, last) := by
  rw [run_bind, run_ask] at ran
  cases asked : question heap with
  | error other =>
      rw [asked] at ran
      cases ran
      exact Or.inl rfl
  | ok value =>
      rw [asked] at ran
      exact Or.inr ⟨value, rfl, ran⟩

namespace Heap

section

variable {heap : Heap} (sound : heap.Sound) {handle : Handle} {error : HeapError}

include sound

/-- Only a stale handle names no object. -/
theorem Sound.stale_of_objectOf (failed : heap.objectOf handle = .error error) :
    heap.isLive handle = false ∧ error = .staleHandle handle := by
  cases seen : heap.view? handle with
  | none =>
      rw [sound.objectOf_stale seen] at failed
      cases failed
      exact ⟨sound.isLive_eq_false_iff.mpr seen, rfl⟩
  | some view =>
      rcases view?_eq_some_iff.mp seen with ⟨object, found, _⟩
      rw [found] at failed
      cases failed

/-- Only a stale reference has no address. -/
theorem Sound.stale_of_addressOf {value : Option Handle}
    (failed : heap.addressOf value = .error error) :
    ∃ target, value = some target ∧ heap.isLive target = false ∧ error = .staleHandle target := by
  cases value with
  | none => cases failed
  | some target =>
      refine ⟨target, rfl, ?_⟩
      cases live : heap.isLive target with
      | true =>
          have present : heap.Present (some target) := by
            intro other same
            cases same
            exact live
          obtain ⟨address, found⟩ := addressOf_of_present present
          rw [found] at failed
          cases failed
      | false =>
          rw [sound.addressOf_of_stale live] at failed
          cases failed
          exact ⟨rfl, rfl⟩

/-- The object of a failed access to its run is stale, or has no run. -/
theorem Sound.refused_runOf {store : Store} (member : handle ∈ store.handles)
    (running : handle ∈ store.runs) (failed : heap.runOf handle = .error error) :
    Store.Refused heap store error := by
  rcases bind_eq_error_iff.mp failed with missing | ⟨object, found, checked⟩
  · obtain ⟨stale, rfl⟩ := sound.stale_of_objectOf missing
    exact .stale member stale
  · split at checked
    · cases checked
    · next none =>
      cases checked
      exact .noRun running (congrArg (Except.map Object.descriptor) found) none

/-- The object of a failed access is stale, or a check of it has failed. -/
theorem Sound.refused_objectOf {store : Store} (member : handle ∈ store.handles) {α : Type}
    {check : HeapObject → Except HeapError α}
    (failed : (heap.objectOf handle >>= check) = .error error)
    (checked : ∀ object, heap.descriptorOf handle = .ok object.descriptor →
      check object = .error error → Store.Refused heap store error) :
    Store.Refused heap store error := by
  rcases bind_eq_error_iff.mp failed with missing | ⟨object, found, failed⟩
  · obtain ⟨stale, rfl⟩ := sound.stale_of_objectOf missing
    exact .stale member stale
  · exact checked object (congrArg (Except.map Object.descriptor) found) failed

/-- A reference that cannot be written is stale. -/
theorem Sound.refused_addressOf {store : Store} {owner : Handle} {value : Option Handle}
    (handles : store.handles = owner :: value.toList)
    (failed : heap.addressOf value = .error error) :
    Store.Refused heap store error := by
  obtain ⟨target, rfl, stale, rfl⟩ := sound.stale_of_addressOf failed
  exact .stale (handles ▸ List.mem_cons_of_mem _ (List.mem_singleton.mpr rfl)) stale

theorem Sound.refused_writeWord {offset : Nat} {value : UInt64} {last : Heap}
    (failed : (Heap.writeWord handle offset value).run heap = (.error error, last)) :
    Store.Refused heap (.word handle offset value) error := by
  rcases HeapM.run_ask_bind_eq_error failed with unchecked | ⟨_, _, ran⟩
  · apply sound.refused_objectOf (List.mem_singleton.mpr rfl) unchecked
    intro object known checked
    split at checked
    · cases checked
    · next other =>
      cases checked
      exact .noWord known (Bool.eq_false_iff.mpr other)
  · cases ran

theorem Sound.refused_writeRef {offset : Nat} {value : Option Handle} {last : Heap}
    (failed : (Heap.writeRef handle offset value).run heap = (.error error, last)) :
    Store.Refused heap (.field handle offset value) error := by
  rcases HeapM.run_ask_bind_eq_error failed with unchecked | ⟨_, _, ran⟩
  · apply sound.refused_objectOf List.mem_cons_self unchecked
    intro object known checked
    split at checked
    · cases checked
    · next other =>
      cases checked
      exact .noField known (Bool.eq_false_iff.mpr other)
  · rcases HeapM.run_ask_bind_eq_error ran with unknown | ⟨_, _, ran⟩
    · exact sound.refused_addressOf rfl unknown
    · cases ran

omit sound in
theorem runLength_of_runOf {found : HeapObject × Nat} (run : heap.runOf handle = .ok found) :
    heap.runLength handle = .ok found.1.runLength := by
  unfold runLength
  rw [run]
  rfl

theorem Sound.refused_runSet {index : Nat} {value : Option Handle} {last : Heap}
    (failed : (Heap.runSet handle index value).run heap = (.error error, last)) :
    Store.Refused heap (.element handle index value) error := by
  rcases HeapM.run_ask_bind_eq_error failed with unchecked | ⟨_, _, ran⟩
  · rcases bind_eq_error_iff.mp unchecked with runless | ⟨⟨object, offset⟩, run, checked⟩
    · exact sound.refused_runOf List.mem_cons_self (List.mem_singleton.mpr rfl) runless
    · dsimp only at checked
      split at checked
      · cases checked
      · next beyond =>
        cases checked
        exact .outside (runLength_of_runOf run) (Nat.le_of_not_lt beyond)
  · rcases HeapM.run_ask_bind_eq_error ran with unknown | ⟨_, _, ran⟩
    · exact sound.refused_addressOf rfl unknown
    · cases ran

theorem Sound.refused_copyRun {target : Handle} {apart : handle ≠ target} {count : Nat}
    {last : Heap} (failed : (Heap.copyRun handle target count).run heap = (.error error, last)) :
    Store.Refused heap (.run handle target apart count) error := by
  have first : handle ∈ [handle, target] := List.mem_cons_self
  have second : target ∈ [handle, target] := List.mem_cons_of_mem _ (List.mem_singleton.mpr rfl)
  rcases HeapM.run_ask_bind_eq_error failed with runless | ⟨⟨object, offset⟩, run, ran⟩
  · exact sound.refused_runOf first first runless
  rcases HeapM.run_ask_bind_eq_error ran with runless | ⟨⟨other, place⟩, here, ran⟩
  · exact sound.refused_runOf second second runless
  dsimp only at ran
  split at ran
  · next short =>
    cases ran
    exact .short (runLength_of_runOf run) (runLength_of_runOf here) short
  · cases ran

/-- A store fails for a reason only. -/
theorem Sound.refused_store {store : Store} {last : Heap}
    (failed : store.program.run heap = (.error error, last)) : Store.Refused heap store error := by
  cases store with
  | word handle offset value => exact sound.refused_writeWord failed
  | field handle offset value => exact sound.refused_writeRef failed
  | element handle index value => exact sound.refused_runSet failed
  | run source target apart count => exact sound.refused_copyRun failed

end

end Heap

/-! ## Stores that are done -/

namespace Store

variable {heap : Heap}

/-- What the target has to show for a store to be done. -/
def Allowed (heap : Heap) : Store → View → Prop
  | word _ offset _, view => view.descriptor.isDataWord offset = true
  | field _ offset value, view => view.descriptor.isRefField offset = true ∧ heap.Present value
  | element _ index value, view =>
      view.descriptor.runOffset?.isSome = true ∧ index < view.run.length ∧ heap.Present value
  | run source _ _ count, view =>
      heap.HasRun source ∧ view.descriptor.runOffset?.isSome = true ∧
        count ≤ (heap.elementsOf source).length ∧ count ≤ view.run.length

/-- What the target shows after a store. -/
def change (heap : Heap) : Store → View → View
  | word _ offset value, view => view.setWord offset value
  | field _ offset value, view => view.setRef offset value
  | element _ index value, view => view.setRun (view.run.set index value)
  | run source _ _ count, view =>
      view.setRun ((heap.elementsOf source).take count ++ view.run.drop count)

theorem writing (store : Store) (sound : heap.Sound) :
    heap.Writing store.target (store.Allowed heap) (store.change heap)
      (store.program.run heap) := by
  cases store with
  | word handle offset value => exact sound.writing_word handle offset value
  | field handle offset value => exact sound.writing_ref handle offset value
  | element handle index value => exact sound.writing_element handle index value
  | run source target _ count => exact sound.writing_copy source target count

/-- A store changes what its target shows on the sites that it writes. -/
theorem Allowed.agrees {store : Store} {view : View} (allowed : store.Allowed heap view) :
    view.Agrees store.Writes (store.change heap view) := by
  cases store with
  | word _ offset value => exact View.agrees_setWord allowed value
  | field _ offset value => exact view.agrees_setRef offset value
  | element _ index value => exact view.agrees_setElement index value
  | run source _ _ count => exact view.agrees_copied allowed.2.2.1 allowed.2.2.2

/-- A reference that is present is live. -/
theorem live_of_member {handle : Handle} {value : Option Handle} {target : Handle}
    (live : heap.isLive handle = true) (present : heap.Present value)
    (member : target ∈ handle :: value.toList) : heap.isLive target = true := by
  rcases List.mem_cons.mp member with rfl | stored
  · exact live
  · exact present target (Option.mem_toList.mp stored)

section

variable {store : Store} {view : View} (allowed : store.Allowed heap view)
  (seen : heap.view? store.target = some view)

include allowed seen

/-- The objects of an allowed store are live. -/
theorem Allowed.isLive {handle : Handle} (member : handle ∈ store.handles) :
    heap.isLive handle = true := by
  have live := Heap.isLive_of_view seen
  cases store with
  | word =>
      obtain rfl := List.mem_singleton.mp member
      exact live
  | field => exact live_of_member live allowed.2 member
  | element => exact live_of_member live allowed.2.2 member
  | run source target =>
      obtain ⟨⟨_, sourceSeen, _⟩, _⟩ := allowed
      rcases List.mem_cons.mp member with rfl | other
      · exact Heap.isLive_of_view sourceSeen
      · obtain rfl := List.mem_singleton.mp other
        exact live

/-- The objects whose runs an allowed store needs have runs. -/
theorem Allowed.hasRun {handle : Handle} (member : handle ∈ store.runs) : heap.HasRun handle := by
  cases store with
  | word => cases member
  | field => cases member
  | element =>
      obtain rfl := List.mem_singleton.mp member
      exact ⟨view, seen, allowed.1⟩
  | run source target =>
      rcases List.mem_cons.mp member with rfl | other
      · exact allowed.1
      · obtain rfl := List.mem_singleton.mp other
        exact ⟨view, seen, allowed.2.1⟩

/-- There is no reason to refuse a store that is allowed. -/
theorem Allowed.not_refused (error : HeapError) : ¬ Refused heap store error := by
  have same {handle : Handle} {view : View} {descriptor : Descriptor}
      (seen : heap.view? handle = some view) (found : heap.descriptorOf handle = .ok descriptor) :
      view.descriptor = descriptor := by
    rw [Heap.descriptorOf_of_view seen] at found
    exact Except.ok.inj found
  have length {handle : Handle} {view : View} {count : Nat} (seen : heap.view? handle = some view)
      (running : view.descriptor.runOffset?.isSome = true)
      (counted : heap.runLength handle = .ok count) : view.run.length = count := by
    rw [Heap.runLength_of_view seen, if_pos running] at counted
    exact Except.ok.inj counted
  intro refused
  cases refused with
  | stale member stale =>
      rw [allowed.isLive seen member] at stale
      cases stale
  | noWord found plain =>
      change view.descriptor.isDataWord _ = true at allowed
      rw [same seen found, plain] at allowed
      cases allowed
  | noField found field =>
      obtain ⟨allowed, _⟩ := allowed
      rw [same seen found, field] at allowed
      cases allowed
  | noRun member found runless =>
      obtain ⟨other, there, running⟩ := allowed.hasRun seen member
      rw [same there found, runless] at running
      cases running
  | outside counted beyond =>
      obtain ⟨running, inside, _⟩ := allowed
      rw [length seen running counted] at inside
      omega
  | short sourceCounted counted short =>
      obtain ⟨⟨source, sourceSeen, sourceRunning⟩, running, enough, room⟩ := allowed
      rw [Heap.elementsOf_of_view sourceSeen,
        length sourceSeen sourceRunning sourceCounted] at enough
      rw [length seen running counted] at room
      omega

end

/-- What an allowed store has written is read back. -/
theorem Allowed.readsBack {store : Store} {view : View} {next : Heap}
    (allowed : store.Allowed heap view)
    (rewrites : heap.Rewrites next store.target (store.change heap view)) :
    store.ReadsBack heap next := by
  have element {heap : Heap} {handle : Handle} {view : View} {index : Nat} {value : Option Handle}
      (seen : heap.view? handle = some view)
      (running : view.descriptor.runOffset?.isSome = true)
      (here : view.run[index]? = some value) : heap.runGet handle index = .ok value := by
    rw [Heap.runGet_of_view seen, if_pos running, here]
  cases store with
  | word handle offset value =>
      have still : next.view? handle = some (view.setWord offset value) := rewrites.seen
      change next.readWord handle offset = .ok value
      rw [Heap.readWord_of_view still, if_pos (by exact allowed)]
      exact congrArg Except.ok (if_pos rfl)
  | field handle offset value =>
      have still : next.view? handle = some (view.setRef offset value) := rewrites.seen
      change next.readRef handle offset = .ok value
      rw [Heap.readRef_of_view still, if_pos (by exact allowed.1)]
      exact congrArg Except.ok (view.ref_setRef_self offset value)
  | element handle index value =>
      exact element rewrites.seen allowed.1 (List.getElem?_set_self allowed.2.1)
  | run source target apart count =>
      obtain ⟨⟨sourceView, sourceSeen, sourceRunning⟩, running, enough, room⟩ := allowed
      have sourceStill : next.view? source = some sourceView := by
        rw [rewrites.view?]
        exact (Function.update_of_ne apart _ _).trans sourceSeen
      rw [Heap.elementsOf_of_view sourceSeen] at enough
      intro index inside
      have within : index < sourceView.run.length := by omega
      have here := List.getElem?_eq_getElem within
      refine ⟨_, element sourceSeen sourceRunning here, element sourceStill sourceRunning here,
        element rewrites.seen running ?_⟩
      change ((heap.elementsOf source).take count ++ view.run.drop count)[index]? = _
      rw [Heap.elementsOf_of_view sourceSeen,
        List.getElem?_append_left (by rw [List.length_take]; omega),
        List.getElem?_take_of_lt inside, here]

/-- An allowed store touches its target on the sites that it writes, and nothing else. -/
theorem Allowed.done {store : Store} {view : View} {next : Heap}
    (allowed : store.Allowed heap view) (seen : heap.view? store.target = some view)
    (sane : ∀ handle view, heap.view? handle = some view → view.Sane) (sound : heap.Sound)
    (ran : store.program.run heap = (.ok ⟨⟩, next))
    (rewrites : heap.Rewrites next store.target (store.change heap view)) :
    store.Done heap next := by
  have slabs := store.fixes Heap.unseen_slabs heap
  have footprint? := store.fixes Heap.unseen_footprint? heap
  rw [ran] at slabs footprint?
  dsimp only at slabs footprint?
  have handles : next.handles = heap.handles := by rw [rewrites.rest]
  have payloadOffset := Heap.payloadOffset_congr handles footprint?
  constructor
  case rest => exact rewrites.rest
  case stats =>
    have counters : next.counters = heap.counters := by rw [rewrites.rest]
    have roots : next.roots = heap.roots := by rw [rewrites.rest]
    have allocator : next.allocator = heap.allocator := by rw [rewrites.rest]
    simp only [Heap.stats, Heap.usedBytes, Heap.slabBytes, Space.usedBytes, Space.slabBytes,
      counters, roots, allocator, handles, slabs]
  case written => exact allowed.readsBack rewrites
  case reads =>
    intro handle live
    obtain ⟨before, here⟩ := sound.isLive_iff.mp live
    by_cases same : handle = store.target
    · subst same
      obtain rfl : view = before := Option.some.inj (seen.symm.trans here)
      have touches : store.Touches store.target = store.Writes := by
        funext site
        exact propext (and_iff_right rfl)
      rw [touches]
      exact Heap.readsAlikeOff_of_agrees here rewrites.seen allowed.agrees (sane _ _ here)
        rewrites.rest (payloadOffset _)
    · have still : next.view? handle = some before := by
        rw [rewrites.view?, Function.update_of_ne same, here]
      have agrees : before.Agrees (store.Touches handle) before :=
        View.Agrees.refl before fun _ touched => absurd touched.1 same
      exact Heap.readsAlikeOff_of_agrees here still agrees (sane _ _ here) rewrites.rest
        (payloadOffset _)

end Store

/-- In a reachable heap a store touches exactly its sites, and a refused store touches nothing. -/
theorem Heap.Reachable.store_outcome {heap : Heap} (reachable : heap.Reachable) (store : Store) :
    store.Outcome heap (store.program.run heap) := by
  have writing := store.writing reachable.sound
  cases ran : store.program.run heap with
  | mk result next =>
      rw [ran] at writing
      cases writing with
      | @written view _ seen allowed rewrites =>
          exact .done (allowed.not_refused seen)
            (allowed.done seen reachable.sane reachable.sound ran rewrites)
      | refused _ => exact .refused (reachable.sound.refused_store ran)

namespace Heap

/-- A heap with two vectors that a collection has moved.  The first one refers to an integer. -/
def moved : Heap :=
  let first := ((allocVector 2).run (blank {})).2
  let second := ((allocVector 3).run first).2
  let third := ((allocInt 7).run second).2
  let fourth := ((runSet ⟨0, 0⟩ 1 (some ⟨2, 0⟩)).run third).2
  let fifth := ((release ⟨2, 0⟩).run fourth).2
  (collect.run fifth).2

theorem reachable_moved : moved.Reachable := by
  have start : (blank {}).Reachable := reachable_blank (by decide +kernel)
  have first := start.after (Operation.allocVector 2) (by decide +kernel)
  have second := first.after (Operation.allocVector 3) (by decide +kernel)
  have third := second.after (Operation.allocInt 7) (by decide +kernel)
  have fourth := third.after (Operation.runSet ⟨0, 0⟩ 1 (some ⟨2, 0⟩)) (by decide +kernel)
  have fifth := fourth.after (Operation.release ⟨2, 0⟩) (by decide +kernel)
  exact fifth.after Operation.collect (by decide +kernel)

/-- In the moved vectors a run is copied, and one that is too long is refused. -/
theorem store_outcome_moved :
    moved.Reachable ∧ moved.counters.collections = 1 ∧
      ((copyRun ⟨0, 0⟩ ⟨1, 0⟩ 2).run moved).1.toOption = some ⟨⟩ ∧
      ((copyRun ⟨0, 0⟩ ⟨1, 0⟩ 2).run moved).2.runGet ⟨1, 0⟩ 1 = .ok (some ⟨2, 0⟩) ∧
      (Store.run ⟨0, 0⟩ ⟨1, 0⟩ (by decide) 2).Outcome moved
        ((copyRun ⟨0, 0⟩ ⟨1, 0⟩ 2).run moved) ∧
      (Store.run ⟨0, 0⟩ ⟨1, 0⟩ (by decide) 3).Outcome moved
        ((copyRun ⟨0, 0⟩ ⟨1, 0⟩ 3).run moved) :=
  ⟨reachable_moved, by decide +kernel, by decide +kernel, by decide +kernel,
    Reachable.store_outcome reachable_moved (Store.run ⟨0, 0⟩ ⟨1, 0⟩ (by decide) 2),
    Reachable.store_outcome reachable_moved (Store.run ⟨0, 0⟩ ⟨1, 0⟩ (by decide) 3)⟩

end Heap

end CompactingHeap
