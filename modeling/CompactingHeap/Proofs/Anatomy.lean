import CompactingHeap.Proofs.Operations
import CompactingHeap.Proofs.Writes

/-!
# The anatomy of objects

A payload consists of the reference fields, the length word and the elements of a run, the words of
plain data, and the byte tail.  All but the tail are aligned words, no two parts have a byte in
common, and every layout ends behind the last of them.  An access that passes its check reads or
replaces one part of the object and nothing else.
-/

namespace CompactingHeap

/-- A part of a payload. -/
inductive Part where
  | field (offset : Nat)
  | length (offset : Nat)
  | element (run index : Nat)
  | plain (offset : Nat)
  | tail
deriving DecidableEq

namespace Part

/-- A part that holds a reference. -/
def IsReference : Part → Prop
  | .field _ => True
  | .element _ _ => True
  | _ => False

/-- A part that holds a plain word. -/
def IsWord : Part → Prop
  | .length _ => True
  | .plain _ => True
  | _ => False

/-- The bytes of a part. -/
def bytes (extra : Nat) : Part → Nat
  | tail => extra
  | _ => wordBytes

theorem bytes_of_ne {part : Part} {extra : Nat} (word : part ≠ .tail) :
    part.bytes extra = wordBytes := by
  cases part with
  | tail => exact absurd rfl word
  | _ => rfl

end Part

namespace Descriptor

/-- Do the instances with `extra` tail elements have the part? -/
def Has (descriptor : Descriptor) (extra : Nat) : Part → Prop
  | .field offset => .ref offset ∈ descriptor.trace
  | .length offset => descriptor.runOffset? = some offset
  | .element run index => descriptor.runOffset? = some run ∧ index < extra
  | .plain offset => descriptor.isDataWord offset = true
  | .tail => descriptor.tail = .bytes

/-- Where a part starts in the payload. -/
def start (descriptor : Descriptor) : Part → Nat
  | .field offset => offset
  | .length offset => offset
  | .element run index => Heap.runSlot run index
  | .plain offset => offset
  | .tail => descriptor.size

variable {descriptor : Descriptor} {extra : Nat}

theorem isDataWord_iff {offset : Nat} :
    descriptor.isDataWord offset = true ↔
      offset % wordBytes = 0 ∧ offset + wordBytes ≤ descriptor.size ∧
        ∀ entry ∈ descriptor.trace, entry.offset ≠ offset := by
  simp [isDataWord, and_assoc]

/-- Traced places are told apart by their offsets. -/
theorem eq_of_offset {first second : TraceEntry} (firstMember : first ∈ descriptor.trace)
    (secondMember : second ∈ descriptor.trace) (same : first.offset = second.offset) :
    first = second :=
  List.inj_on_of_nodup_map descriptor.offsets_nodup firstMember secondMember same

/-- A class with a byte tail has no run. -/
theorem runOffset?_of_bytes (bytes : descriptor.tail = .bytes) : descriptor.runOffset? = none := by
  cases found : descriptor.runOffset? with
  | none => rfl
  | some offset =>
      have references := tail_eq_references_iff.mpr ⟨offset, found⟩
      rw [bytes] at references
      cases references

/-- Every part but the tail is an aligned word. -/
theorem Has.aligned {part : Part} (has : descriptor.Has extra part) (word : part ≠ .tail) :
    descriptor.start part % wordBytes = 0 := by
  cases part with
  | field offset => exact descriptor.offset_aligned has
  | length offset => exact descriptor.offset_aligned (runOffset?_eq_some_iff.mp has)
  | element run index =>
      have aligned := descriptor.offset_aligned (runOffset?_eq_some_iff.mp has.1)
      simp only [start, Heap.runSlot, TraceEntry.offset, wordBytes] at aligned ⊢
      omega
  | plain offset => exact (isDataWord_iff.mp has).1
  | tail => exact absurd rfl word

/-- The elements of a run follow the fixed part. -/
theorem start_element {run : Nat} (found : descriptor.runOffset? = some run) (index : Nat) :
    descriptor.start (.element run index) = descriptor.size + wordBytes * index := by
  have last := descriptor.run_last (runOffset?_eq_some_iff.mp found)
  simp only [start, Heap.runSlot, wordBytes] at last ⊢
  omega

/-- A word of the fixed part is a traced place, or plain data clear of all of them. -/
theorem Has.fixed_cases {part : Part} (has : descriptor.Has extra part) (word : part ≠ .tail)
    (fixed : ∀ run index, part ≠ .element run index) :
    descriptor.start part + wordBytes ≤ descriptor.size ∧
      ((∃ entry ∈ descriptor.trace, entry.offset = descriptor.start part ∧
          part = match entry with
            | .ref offset => .field offset
            | .run offset => .length offset) ∨
        part = .plain (descriptor.start part) ∧
          ∀ entry ∈ descriptor.trace, entry.offset ≠ descriptor.start part) := by
  cases part with
  | field offset => exact ⟨descriptor.offset_inside has, Or.inl ⟨.ref offset, has, rfl, rfl⟩⟩
  | length offset =>
      have member := runOffset?_eq_some_iff.mp has
      exact ⟨descriptor.offset_inside member, Or.inl ⟨.run offset, member, rfl, rfl⟩⟩
  | element run index => exact absurd rfl (fixed run index)
  | plain offset =>
      obtain ⟨_, inside, clear⟩ := isDataWord_iff.mp has
      exact ⟨inside, Or.inr ⟨rfl, clear⟩⟩
  | tail => exact absurd rfl word

/-- Words of the fixed part that start in the same place are the same part. -/
theorem Has.eq_of_start {part other : Part} (has : descriptor.Has extra part)
    (hasToo : descriptor.Has extra other) (word : part ≠ .tail) (wordToo : other ≠ .tail)
    (same : descriptor.start part = descriptor.start other) : part = other := by
  have behind {run index : Nat} (element : descriptor.Has extra (.element run index)) :
      descriptor.size ≤ descriptor.start (.element run index) := by
    rw [start_element element.1]
    exact Nat.le_add_right _ _
  by_cases fixed : ∀ run index, part ≠ .element run index
  · obtain ⟨inside, kind⟩ := has.fixed_cases word fixed
    by_cases fixedToo : ∀ run index, other ≠ .element run index
    · obtain ⟨_, kindToo⟩ := hasToo.fixed_cases wordToo fixedToo
      rcases kind with ⟨entry, member, at', rfl⟩ | ⟨plain, clear⟩
      · rcases kindToo with ⟨entryToo, memberToo, atToo, rfl⟩ | ⟨_, clear⟩
        · rw [eq_of_offset member memberToo (at'.trans (same.trans atToo.symm))]
        · exact absurd (at'.trans same) (clear entry member)
      · rcases kindToo with ⟨entryToo, memberToo, atToo, _⟩ | ⟨plainToo, _⟩
        · exact absurd (atToo.trans same.symm) (clear entryToo memberToo)
        · rw [plain, plainToo, same]
    · push Not at fixedToo
      obtain ⟨run, index, rfl⟩ := fixedToo
      have beyond := behind hasToo
      simp only [wordBytes] at inside
      omega
  · push Not at fixed
    obtain ⟨run, index, rfl⟩ := fixed
    by_cases fixedToo : ∀ run index, other ≠ .element run index
    · obtain ⟨inside, _⟩ := hasToo.fixed_cases wordToo fixedToo
      have beyond := behind has
      simp only [wordBytes] at inside
      omega
    · push Not at fixedToo
      obtain ⟨runToo, indexToo, rfl⟩ := fixedToo
      obtain rfl : run = runToo := Option.some.inj (has.1.symm.trans hasToo.1)
      simp only [start, Heap.runSlot, wordBytes] at same
      congr 1
      omega

/-- The words of a class with a byte tail lie in the fixed part. -/
theorem Has.before_tail {part : Part} (has : descriptor.Has extra part) (word : part ≠ .tail)
    (bytes : descriptor.Has extra .tail) :
    descriptor.start part + wordBytes ≤ descriptor.size := by
  refine (has.fixed_cases word ?_).1
  rintro run index rfl
  cases has.1.symm.trans (runOffset?_of_bytes bytes)

/-- No byte belongs to two parts. -/
theorem Has.apart {part other : Part} (has : descriptor.Has extra part)
    (hasToo : descriptor.Has extra other) (different : part ≠ other) :
    descriptor.start part + part.bytes extra ≤ descriptor.start other ∨
      descriptor.start other + other.bytes extra ≤ descriptor.start part := by
  by_cases tail : part = .tail
  · subst tail
    right
    rw [Part.bytes_of_ne (Ne.symm different)]
    exact hasToo.before_tail (Ne.symm different) has
  by_cases tailToo : other = .tail
  · subst tailToo
    left
    rw [Part.bytes_of_ne tail]
    exact has.before_tail tail hasToo
  · have aligned := has.aligned tail
    have alignedToo := hasToo.aligned tailToo
    have distinct : descriptor.start part ≠ descriptor.start other := fun same =>
      different (has.eq_of_start hasToo tail tailToo same)
    rw [Part.bytes_of_ne tail, Part.bytes_of_ne tailToo]
    simp only [wordBytes] at aligned alignedToo ⊢
    omega

/-- Every part ends before the end of the content. -/
theorem Has.inside {part : Part} (has : descriptor.Has extra part) :
    descriptor.start part + part.bytes extra ≤
      descriptor.size + extra * descriptor.tail.elementBytes := by
  by_cases tail : part = .tail
  · subst tail
    have bytes : descriptor.tail = .bytes := has
    simp [start, Part.bytes, bytes, Tail.elementBytes]
  by_cases fixed : ∀ run index, part ≠ .element run index
  · rw [Part.bytes_of_ne tail]
    exact Nat.le_trans (has.fixed_cases tail fixed).1 (Nat.le_add_right _ _)
  · push Not at fixed
    obtain ⟨run, index, rfl⟩ := fixed
    have references := tail_eq_references_iff.mpr ⟨run, has.1⟩
    have within : index + 1 ≤ extra := has.2
    rw [start_element has.1, references]
    simp only [Part.bytes, Tail.elementBytes, wordBytes]
    omega

end Descriptor

/-! ## Layouts -/

/-- How a layout holds the parts of an instance with `extra` tail elements. -/
structure Layout.Holds (layout : Layout) (descriptor : Descriptor) (extra : Nat) : Prop where
  align : layout.align = max descriptor.align wordBytes
  payload : IsLeast {offset | layout.align ∣ offset ∧ headerBytes ≤ offset} layout.payload
  size : IsLeast {bytes | wordBytes ∣ bytes ∧
    layout.payload + (descriptor.size + extra * descriptor.tail.elementBytes) ≤ bytes} layout.size
  inside : ∀ part, descriptor.Has extra part →
    layout.payload + (descriptor.start part + part.bytes extra) ≤ layout.size
  aligned : ∀ part, descriptor.Has extra part → part ≠ .tail →
    wordBytes ∣ layout.payload + descriptor.start part
  apart : ∀ part other, descriptor.Has extra part → descriptor.Has extra other → part ≠ other →
    descriptor.start part + part.bytes extra ≤ descriptor.start other ∨
      descriptor.start other + other.bytes extra ≤ descriptor.start part

theorem Descriptor.payloadBytes?_eq_some_iff {descriptor : Descriptor} {extra content : Nat} :
    descriptor.payloadBytes? extra = some content ↔
      descriptor.size + extra * descriptor.tail.elementBytes < wordLimit ∧
        content = descriptor.size + extra * descriptor.tail.elementBytes := by
  simp only [payloadBytes?, Option.bind_eq_bind, Option.bind_eq_some_iff, checkedMul_eq_some_iff,
    checkedAdd_eq_some_iff]
  constructor
  · rintro ⟨tail, ⟨_, rfl⟩, fits, rfl⟩
    exact ⟨by omega, Nat.add_comm _ _⟩
  · rintro ⟨fits, rfl⟩
    exact ⟨_, ⟨by omega, rfl⟩, by omega, Nat.add_comm _ _⟩

/-- The payload of every instance of a class starts at the first aligned offset behind the
header. -/
theorem Descriptor.isLeast_payload (descriptor : Descriptor) :
    IsLeast {offset | max descriptor.align wordBytes ∣ offset ∧ headerBytes ≤ offset}
      (alignUp headerBytes (max descriptor.align wordBytes)) := by
  obtain ⟨k, _, bound, power⟩ := descriptor.max_align_eq_two_pow
  have page := two_pow_le_page bound
  rw [power]
  apply isLeast_alignUp _ (by omega)
  simp only [headerBytes, wordLimit, pageBytes] at page ⊢
  omega

/-- A layout exists as long as the count fits the header and the size, rounded up, fits a word. -/
theorem Layout.exists_of?_iff {descriptor : Descriptor} {extra : Nat} :
    (∃ layout, Layout.of? descriptor extra = some layout) ↔
      extra ≤ 2 ^ 32 - 1 ∧
        descriptor.size + extra * descriptor.tail.elementBytes +
          alignUp headerBytes (max descriptor.align wordBytes) + 7 < 2 ^ 64 := by
  constructor
  · rintro ⟨layout, laidOut⟩
    obtain ⟨small, content, payload, align, start, fits, _⟩ := Layout.of?_eq_some laidOut
    obtain ⟨_, rfl⟩ := Descriptor.payloadBytes?_eq_some_iff.mp payload
    rw [start, align] at fits
    exact ⟨by omega, fits⟩
  · rintro ⟨small, fits⟩
    have payload := Descriptor.payloadBytes?_eq_some_iff.mpr
      ⟨show descriptor.size + extra * descriptor.tail.elementBytes < wordLimit by
        simp only [wordLimit]; omega, rfl⟩
    refine Option.isSome_iff_exists.mp ?_
    unfold Layout.of?
    rw [payload]
    simp only [if_neg (show ¬ 2 ^ 32 ≤ extra by omega), Option.bind_eq_bind, Option.bind_some]
    rw [checkedAdd_eq_some_iff.mpr ⟨by simp only [wordLimit]; omega, rfl⟩]
    dsimp only [Option.bind_some]
    rw [(checkedAdd_eq_some_iff (b := wordBytes - 1)).mpr ⟨fits, rfl⟩]
    rfl

theorem Layout.holds {descriptor : Descriptor} {extra : Nat} {layout : Layout}
    (laidOut : Layout.of? descriptor extra = some layout) : layout.Holds descriptor extra := by
  obtain ⟨small, content, payload, align, start, fits, size⟩ := Layout.of?_eq_some laidOut
  obtain ⟨_, rfl⟩ := Descriptor.payloadBytes?_eq_some_iff.mp payload
  have least : IsLeast {offset | layout.align ∣ offset ∧ headerBytes ≤ offset} layout.payload := by
    rw [start, align]
    exact descriptor.isLeast_payload
  have covers : layout.payload + (descriptor.size + extra * descriptor.tail.elementBytes) ≤
      layout.size := by
    rw [size]
    simp only [wordBytes]
    omega
  constructor
  case align => exact align
  case payload => exact least
  case size =>
    refine ⟨⟨Layout.word_dvd_size laidOut, covers⟩, ?_⟩
    rintro bytes ⟨⟨words, rfl⟩, above⟩
    rw [size]
    simp only [wordBytes] at above ⊢
    omega
  case inside =>
    intro part has
    exact Nat.le_trans (Nat.add_le_add_left has.inside _) covers
  case aligned =>
    intro part has word
    exact Nat.dvd_add (Nat.dvd_trans (Layout.word_dvd_align laidOut) least.1.1)
      (Nat.dvd_of_mod_eq_zero (has.aligned word))
  case apart =>
    intro part other has hasToo different
    exact has.apart hasToo different

/-! ## Accesses -/

/-- What is in a part. -/
inductive Content (α : Type) where
  | reference (target : Option α)
  | word (value : UInt64)
  | bytes (values : Bytes)

namespace Object

variable {α : Type}

/-- What is in a part of an object, if the object has room for the part. -/
def content? (object : Object α) (part : Part) : Option (Content α) :=
  let position := object.descriptor.start part / wordBytes
  match part with
  | .field _ => object.slots[position]?.map .reference
  | .element _ _ => object.slots[position]?.map .reference
  | .length _ => object.words[position]?.map .word
  | .plain _ => object.words[position]?.map .word
  | .tail => some (.bytes object.tail)

/-- Does the object have the part? -/
def Has (object : Object α) (part : Part) : Prop :=
  object.descriptor.Has object.extra.toNat part

variable {object : Object α} {part : Part}

/-- The words of different parts are different words. -/
theorem Has.apart (has : object.Has part) {other : Part} (hasToo : object.Has other)
    (word : part ≠ .tail) (wordToo : other ≠ .tail) (different : other ≠ part) :
    object.descriptor.start part / wordBytes ≠ object.descriptor.start other / wordBytes := by
  have aligned := Descriptor.Has.aligned has word
  have alignedToo := Descriptor.Has.aligned hasToo wordToo
  have distinct : object.descriptor.start other ≠ object.descriptor.start part := fun same =>
    different (Descriptor.Has.eq_of_start hasToo has wordToo word same)
  simp only [wordBytes] at aligned alignedToo ⊢
  omega

theorem AtRest.runLength_eq (rest : object.AtRest) {run : Nat}
    (found : object.descriptor.runOffset? = some run) : object.runLength = object.extra.toNat := by
  unfold runLength
  rw [found]
  exact rest.length run found

/-- An object has room for each of its references. -/
theorem AtRest.slot_inside (rest : object.AtRest) (has : object.Has part)
    (reference : part.IsReference) :
    object.descriptor.start part / wordBytes < object.slots.size := by
  rw [object.slots_size]
  cases part with
  | field offset => exact object.field_inside has
  | element run index =>
      exact object.element_inside rest has.1 (rest.runLength_eq has.1 ▸ has.2)
  | length offset => exact reference.elim
  | plain offset => exact reference.elim
  | tail => exact reference.elim

/-- An object has room for each of its plain words. -/
theorem Has.word_inside (has : object.Has part) (word : part.IsWord) :
    object.descriptor.start part / wordBytes < object.words.size := by
  rw [object.words_size]
  cases part with
  | length offset =>
      have inside := object.descriptor.offset_inside (Descriptor.runOffset?_eq_some_iff.mp has)
      simp only [Descriptor.start, Descriptor.wordCount, TraceEntry.offset, wordBytes] at inside ⊢
      omega
  | plain offset => exact Descriptor.isDataWord_inside has
  | field offset => exact word.elim
  | element run index => exact word.elim
  | tail => exact word.elim

theorem content?_of_reference (object : Object α) (reference : part.IsReference)
    (inside : object.descriptor.start part / wordBytes < object.slots.size) :
    object.content? part = some (.reference (object.slot (object.descriptor.start part))) := by
  have read : object.slots[object.descriptor.start part / wordBytes]? =
      some (object.slot (object.descriptor.start part)) := by
    rw [slot, Array.getD_eq_getD_getElem?, Array.getElem?_eq_getElem inside]
    rfl
  cases part with
  | field offset => rw [content?, read]; rfl
  | element run index => rw [content?, read]; rfl
  | length offset => exact reference.elim
  | plain offset => exact reference.elim
  | tail => exact reference.elim

theorem content?_of_word (object : Object α) (word : part.IsWord)
    (inside : object.descriptor.start part / wordBytes < object.words.size) :
    object.content? part = some (.word (object.word (object.descriptor.start part))) := by
  have read : object.words[object.descriptor.start part / wordBytes]? =
      some (object.word (object.descriptor.start part)) := by
    rw [Object.word, Array.getD_eq_getD_getElem?, Array.getElem?_eq_getElem inside]
    rfl
  cases part with
  | length offset => rw [content?, read]; rfl
  | plain offset => rw [content?, read]; rfl
  | field offset => exact word.elim
  | element run index => exact word.elim
  | tail => exact word.elim

/-- Replacing a reference does not show in any other part. -/
theorem content?_setSlot_of_ne (has : object.Has part) (reference : part.IsReference)
    (target : Option α) {other : Part} (hasToo : object.Has other) (different : other ≠ part) :
    (object.setSlot (object.descriptor.start part) target).content? other =
      object.content? other := by
  have word : part ≠ .tail := by
    rintro rfl
    exact reference
  cases other with
  | field offset =>
      have apart := has.apart hasToo word (by simp) different
      simp only [content?, setSlot, Array.getElem?_setIfInBounds_ne apart]
  | element run index =>
      have apart := has.apart hasToo word (by simp) different
      simp only [content?, setSlot, Array.getElem?_setIfInBounds_ne apart]
  | length offset => rfl
  | plain offset => rfl
  | tail => rfl

/-- Replacing a plain word does not show in any other part. -/
theorem content?_setWord_of_ne (has : object.Has part) (plain : part.IsWord) (value : UInt64)
    {other : Part} (hasToo : object.Has other) (different : other ≠ part) :
    (object.setWord (object.descriptor.start part) value).content? other =
      object.content? other := by
  have word : part ≠ .tail := by
    rintro rfl
    exact plain
  cases other with
  | length offset =>
      have apart := has.apart hasToo word (by simp) different
      simp only [content?, setWord, Array.getElem?_setIfInBounds_ne apart]
  | plain offset =>
      have apart := has.apart hasToo word (by simp) different
      simp only [content?, setWord, Array.getElem?_setIfInBounds_ne apart]
  | field offset => rfl
  | element run index => rfl
  | tail => rfl

/-- One object differs from another in the content of one part. -/
structure Differs (object changed : Object α) (part : Part) (content : Content α) : Prop where
  has : object.Has part
  header : ∃ words slots words_size slots_size,
    changed = { object with words, slots, words_size, slots_size }
  here : changed.content? part = some content
  others : ∀ other, object.Has other → other ≠ part →
    changed.content? other = object.content? other

theorem AtRest.differs_setSlot (rest : object.AtRest) (has : object.Has part)
    (reference : part.IsReference) (target : Option α) :
    object.Differs (object.setSlot (object.descriptor.start part) target) part
      (.reference target) where
  has := has
  header := ⟨_, _, _, _, rfl⟩
  here := by
    have inside := rest.slot_inside has reference
    rw [content?_of_reference _ reference (by simpa [setSlot] using inside)]
    rw [object.slots_size] at inside
    exact congrArg (fun slot => some (Content.reference slot))
      (slot_setSlot_self object target inside)
  others _ hasToo different := content?_setSlot_of_ne has reference target hasToo different

theorem Has.differs_setWord (has : object.Has part) (word : part.IsWord) (value : UInt64) :
    object.Differs (object.setWord (object.descriptor.start part) value) part (.word value) where
  has := has
  header := ⟨_, _, _, _, rfl⟩
  here := by
    have inside := has.word_inside word
    rw [content?_of_word _ word (by simpa [setWord] using inside)]
    rw [object.words_size] at inside
    exact congrArg (fun word => some (Content.word word)) (word_setWord_self object value inside)
  others _ hasToo different := content?_setWord_of_ne has word value hasToo different

end Object

namespace Heap

variable {heap : Heap} {handle : Handle}

/-- A read finds the content of one part of the object that a handle names. -/
def Reads (heap : Heap) (handle : Handle) (part : Part) (content : Content Address) : Prop :=
  ∃ object, heap.objectOf handle = .ok object ∧ object.Has part ∧
    object.content? part = some content

/-- A write replaces one part of the object that a handle names, and nothing else. -/
structure Overwrites (heap next : Heap) (handle : Handle) (part : Part)
    (content : Content Address) :
    Prop where
  rest : next = { heap with space := next.space }
  replaced : ∃ address object changed, heap.handles.resolve handle = .ok address ∧
    heap.space.object? address = some object ∧ next.space.object? address = some changed ∧
    object.Differs changed part content ∧
    ∀ elsewhere, elsewhere ≠ address → next.space.object? elsewhere = heap.space.object? elsewhere

theorem overwrites_modifyObject {object : HeapObject} (found : heap.objectOf handle = .ok object)
    {f : HeapObject → HeapObject} {part : Part} {content : Content Address}
    (differs : object.Differs (f object) part content) :
    heap.Overwrites (heap.modifyObject handle f) handle part content := by
  rcases objectOf_eq_ok_iff.mp found with ⟨address, resolved, here⟩
  unfold modifyObject
  rw [resolved]
  refine ⟨rfl, address, object, f object, resolved, here, ?_, differs, ?_⟩
  · dsimp only
    rw [Space.object?_modify_self, here, Option.map_some]
  · intro elsewhere different
    exact Space.object?_modify_of_ne _ _ (Ne.symm different)

/-- The objects of a sound heap are at rest. -/
theorem Sound.atRest (sound : heap.Sound) {object : HeapObject}
    (found : heap.objectOf handle = .ok object) : object.AtRest := by
  rcases objectOf_eq_ok_iff.mp found with ⟨address, _, here⟩
  exact sound.linked.rest address object here

theorem Sound.reads_reference (sound : heap.Sound) {object : HeapObject} {part : Part}
    (found : heap.objectOf handle = .ok object) (has : object.Has part)
    (reference : part.IsReference) :
    heap.Reads handle part (.reference (object.slot (object.descriptor.start part))) :=
  ⟨object, found, has,
    object.content?_of_reference reference ((sound.atRest found).slot_inside has reference)⟩

theorem reads_word {object : HeapObject} {part : Part} (found : heap.objectOf handle = .ok object)
    (has : object.Has part) (word : part.IsWord) :
    heap.Reads handle part (.word (object.word (object.descriptor.start part))) :=
  ⟨object, found, has, object.content?_of_word word (has.word_inside word)⟩

/-- An element that the run of an object at rest records is a part of the object. -/
theorem Sound.has_element (sound : heap.Sound) {index slot : Nat} {object : HeapObject}
    (checked : heap.runElement handle index = .ok (object, slot)) :
    ∃ run, heap.objectOf handle = .ok object ∧ object.Has (.element run index) ∧
      object.descriptor.start (.element run index) = slot := by
  rcases runElement_eq_ok_iff.mp checked with ⟨run, recorded, inside, rfl⟩
  rcases runOf_eq_ok_iff.mp recorded with ⟨found, here⟩
  exact ⟨run, found, ⟨here, (sound.atRest found).runLength_eq here ▸ inside⟩, rfl⟩

/-- Every access that succeeds reads or replaces one part of the kind that it is for. -/
structure Confined (heap : Heap) (handle : Handle) : Prop where
  readRef : ∀ offset value, heap.readRef handle offset = .ok value →
    ∃ target, heap.Reads handle (.field offset) (.reference target) ∧
      value = target.bind heap.handleOf?
  writeRef : ∀ offset value next, (writeRef handle offset value).run heap = (.ok (), next) →
    ∃ target, heap.addressOf value = .ok target ∧
      heap.Overwrites next handle (.field offset) (.reference target)
  readWord : ∀ offset value, heap.readWord handle offset = .ok value →
    heap.Reads handle (.plain offset) (.word value)
  writeWord : ∀ offset value next, (writeWord handle offset value).run heap = (.ok (), next) →
    heap.Overwrites next handle (.plain offset) (.word value)
  runLength : ∀ length, heap.runLength handle = .ok length →
    ∃ run value, heap.Reads handle (.length run) (.word value) ∧ length = value.toNat
  runGet : ∀ index value, heap.runGet handle index = .ok value →
    ∃ run target, heap.Reads handle (.element run index) (.reference target) ∧
      value = target.bind heap.handleOf?
  runSet : ∀ index value next, (runSet handle index value).run heap = (.ok (), next) →
    ∃ run target, heap.addressOf value = .ok target ∧
      heap.Overwrites next handle (.element run index) (.reference target)
  bytes : ∀ values, heap.bytes handle = .ok values → heap.Reads handle .tail (.bytes values)

theorem reads_of_readWord {offset : Nat} {value : UInt64}
    (reads : heap.readWord handle offset = .ok value) :
    heap.Reads handle (.plain offset) (.word value) := by
  obtain ⟨object, checked, answer⟩ := bind_eq_ok_iff.mp reads
  cases answer
  obtain ⟨found, plain⟩ := withDataWord_eq_ok_iff.mp checked
  have has : object.Has (.plain offset) := plain
  exact reads_word found has trivial

theorem overwrites_of_writeWord {offset : Nat} {value : UInt64} {next : Heap}
    (writes : (writeWord handle offset value).run heap = (.ok (), next)) :
    heap.Overwrites next handle (.plain offset) (.word value) := by
  obtain ⟨object, checked, writes⟩ := HeapM.run_ask_bind_eq_ok writes
  cases writes
  obtain ⟨found, plain⟩ := withDataWord_eq_ok_iff.mp checked
  have has : object.Has (.plain offset) := plain
  exact overwrites_modifyObject found (has.differs_setWord trivial value)

theorem reads_of_runLength {length : Nat} (reads : heap.runLength handle = .ok length) :
    ∃ run value, heap.Reads handle (.length run) (.word value) ∧ length = value.toNat := by
  unfold Heap.runLength at reads
  cases checked : heap.runOf handle with
  | error error =>
      rw [checked] at reads
      cases reads
  | ok recorded =>
      rw [checked] at reads
      cases reads
      obtain ⟨object, run⟩ := recorded
      obtain ⟨found, here⟩ := runOf_eq_ok_iff.mp checked
      have has : object.Has (.length run) := here
      refine ⟨run, _, reads_word found has trivial, ?_⟩
      simp only [Object.runLength, here]
      rfl

theorem reads_of_bytes {values : Bytes} (reads : heap.bytes handle = .ok values) :
    heap.Reads handle .tail (.bytes values) := by
  obtain ⟨object, found, checked⟩ := bind_eq_ok_iff.mp reads
  obtain ⟨bytes, rfl⟩ := ite_throw_eq_ok_iff.mp checked
  exact ⟨object, found, bytes, rfl⟩

section

variable (sound : heap.Sound)

include sound

theorem Sound.reads_of_readRef {offset : Nat} {value : Option Handle}
    (reads : heap.readRef handle offset = .ok value) :
    ∃ target, heap.Reads handle (.field offset) (.reference target) ∧
      value = target.bind heap.handleOf? := by
  obtain ⟨object, checked, answer⟩ := bind_eq_ok_iff.mp reads
  cases answer
  obtain ⟨found, field⟩ := withRefField_eq_ok_iff.mp checked
  have has : object.Has (.field offset) := field
  exact ⟨_, sound.reads_reference found has trivial, rfl⟩

theorem Sound.overwrites_of_writeRef {offset : Nat} {value : Option Handle} {next : Heap}
    (writes : (writeRef handle offset value).run heap = (.ok (), next)) :
    ∃ target, heap.addressOf value = .ok target ∧
      heap.Overwrites next handle (.field offset) (.reference target) := by
  obtain ⟨object, checked, writes⟩ := HeapM.run_ask_bind_eq_ok writes
  obtain ⟨target, known, writes⟩ := HeapM.run_ask_bind_eq_ok writes
  cases writes
  obtain ⟨found, field⟩ := withRefField_eq_ok_iff.mp checked
  have has : object.Has (.field offset) := field
  exact ⟨target, known,
    overwrites_modifyObject found ((sound.atRest found).differs_setSlot has trivial target)⟩

theorem Sound.reads_of_runGet {index : Nat} {value : Option Handle}
    (reads : heap.runGet handle index = .ok value) :
    ∃ run target, heap.Reads handle (.element run index) (.reference target) ∧
      value = target.bind heap.handleOf? := by
  obtain ⟨⟨object, slot⟩, checked, answer⟩ := bind_eq_ok_iff.mp reads
  cases answer
  obtain ⟨run, found, has, rfl⟩ := sound.has_element checked
  exact ⟨run, _, sound.reads_reference found has trivial, rfl⟩

theorem Sound.overwrites_of_runSet {index : Nat} {value : Option Handle} {next : Heap}
    (writes : (runSet handle index value).run heap = (.ok (), next)) :
    ∃ run target, heap.addressOf value = .ok target ∧
      heap.Overwrites next handle (.element run index) (.reference target) := by
  obtain ⟨⟨object, slot⟩, checked, writes⟩ := HeapM.run_ask_bind_eq_ok writes
  obtain ⟨target, known, writes⟩ := HeapM.run_ask_bind_eq_ok writes
  cases writes
  obtain ⟨run, found, has, rfl⟩ := sound.has_element checked
  exact ⟨run, target, known,
    overwrites_modifyObject found ((sound.atRest found).differs_setSlot has trivial target)⟩

theorem Sound.confined (handle : Handle) : heap.Confined handle where
  readRef _ _ := sound.reads_of_readRef
  writeRef _ _ _ := sound.overwrites_of_writeRef
  readWord _ _ := reads_of_readWord
  writeWord _ _ _ := overwrites_of_writeWord
  runLength _ := reads_of_runLength
  runGet _ _ := sound.reads_of_runGet
  runSet _ _ _ := sound.overwrites_of_runSet
  bytes _ := reads_of_bytes

end

end Heap

/-- When the instances of a class have layouts, and what the layouts hold, given where payloads
start. -/
structure Descriptor.LaysOut (descriptor : Descriptor) (start : Nat) : Prop where
  payload : IsLeast {offset | max descriptor.align wordBytes ∣ offset ∧ headerBytes ≤ offset} start
  exists_iff : ∀ extra, (∃ layout, Layout.of? descriptor extra = some layout) ↔
    extra ≤ 2 ^ 32 - 1 ∧
      descriptor.size + extra * descriptor.tail.elementBytes + start + 7 < 2 ^ 64
  holds : ∀ extra layout, Layout.of? descriptor extra = some layout →
    layout.payload = start ∧ layout.Holds descriptor extra

theorem Descriptor.laysOut (descriptor : Descriptor) :
    descriptor.LaysOut (alignUp headerBytes (max descriptor.align wordBytes)) where
  payload := descriptor.isLeast_payload
  exists_iff _ := Layout.exists_of?_iff
  holds extra layout laidOut := by
    obtain ⟨_, _, _, align, payload, _⟩ := Layout.of?_eq_some laidOut
    exact ⟨by rw [payload, align], Layout.holds laidOut⟩

namespace Heap

/-- Layouts contain every slot: the layouts of every class are exactly large enough for the parts
of its instances, which have no byte in common, and every access stays in a part of the kind it is
for. -/
theorem Reachable.laysOut_confined {heap : Heap} (reachable : heap.Reachable) :
    (∀ descriptor : Descriptor, ∃ payload, descriptor.LaysOut payload) ∧
      ∀ handle, heap.Confined handle :=
  ⟨fun descriptor => ⟨_, descriptor.laysOut⟩, reachable.sound.confined⟩

theorem laysOut_confined_sample :
    sample.Reachable ∧ (∀ descriptor : Descriptor, ∃ payload, descriptor.LaysOut payload) ∧
      ∀ handle, sample.Confined handle :=
  ⟨reachable_sample, reachable_sample.laysOut_confined⟩

end Heap

end CompactingHeap
