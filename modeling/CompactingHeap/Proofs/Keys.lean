import CompactingHeap.RefTable.Key
import CompactingHeap.Proofs.Views
import CompactingHeap.Proofs.Enclaves

/-!
# What counts of a key

What counts when an object is a key shows in its view, and of an object that is compared by
identity only the class and the handle count.  Two objects are the same key if the same counts of
both.
-/

namespace CompactingHeap

open Heap

/-- The objects of these classes are compared by their content. -/
def Key.contentClasses : List ClassId :=
  [.int, .float, .bool, .char, .string]

/-- The class of the objects that are a key. -/
def Key.id : Key → ClassId
  | int _ => .int
  | float _ => .float
  | bool _ => .bool
  | char _ => .char
  | string _ => .string
  | identity id _ => id

/-- Objects that are compared by content have no run. -/
theorem View.Sane.runless {view : View} (sane : view.Sane)
    (content : view.descriptor.id ∈ Key.contentClasses) : view.descriptor.runOffset? = none := by
  have builtin := sane.builtin
  simp only [Key.contentClasses, List.mem_cons, List.not_mem_nil, or_false] at content
  rcases content with same | same | same | same | same
  all_goals
    rw [same] at builtin
    rw [builtin _ rfl]
    rfl

/-- What counts of the object that shows the view. -/
def View.key (view : View) (handle : Handle) : Except HeapError Key :=
  if view.descriptor.id = .int then .ok (.int (view.word 0).toInt64)
  else if view.descriptor.id = .float then .ok (.float (view.word 0))
  else if view.descriptor.id = .bool then .ok (.bool ((view.word 0).toUInt8 != 0))
  else if view.descriptor.id = .char then
    if valid : (view.word 0).toUInt32.isValidChar then .ok (.char ⟨(view.word 0).toUInt32, valid⟩)
    else .error (.corrupt (.invalidChar (view.word 0).toUInt32 handle))
  else if view.descriptor.id = .string then .ok (.string view.tail)
  else .ok (.identity view.descriptor.id handle)

namespace Key

variable {heap next : Heap} {handle : Handle} {view : View} {identity : Key}

theorem ofHandle_of_view (seen : heap.view? handle = some view) :
    ofHandle heap handle = view.key handle := by
  unfold ofHandle View.key
  rw [classOf_of_view seen]
  dsimp only [bind, Except.bind]
  split_ifs with isInt isFloat isBool isChar valid isString
  · unfold Heap.int
    rw [scalar_of_view seen, if_pos isInt]
    rfl
  · unfold Heap.float
    rw [scalar_of_view seen, if_pos isFloat]
    rfl
  · unfold Heap.bool
    rw [scalar_of_view seen, if_pos isBool]
    rfl
  · unfold Heap.char
    rw [scalar_of_view seen, if_pos isChar]
    dsimp only [bind, Except.bind]
    rw [dif_pos valid]
    rfl
  · unfold Heap.char
    rw [scalar_of_view seen, if_pos isChar]
    dsimp only [bind, Except.bind]
    rw [dif_neg valid]
    rfl
  · rw [string_of_view seen, if_pos isString]
    rfl
  · rfl

/-- A live object is a key. -/
theorem exists_ofHandle (sound : heap.Sound)
    (sane : ∀ handle view, heap.view? handle = some view → view.Sane)
    (live : heap.isLive handle = true) : ∃ identity, ofHandle heap handle = .ok identity := by
  obtain ⟨view, seen⟩ := sound.isLive_iff.mp live
  rw [ofHandle_of_view seen]
  unfold View.key
  split_ifs with isInt isFloat isBool isChar valid isString
  · exact ⟨_, rfl⟩
  · exact ⟨_, rfl⟩
  · exact ⟨_, rfl⟩
  · exact ⟨_, rfl⟩
  · exact absurd ((sane handle view seen).char isChar) valid
  · exact ⟨_, rfl⟩
  · exact ⟨_, rfl⟩

/-- A stale handle is no key. -/
theorem ofHandle_stale (sound : heap.Sound) (stale : heap.isLive handle = false) :
    ofHandle heap handle = .error (.staleHandle handle) := by
  unfold ofHandle Heap.classOf
  rw [sound.objectOf_stale (sound.isLive_eq_false_iff.mp stale)]
  rfl

/-- An object is a key of its class, which is compared by content or by identity. -/
theorem classOf_of_ofHandle (sound : heap.Sound) (known : ofHandle heap handle = .ok identity) :
    heap.classOf handle = .ok identity.id ∧
      (identity.id ∈ contentClasses ∨ identity = .identity identity.id handle) := by
  cases seen : heap.view? handle with
  | none =>
      rw [ofHandle_stale sound (sound.isLive_eq_false_iff.mpr seen)] at known
      cases known
  | some view =>
      rw [ofHandle_of_view seen] at known
      rw [classOf_of_view seen]
      unfold View.key at known
      split_ifs at known with isInt isFloat isBool isChar valid isString
      all_goals cases known
      · exact ⟨congrArg _ isInt, Or.inl (by simp [Key.id, contentClasses])⟩
      · exact ⟨congrArg _ isFloat, Or.inl (by simp [Key.id, contentClasses])⟩
      · exact ⟨congrArg _ isBool, Or.inl (by simp [Key.id, contentClasses])⟩
      · exact ⟨congrArg _ isChar, Or.inl (by simp [Key.id, contentClasses])⟩
      · exact ⟨congrArg _ isString, Or.inl (by simp [Key.id, contentClasses])⟩
      · exact ⟨rfl, Or.inr rfl⟩

theorem isLive_of_ofHandle (sound : heap.Sound) (known : ofHandle heap handle = .ok identity) :
    heap.isLive handle = true := by
  cases live : heap.isLive handle with
  | true => rfl
  | false =>
      rw [ofHandle_stale sound live] at known
      cases known

/-- Of an object that is compared by identity, the class and the handle count. -/
theorem ofHandle_of_classOf {id : ClassId} (known : heap.classOf handle = .ok id)
    (other : id ∉ contentClasses) : ofHandle heap handle = .ok (.identity id handle) := by
  simp only [contentClasses, List.mem_cons, List.not_mem_nil, or_false, not_or] at other
  obtain ⟨notInt, notFloat, notBool, notChar, notString⟩ := other
  unfold ofHandle
  rw [known]
  dsimp only [bind, Except.bind]
  rw [if_neg notInt, if_neg notFloat, if_neg notBool, if_neg notChar, if_neg notString]
  rfl

/-- What counts of a key stays the same if its class does, and its view if its content counts. -/
theorem ofHandle_of_same (sound : heap.Sound) (known : ofHandle heap handle = .ok identity)
    (sameClass : next.classOf handle = heap.classOf handle)
    (sameView : identity.id ∈ contentClasses → next.view? handle = heap.view? handle) :
    ofHandle next handle = .ok identity := by
  obtain ⟨sameId, counts⟩ := classOf_of_ofHandle sound known
  by_cases content : identity.id ∈ contentClasses
  · obtain ⟨view, seen⟩ := sound.isLive_iff.mp (isLive_of_ofHandle sound known)
    rw [ofHandle_of_view seen] at known
    rw [ofHandle_of_view ((sameView content).trans seen)]
    exact known
  · rw [counts.resolve_left content]
    exact ofHandle_of_classOf (sameClass.trans sameId) content

/-- Two objects are the same key if the same counts of both. -/
theorem same_eq {first second : Handle} {firstKey secondKey : Key} (sound : heap.Sound)
    (known : ofHandle heap first = .ok firstKey) (knownToo : ofHandle heap second = .ok secondKey) :
    same heap first second = .ok (decide (firstKey = secondKey)) := by
  unfold same
  by_cases alike : first = second
  · subst alike
    rw [known] at knownToo
    cases knownToo
    rw [if_pos rfl, decide_eq_true rfl]
    rfl
  · rw [if_neg alike, (classOf_of_ofHandle sound known).1, (classOf_of_ofHandle sound knownToo).1]
    dsimp only [bind, Except.bind]
    by_cases sameClass : firstKey.id = secondKey.id
    · rw [if_pos sameClass, known, knownToo]
      rfl
    · have different : firstKey ≠ secondKey := fun same => sameClass (congrArg Key.id same)
      rw [if_neg sameClass, decide_eq_false different]
      rfl

end Key

end CompactingHeap
