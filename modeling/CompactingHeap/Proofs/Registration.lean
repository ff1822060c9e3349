import CompactingHeap.Class.Accepted
import CompactingHeap.Proofs.Classes

/-!
# Registration

The check of a class description looks at the traced places one after the other and remembers what
it has seen.  Here it is compared with a description of the accepted classes that knows of no
order: a name of non-empty segments, an alignment, and traced places that are aligned, inside,
apart, and at most one of them a run at the end.  A call to a registry is refused for a name that
is taken or for a class that is not well-formed, and otherwise appends the class.  What a registry
knows it knows for ever.
-/

namespace CompactingHeap

/-- The place is the start of a run. -/
def TraceEntry.isRun : TraceEntry → Bool
  | ref _ => false
  | run _ => true

namespace Descriptor

/-! ## Names -/

theorem segments_ne_nil (text : List Char) : segments text ≠ [] := by
  cases text with
  | nil => exact List.cons_ne_nil _ _
  | cons c rest =>
      unfold segments
      split
      · exact List.cons_ne_nil _ _
      · split <;> exact List.cons_ne_nil _ _

/-- The segments of a name are what lies between its dots. -/
theorem segments_eq_splitOn (text : List Char) : segments text = text.splitOn '.' := by
  induction text with
  | nil => rfl
  | cons c rest ih =>
      have later : segments rest = rest.splitOnP (· == '.') := ih
      rw [List.splitOn, List.splitOnP_cons_eq_if_modifyHead, ← later, segments]
      split
      · next none => exact absurd none (segments_ne_nil rest)
      · next first others found =>
        rw [found]
        simp only [beq_iff_eq, List.modifyHead_cons]

/-! ## Traced places -/

/-- The kind of the tail behind traced places, given what else follows the fixed part. -/
def tailBehind (tail : Tail) (trace : List TraceEntry) : Tail :=
  if trace.any TraceEntry.isRun then .references else tail

/-- The traced places of a class: aligned words inside the fixed part, pairwise different and none
of them seen before, and at most one of them a run, which is the last word and the only tail. -/
structure Traced (size : Nat) (seen : List Nat) (tail : Tail) (trace : List TraceEntry) : Prop where
  aligned : ∀ entry ∈ trace, wordBytes ∣ entry.offset
  inside : ∀ entry ∈ trace, entry.offset + wordBytes ≤ size
  fresh : ∀ entry ∈ trace, entry.offset ∉ seen
  distinct : trace.Pairwise fun first second => first.offset ≠ second.offset
  runs : trace.countP TraceEntry.isRun ≤ 1
  run_last : ∀ offset, .run offset ∈ trace → tail = .none ∧ offset + wordBytes = size

section

variable {size : Nat} {seen : List Nat} {tail result : Tail} {offset : Nat}
  {rest : List TraceEntry}

theorem checkTrace_ref_eq_ok_iff :
    checkTrace size seen tail (.ref offset :: rest) = .ok result ↔
      (wordBytes ∣ offset ∧ offset + wordBytes ≤ size ∧ offset ∉ seen) ∧
        checkTrace size (offset :: seen) tail rest = .ok result := by
  rw [Nat.dvd_iff_mod_eq_zero]
  rw [checkTrace]
  grind [TraceEntry.offset]

theorem checkTrace_run_eq_ok_iff :
    checkTrace size seen tail (.run offset :: rest) = .ok result ↔
      (wordBytes ∣ offset ∧ offset + wordBytes = size ∧ offset ∉ seen) ∧ tail = .none ∧
        checkTrace size (offset :: seen) .references rest = .ok result := by
  rw [Nat.dvd_iff_mod_eq_zero]
  rw [checkTrace]
  grind [TraceEntry.offset]

/-- Places are new and apart if the first one is new, and the others still are once it has been
seen. -/
theorem apart_cons_iff (entry : TraceEntry) :
    ((∀ other ∈ entry :: rest, other.offset ∉ seen) ∧
        (entry :: rest).Pairwise fun first second => first.offset ≠ second.offset) ↔
      entry.offset ∉ seen ∧ (∀ other ∈ rest, other.offset ∉ entry.offset :: seen) ∧
        rest.Pairwise fun first second => first.offset ≠ second.offset := by
  rw [List.forall_mem_cons, List.pairwise_cons]
  simp only [List.mem_cons, not_or]
  constructor
  · rintro ⟨⟨new, fresh⟩, apart, distinct⟩
    exact ⟨new, fun other member => ⟨Ne.symm (apart other member), fresh other member⟩, distinct⟩
  · rintro ⟨new, later, distinct⟩
    exact ⟨⟨new, fun other member => (later other member).2⟩,
      fun other member => Ne.symm (later other member).1, distinct⟩

/-- A place in front that is no run. -/
theorem traced_ref_iff :
    Traced size seen tail (.ref offset :: rest) ↔
      (wordBytes ∣ offset ∧ offset + wordBytes ≤ size ∧ offset ∉ seen) ∧
        Traced size (offset :: seen) tail rest := by
  constructor
  · intro traced
    obtain ⟨new, fresh, distinct⟩ :=
      (apart_cons_iff (.ref offset)).mp ⟨traced.fresh, traced.distinct⟩
    obtain ⟨aligned, alignedToo⟩ := List.forall_mem_cons.mp traced.aligned
    obtain ⟨inside, insideToo⟩ := List.forall_mem_cons.mp traced.inside
    refine ⟨⟨aligned, inside, new⟩, alignedToo, insideToo, fresh, distinct, ?_, ?_⟩
    · simpa [TraceEntry.isRun] using traced.runs
    · exact fun offset member => traced.run_last offset (List.mem_cons_of_mem _ member)
  · rintro ⟨⟨aligned, inside, new⟩, traced⟩
    obtain ⟨fresh, distinct⟩ :=
      (apart_cons_iff (.ref offset)).mpr ⟨new, traced.fresh, traced.distinct⟩
    refine ⟨List.forall_mem_cons.mpr ⟨aligned, traced.aligned⟩,
      List.forall_mem_cons.mpr ⟨inside, traced.inside⟩, fresh, distinct, ?_, ?_⟩
    · simpa [TraceEntry.isRun] using traced.runs
    · intro other member
      rcases List.mem_cons.mp member with same | later
      · cases same
      · exact traced.run_last other later

/-- A run in front is the last word, there is no other tail, and no run follows. -/
theorem traced_run_iff :
    Traced size seen tail (.run offset :: rest) ↔
      (wordBytes ∣ offset ∧ offset + wordBytes = size ∧ offset ∉ seen) ∧ tail = .none ∧
        Traced size (offset :: seen) .references rest := by
  constructor
  · intro traced
    obtain ⟨new, fresh, distinct⟩ :=
      (apart_cons_iff (.run offset)).mp ⟨traced.fresh, traced.distinct⟩
    obtain ⟨aligned, alignedToo⟩ := List.forall_mem_cons.mp traced.aligned
    obtain ⟨_, insideToo⟩ := List.forall_mem_cons.mp traced.inside
    obtain ⟨none, last⟩ := traced.run_last offset List.mem_cons_self
    have single := traced.runs
    rw [List.countP_cons_of_pos (by rfl)] at single
    have others : ∀ other, TraceEntry.run other ∉ rest := by
      intro other member
      have counted : 0 < rest.countP TraceEntry.isRun := List.countP_pos_iff.mpr ⟨_, member, rfl⟩
      omega
    refine ⟨⟨aligned, last, new⟩, none, alignedToo, insideToo, fresh, distinct, ?_, ?_⟩
    · omega
    · exact fun other member => absurd member (others other)
  · rintro ⟨⟨aligned, last, new⟩, none, traced⟩
    obtain ⟨fresh, distinct⟩ :=
      (apart_cons_iff (.run offset)).mpr ⟨new, traced.fresh, traced.distinct⟩
    have others : rest.countP TraceEntry.isRun = 0 := by
      rw [List.countP_eq_zero]
      intro entry member isRun
      cases entry with
      | ref => cases isRun
      | run other => cases (traced.run_last other member).1
    refine ⟨List.forall_mem_cons.mpr ⟨aligned, traced.aligned⟩,
      List.forall_mem_cons.mpr ⟨Nat.le_of_eq last, traced.inside⟩, fresh, distinct, ?_, ?_⟩
    · rw [List.countP_cons_of_pos (by rfl), others]
    · intro other member
      rcases List.mem_cons.mp member with same | later
      · cases same
        exact ⟨none, last⟩
      · cases (traced.run_last other later).1

end

/-- The scan of the traced places accepts them exactly if they are as they should be. -/
theorem checkTrace_eq_ok_iff {size : Nat} {seen : List Nat} {tail result : Tail}
    {trace : List TraceEntry} :
    checkTrace size seen tail trace = .ok result ↔
      Traced size seen tail trace ∧ result = tailBehind tail trace := by
  induction trace generalizing seen tail with
  | nil =>
      have traced : Traced size seen tail [] := by constructor <;> simp
      constructor
      · intro accepted
        cases accepted
        exact ⟨traced, rfl⟩
      · rintro ⟨_, rfl⟩
        rfl
  | cons entry rest ih =>
      cases entry with
      | ref offset =>
          have behind : tailBehind tail (.ref offset :: rest) = tailBehind tail rest := rfl
          rw [checkTrace_ref_eq_ok_iff, traced_ref_iff, ih, behind]
          simp only [and_assoc]
      | run offset =>
          have behind : tailBehind tail (.run offset :: rest) = tailBehind .references rest := by
            unfold tailBehind
            simp [TraceEntry.isRun]
          rw [checkTrace_run_eq_ok_iff, traced_run_iff, ih, behind]
          simp only [and_assoc]

end Descriptor

/-! ## Well-formed classes -/

/-- A call to a registry: the description of a class. -/
structure Registration where
  name : String
  size : Nat
  align : Nat
  trace : List TraceEntry
  byteTail : Bool

namespace Registration

/-- What is accepted.  Offsets and sizes are natural numbers, so the end of a place cannot wrap. -/
structure WellFormed (call : Registration) : Prop where
  segments : ∀ segment ∈ call.name.toList.splitOn '.', segment ≠ []
  power : ∃ k, call.align = 2 ^ k
  page : call.align ≤ pageBytes
  entries : call.trace.length ≤ maxTraceEntries
  references : call.trace ≠ [] → wordBytes ≤ call.align
  aligned : ∀ entry ∈ call.trace, wordBytes ∣ entry.offset
  inside : ∀ entry ∈ call.trace, entry.offset + wordBytes ≤ call.size
  distinct : call.trace.Pairwise fun first second => first.offset ≠ second.offset
  runs : call.trace.countP TraceEntry.isRun ≤ 1
  run_last : ∀ offset, .run offset ∈ call.trace →
    call.byteTail = false ∧ offset + wordBytes = call.size

/-- What follows the fixed part of an instance. -/
def tail (call : Registration) : Tail :=
  Descriptor.tailBehind (if call.byteTail then .bytes else .none) call.trace

/-- The descriptor has exactly the data of the call. -/
structure Describes (call : Registration) (descriptor : Descriptor) : Prop where
  name : descriptor.name = call.name
  size : descriptor.size = call.size
  align : descriptor.align = call.align
  trace : descriptor.trace = call.trace
  tail : descriptor.tail = call.tail

/-- The tail before the trace. -/
def tailBefore (call : Registration) : Tail :=
  if call.byteTail then .bytes else .none

theorem tailBefore_eq_none_iff {call : Registration} :
    call.tailBefore = .none ↔ call.byteTail = false := by
  unfold tailBefore
  cases call.byteTail <;> simp

/-- What the check of a class description accepts is well-formed. -/
theorem wellFormed_of_check {call : Registration} {tail : Tail}
    (accepted :
      Descriptor.check call.name call.size call.align call.trace call.byteTail = .ok tail) :
    call.WellFormed ∧ tail = call.tail := by
  unfold Descriptor.check at accepted
  rw [Descriptor.segments_eq_splitOn,
    show (if call.byteTail then Tail.bytes else Tail.none) = call.tailBefore from rfl] at accepted
  split_ifs at accepted with segments align entries references
  obtain ⟨traced, rfl⟩ : Descriptor.Traced call.size [] call.tailBefore call.trace ∧
      tail = call.tail := Descriptor.checkTrace_eq_ok_iff.mp accepted
  simp only [Bool.or_eq_true, Bool.not_eq_true', decide_eq_true_eq, not_or, Bool.not_eq_false,
    Nat.not_lt] at align
  refine ⟨?_, rfl⟩
  constructor
  · intro segment member missing
    exact segments (List.any_eq_true.mpr ⟨segment, member, List.isEmpty_iff.mpr missing⟩)
  · exact isPowerOfTwo_iff.mp align.1
  · exact align.2
  · exact Nat.le_of_not_lt entries
  · intro some
    simpa [some] using references
  · exact traced.aligned
  · exact traced.inside
  · exact traced.distinct
  · exact traced.runs
  · intro offset member
    obtain ⟨none, last⟩ := traced.run_last offset member
    exact ⟨tailBefore_eq_none_iff.mp none, last⟩

/-- The check of a class description accepts what is well-formed. -/
theorem WellFormed.check {call : Registration} (formed : call.WellFormed) :
    Descriptor.check call.name call.size call.align call.trace call.byteTail = .ok call.tail := by
  have traced : Descriptor.Traced call.size [] call.tailBefore call.trace := by
    constructor
    · exact formed.aligned
    · exact formed.inside
    · exact fun _ _ => List.not_mem_nil
    · exact formed.distinct
    · exact formed.runs
    · intro offset member
      obtain ⟨none, last⟩ := formed.run_last offset member
      exact ⟨tailBefore_eq_none_iff.mpr none, last⟩
  unfold Descriptor.check
  rw [Descriptor.segments_eq_splitOn, if_neg, if_neg, if_neg (Nat.not_lt.mpr formed.entries),
    if_neg]
  · exact Descriptor.checkTrace_eq_ok_iff.mpr ⟨traced, rfl⟩
  · intro short
    simp only [Bool.and_eq_true, Bool.not_eq_true', decide_eq_true_eq,
      List.isEmpty_eq_false_iff] at short
    exact Nat.not_lt.mpr (formed.references short.1) short.2
  · intro unfit
    simp only [Bool.or_eq_true, Bool.not_eq_true', decide_eq_true_eq] at unfit
    rcases unfit with other | large
    · rw [isPowerOfTwo_iff.mpr formed.power] at other
      cases other
    · exact Nat.not_lt.mpr formed.page large
  · intro empty
    obtain ⟨segment, member, missing⟩ := List.any_eq_true.mp empty
    exact formed.segments segment member (List.isEmpty_iff.mp missing)

/-- The check of a class description accepts what is well-formed, and nothing else. -/
theorem check_eq_ok_iff {call : Registration} {tail : Tail} :
    Descriptor.check call.name call.size call.align call.trace call.byteTail = .ok tail ↔
      call.WellFormed ∧ tail = call.tail := by
  constructor
  · exact wellFormed_of_check
  · rintro ⟨formed, rfl⟩
    exact formed.check

/-- A descriptor is made of what is well-formed, with exactly its data. -/
theorem make_eq_ok {call : Registration} {id : ClassId} {descriptor : Descriptor}
    (made : Descriptor.make id call.name call.size call.align call.trace call.byteTail =
      .ok descriptor) :
    call.WellFormed ∧ call.Describes descriptor ∧ descriptor.id = id := by
  unfold Descriptor.make at made
  split at made
  · next tail accepted =>
    cases made
    obtain ⟨formed, same⟩ := check_eq_ok_iff.mp accepted
    exact ⟨formed, ⟨rfl, rfl, rfl, rfl, same⟩, rfl⟩
  · cases made

/-- A description that is refused is not well-formed. -/
theorem make_eq_error {call : Registration} {id : ClassId} {error : HeapError}
    (refused : Descriptor.make id call.name call.size call.align call.trace call.byteTail =
      .error error) :
    ¬ call.WellFormed ∧ ∃ flaw, error = .invalidDescriptor call.name flaw := by
  unfold Descriptor.make at refused
  split at refused
  · cases refused
  · next flaw rejected =>
    cases refused
    refine ⟨fun formed => ?_, flaw, rfl⟩
    rw [check_eq_ok_iff.mpr ⟨formed, rfl⟩] at rejected
    cases rejected

end Registration

/-! ## Calls to a registry -/

namespace Registry

/-- The outcome of a call and the registry that it leaves. -/
def perform (registry : Registry) (call : Registration) : Except HeapError ClassId × Registry :=
  match registry.register call.name call.size call.align call.trace call.byteTail with
  | .ok (id, extended) => (.ok id, extended)
  | .error error => (.error error, registry)

/-- Calls lead from one registry to the other. -/
inductive Extends : Registry → Registry → Prop
  | refl (registry : Registry) : Extends registry registry
  | called {registry later : Registry} (call : Registration) :
      Extends registry later → Extends registry (later.perform call).2

/-- What a registry knows, a later one knows too. -/
structure Keeps (registry later : Registry) : Prop where
  get : ∀ id descriptor, registry.get id = .ok descriptor → later.get id = .ok descriptor
  lookup : ∀ name descriptor, registry.lookup name = .ok descriptor →
    later.lookup name = .ok descriptor

/-- The descriptor of an identifier has this identifier, and it is the descriptor of its name. -/
def Indexed (registry : Registry) : Prop :=
  ∀ id descriptor, registry.get id = .ok descriptor →
    descriptor.id = id ∧ registry.lookup descriptor.name = .ok descriptor

/-- The index of names and the array agree: the index gives an identifier for a name exactly if the
array has a class of this name there. -/
def Agrees (registry : Registry) : Prop :=
  ∀ name id, registry.find? name = some id ↔
    ∃ descriptor, registry.get id = .ok descriptor ∧ descriptor.name = name

/-! ## Names -/

theorem lookup_eq_ok_iff {registry : Registry} {name : String} {descriptor : Descriptor} :
    registry.lookup name = .ok descriptor ↔
      ∃ id, registry.find? name = some id ∧ registry.get id = .ok descriptor := by
  unfold lookup
  split <;> simp_all

/-- The class comes last in the array of the extended registry and first in its index, under a name
that was free. -/
structure Adds (registry : Registry) (added : Descriptor) (extended : Registry) : Prop where
  classes : extended.classes = registry.classes.push added
  names : extended.names = (added.name, added.id) :: registry.names
  free : registry.find? added.name = none
  id : added.id = ⟨registry.size.toUInt32⟩

section

variable {registry extended : Registry} {added : Descriptor}

theorem Adds.find?_self (adds : registry.Adds added extended) :
    extended.find? added.name = some added.id := by
  unfold find?
  rw [adds.names, List.lookup_cons_self]

/-- The index keeps what it gives: the new name was free. -/
theorem Adds.find?_known (adds : registry.Adds added extended) {name : String} {id : ClassId}
    (known : registry.find? name = some id) : extended.find? name = some id := by
  have other : name ≠ added.name := by
    rintro rfl
    rw [adds.free] at known
    cases known
  unfold find? at known ⊢
  rw [adds.names, List.lookup_cons, beq_false_of_ne other]
  exact known

theorem Adds.get_known (adds : registry.Adds added extended) {id : ClassId}
    {descriptor : Descriptor} (known : registry.get id = .ok descriptor) :
    extended.get id = .ok descriptor := by
  rw [get_eq_ok_iff] at known ⊢
  have inside := (Array.getElem?_eq_some_iff.mp known).1
  rw [adds.classes, Array.getElem?_push, if_neg (by omega), known]

/-- A new class leaves what is known. -/
theorem Adds.keeps (adds : registry.Adds added extended) : registry.Keeps extended where
  get _ _ known := adds.get_known known
  lookup name descriptor known := by
    rw [lookup_eq_ok_iff] at known ⊢
    obtain ⟨id, found, described⟩ := known
    exact ⟨id, adds.find?_known found, adds.get_known described⟩

/-- A new class keeps identifiers and names in step. -/
theorem Adds.indexed (adds : registry.Adds added extended) (indexed : registry.Indexed) :
    extended.Indexed := by
  intro id descriptor known
  have found := get_eq_ok_iff.mp known
  rw [adds.classes, Array.getElem?_push] at found
  split at found
  · next last =>
    cases found
    have same : added.id = id := by
      rw [adds.id, Registry.size, ← last]
      exact congrArg ClassId.mk UInt32.ofNat_toNat
    refine ⟨same, lookup_eq_ok_iff.mpr ⟨id, ?_, known⟩⟩
    rw [← same]
    exact adds.find?_self
  · obtain ⟨same, looked⟩ := indexed id descriptor (get_eq_ok_iff.mpr found)
    exact ⟨same, adds.keeps.lookup _ _ looked⟩

end

section

variable {registry : Registry} {call : Registration}

/-- A call is refused, or a class is added that the call describes. -/
theorem perform_cases (registry : Registry) (call : Registration) :
    ((registry.find? call.name).isSome = true ∧
        registry.perform call = (.error (.duplicateType call.name), registry)) ∨
      (registry.find? call.name = none ∧ ¬ call.WellFormed ∧
        ∃ flaw, registry.perform call = (.error (.invalidDescriptor call.name flaw), registry)) ∨
      (registry.find? call.name = none ∧ call.WellFormed ∧
        ∃ added extended, registry.perform call = (.ok ⟨registry.size.toUInt32⟩, extended) ∧
          registry.Adds added extended ∧ call.Describes added) := by
  unfold perform register
  by_cases taken : (registry.find? call.name).isSome = true
  · left
    rw [if_pos taken]
    exact ⟨taken, rfl⟩
  · right
    rw [if_neg taken]
    have free : registry.find? call.name = none := Option.not_isSome_iff_eq_none.mp taken
    dsimp only
    split
    · next id extended registered =>
      right
      split at registered
      · next added made =>
        cases registered
        obtain ⟨formed, describes, numbered⟩ := Registration.make_eq_ok made
        refine ⟨free, formed, added, _, rfl, ⟨rfl, ?_, ?_, numbered⟩, describes⟩
        · rw [describes.name, numbered]
        · rw [describes.name]
          exact free
      · cases registered
    · next error refused =>
      left
      split at refused
      · cases refused
      · next refused' =>
        cases refused
        obtain ⟨unformed, flaw, rfl⟩ := Registration.make_eq_error refused'
        exact ⟨free, unformed, flaw, rfl⟩

/-- A call leaves the registry alone, or adds a class. -/
theorem perform_grows (registry : Registry) (call : Registration) :
    (registry.perform call).2 = registry ∨
      ∃ added, registry.Adds added (registry.perform call).2 := by
  rcases perform_cases registry call with ⟨_, performed⟩ | ⟨_, _, _, performed⟩ |
    ⟨_, _, added, extended, performed, adds, _⟩
  · exact Or.inl (congrArg Prod.snd performed)
  · exact Or.inl (congrArg Prod.snd performed)
  · right
    rw [performed]
    exact ⟨added, adds⟩

/-- A call keeps what is known. -/
theorem keeps_perform (registry : Registry) (call : Registration) :
    registry.Keeps (registry.perform call).2 := by
  rcases perform_grows registry call with same | ⟨added, adds⟩
  · rw [same]
    exact ⟨fun _ _ known => known, fun _ _ known => known⟩
  · exact adds.keeps

/-- Any number of calls keep what is known. -/
theorem Extends.keeps {later : Registry} (leads : registry.Extends later) :
    registry.Keeps later := by
  induction leads with
  | refl => exact ⟨fun _ _ known => known, fun _ _ known => known⟩
  | @called later call _ ih =>
      have step := keeps_perform later call
      exact ⟨fun id descriptor known => step.get _ _ (ih.get id descriptor known),
        fun name descriptor known => step.lookup _ _ (ih.lookup name descriptor known)⟩

/-- A call keeps identifiers and names in step. -/
theorem Indexed.perform (indexed : registry.Indexed) (call : Registration) :
    (registry.perform call).2.Indexed := by
  rcases perform_grows registry call with same | ⟨added, adds⟩
  · rw [same]
    exact indexed
  · exact adds.indexed indexed

/-- A call keeps the numbers of the classes, and the index of their names. -/
theorem Numbered.perform (numbered : registry.Numbered) (call : Registration) :
    (registry.perform call).2.Numbered := by
  unfold Registry.perform
  split
  · next registers => exact numbered.register registers
  · exact numbered

/-- The index agrees with the array, unless identifiers have run out. -/
theorem Numbered.agrees (numbered : registry.Numbered) (indexed : registry.Indexed)
    (room : registry.size ≤ 2 ^ 32) : registry.Agrees := by
  intro name id
  constructor
  · intro found
    obtain ⟨position, descriptor, here, named, rfl⟩ := numbered.of_find? found
    have inside := (Array.getElem?_eq_some_iff.mp here).1
    have whole : ClassId.index ⟨position.toUInt32⟩ = position :=
      UInt32.toNat_ofNat_of_lt' (Nat.lt_of_lt_of_le inside room)
    exact ⟨descriptor, get_eq_ok_iff.mpr (by rw [whole, here]), named⟩
  · rintro ⟨descriptor, known, rfl⟩
    obtain ⟨same, looked⟩ := indexed id descriptor known
    obtain ⟨other, found, described⟩ := lookup_eq_ok_iff.mp looked
    rw [found, ← numbered.id_of_get described, same]

end

/-! ## Any number of calls -/

section

variable {registry later : Registry}

theorem indexed_initial : initial.Indexed := by
  intro id descriptor known
  refine ⟨numbered_initial.id_of_get known, ?_⟩
  rw [get_eq_ok_iff] at known
  have inside : id.index < 9 := (Array.getElem?_eq_some_iff.mp known).1
  generalize id.index = position at known inside
  match position, inside with
  | 0, _ | 1, _ | 2, _ | 3, _ | 4, _ | 5, _ | 6, _ | 7, _ | 8, _ =>
      cases known
      rfl

theorem Extends.indexed (reached : initial.Extends registry) : registry.Indexed := by
  induction reached with
  | refl => exact indexed_initial
  | called call _ ih => exact ih.perform call

theorem Extends.numbered (reached : initial.Extends registry) : registry.Numbered := by
  induction reached with
  | refl => exact numbered_initial
  | called call _ ih => exact ih.perform call

end

end Registry

namespace Heap

/-- The registry of a heap changes by calls only. -/
theorem Course.classes {heap last : Heap} {log : List (Heap × Heap)} (course : Course heap log last)
    (sound : heap.Sound) (bounded : last.handles.slots < 2 ^ 32)
    (reached : Registry.initial.Extends heap.classes) :
    Registry.initial.Extends last.classes := by
  induction course with
  | done heap => exact reached
  | @quiet heap next last log step rest ih =>
      have small := Nat.lt_of_le_of_lt rest.slots_le bounded
      apply ih (step.calm sound small).sound bounded
      rcases (step.settings sound small).2
        with same | ⟨name, size, align, trace, tail, id, registers⟩
      · rw [same]
        exact reached
      · have called := reached.called ⟨name, size, align, trace, tail⟩
        unfold Registry.perform at called
        rwa [registers] at called
  | @collected heap next last log ran rest ih =>
      obtain ⟨live, compacts⟩ := sound.compacts ran
      apply ih (compacts.sound sound) bounded
      rw [compacts.classes]
      exact reached

/-- The registry of a reachable heap is reached by calls, so it can be relied on. -/
theorem Reachable.classes {heap : Heap} (reachable : heap.Reachable) :
    Registry.initial.Extends heap.classes := by
  induction reachable with
  | created created =>
      obtain ⟨_, rfl⟩ := new_eq_ok_iff.mp created
      exact Registry.Extends.refl _
  | after reachable offered bounded ih =>
      obtain ⟨log, course⟩ := offered.tame.course _ reachable.sound bounded
      exact course.classes reachable.sound bounded ih

end Heap

end CompactingHeap
