import CompactingHeap.Heap.Relocation
import CompactingHeap.Proofs.Marking

/-!
# What relocation copies

Each move copies one more object of the queue, in order, so a copy lies at the position of its
original in the queue.  Whether relocation gets through or stops for lack of memory, the books tally
with the slabs of both spaces together, and the old space differs from the marked one only in the
forwarding addresses of the objects moved so far.  Taking everything back therefore gives the space
from before the collection and releases exactly the new slabs.
-/

namespace CompactingHeap

namespace Space

/-- Changing the objects at several addresses in a way that makes no difference the second time. -/
theorem resident?_foldl_modify {f : HeapObject → HeapObject}
    (again : ∀ object, f (f object) = f object) (space : Space) (addresses : List Address)
    (address : Address) :
    (addresses.foldl (fun s a => s.modify a f) space).resident? address =
      if address ∈ addresses then
        (space.resident? address).map fun resident => ⟨resident.place, f resident.object⟩
      else space.resident? address := by
  induction addresses generalizing space with
  | nil => simp
  | cons first rest ih =>
      rw [List.foldl_cons, ih]
      by_cases same : first = address
      · subst first
        rw [resident?_modify_self]
        by_cases later : address ∈ rest
        · simp only [later, List.mem_cons, or_true, if_true, Option.map_map]
          congr 1
          funext resident
          simp only [Function.comp_apply, again]
        · simp [later]
      · rw [resident?_modify_of_ne _ _ same]
        simp [Ne.symm same]

theorem number_foldl_modify (f : HeapObject → HeapObject) (space : Space)
    (addresses : List Address) :
    (addresses.foldl (fun s a => s.modify a f) space).number = space.number := by
  induction addresses generalizing space with
  | nil => rfl
  | cons first rest ih =>
      rw [List.foldl_cons, ih, number_modify]

theorem slabs_foldl_modify (f : HeapObject → HeapObject) (space : Space)
    (addresses : List Address) :
    (addresses.foldl (fun s a => s.modify a f) space).slabs = space.slabs := by
  induction addresses generalizing space with
  | nil => rfl
  | cons first rest ih =>
      rw [List.foldl_cons, ih, slabs_modify]

theorem size_residents_foldl_modify (f : HeapObject → HeapObject) (space : Space)
    (addresses : List Address) :
    (addresses.foldl (fun s a => s.modify a f) space).residents.size = space.residents.size := by
  induction addresses generalizing space with
  | nil => rfl
  | cons first rest ih =>
      rw [List.foldl_cons, ih, size_residents_modify]

end Space

/-- Where an address is forwarded to when the given addresses have been moved, in order, into the
space of the given number. -/
def forwarding (number : Nat) (moved : List Address) (address : Address) : Option Address :=
  if address ∈ moved then some ⟨number, moved.idxOf address⟩ else none

theorem forwarding_of_mem (number : Nat) {moved : List Address} {address : Address}
    (member : address ∈ moved) :
    forwarding number moved address = some ⟨number, moved.idxOf address⟩ :=
  if_pos member

theorem forwarding_of_not_mem (number : Nat) {moved : List Address} {address : Address}
    (missing : address ∉ moved) : forwarding number moved address = none :=
  if_neg missing

/-- Only the moved objects are forwarded. -/
theorem mem_of_forwarding {number : Nat} {moved : List Address} {address copy : Address}
    (forwarded : forwarding number moved address = some copy) : address ∈ moved := by
  by_contra missing
  rw [forwarding_of_not_mem number missing] at forwarded
  cases forwarded

/-- Moving one more object leaves the forwarding addresses of the others alone. -/
theorem forwarding_append_of_ne (number : Nat) (moved : List Address) {address other : Address}
    (different : other ≠ address) :
    forwarding number (moved ++ [address]) other = forwarding number moved other := by
  unfold forwarding
  by_cases member : other ∈ moved
  · simp [member, List.idxOf_append_of_mem]
  · simp [member, different]

/-- An object that is moved goes behind the copies made before. -/
theorem forwarding_append_self (number : Nat) {moved : List Address} {address : Address}
    (missing : address ∉ moved) :
    forwarding number (moved ++ [address]) address = some ⟨number, moved.length⟩ := by
  rw [forwarding_of_mem _ (by simp), List.idxOf_append_of_notMem missing]
  simp

/-- The original of a copy, by its position. -/
theorem forwarding_eq_some_iff {number : Nat} {moved : List Address} (distinct : moved.Nodup)
    {address copy : Address} :
    forwarding number moved address = some copy ↔
      copy.space = number ∧ moved[copy.position]? = some address := by
  unfold forwarding
  constructor
  · intro forwarded
    split at forwarded
    · next member =>
      cases forwarded
      exact ⟨rfl, List.getElem?_idxOf member⟩
    · cases forwarded
  · rintro ⟨rfl, found⟩
    have member := List.mem_of_getElem? found
    rcases List.getElem?_eq_some_iff.mp found with ⟨inside, here⟩
    rw [if_pos member, ← here, distinct.idxOf_getElem]

namespace Relocation

/-- A state of the relocation of a marked space: the given addresses have been moved. -/
structure Moved (marked : Space) (allocator : SlabAllocator) (relocation : Relocation)
    (moved : List Address) : Prop where
  number : relocation.source.number = marked.number
  slabs : relocation.source.slabs = marked.slabs
  sources : ∀ address, relocation.source.resident? address =
    if address ∈ moved then
      (marked.resident? address).map fun resident =>
        ⟨resident.place,
          { resident.object with forward := forwarding (marked.number + 1) moved address }⟩
    else marked.resident? address
  targetNumber : relocation.target.number = marked.number + 1
  size : relocation.target.residents.size = moved.length
  copies : ∀ position address, moved[position]? = some address →
    ∃ object place, marked.object? address = some object ∧
      relocation.target.resident? ⟨marked.number + 1, position⟩ =
        some ⟨place, object.copyWith relocatedFlag⟩
  placed : relocation.target.Placed
  accounts : relocation.allocator.Accounts (relocation.target.slabs ++ marked.slabs)
  alike : relocation.allocator.Alike allocator

/-- At the beginning nothing has been moved. -/
theorem moved_begin {marked : Space} {allocator : SlabAllocator}
    (accounts : allocator.Accounts marked.slabs) :
    Moved marked allocator (begin allocator marked) [] where
  number := rfl
  slabs := rfl
  sources address := by simp [begin]
  targetNumber := rfl
  size := rfl
  copies position address found := by simp at found
  placed := Space.placed_empty _
  accounts := accounts
  alike := SlabAllocator.Alike.refl allocator

/-- What reserving room in the new space leaves, if it succeeds. -/
structure Reserves (before after : Relocation) (marked : Space) (allocator : SlabAllocator)
    (place : Place) (layout : Layout) : Prop where
  source : after.source = before.source
  room : before.target.MadeRoom after.target place layout
  accounts : after.allocator.Accounts (after.target.slabs ++ marked.slabs)
  alike : after.allocator.Alike allocator

/-- Room in the new space is found, or it is lacking and only the allocator has changed. -/
theorem Moved.reserve {marked : Space} {allocator : SlabAllocator} {relocation : Relocation}
    {moved : List Address} (sofar : Moved marked allocator relocation moved)
    {descriptor : Descriptor} {extra : Nat} {layout : Layout}
    (laidOut : Layout.of? descriptor extra = some layout) :
    (∃ place next, relocation.reserve layout = (.ok place, next) ∧
      relocation.Reserves next marked allocator place layout) ∨
    ∃ size next, relocation.reserve layout = (.error (.outOfMemory size allocator.limit), next) ∧
      Moved marked allocator next moved := by
  unfold Relocation.reserve
  split
  · next place target found =>
    obtain ⟨room, accounts⟩ := sofar.placed.bump? sofar.accounts laidOut found
    exact Or.inl ⟨_, _, rfl, rfl, room, accounts, sofar.alike⟩
  · split
    · next place target next found =>
      obtain ⟨room, accounts, alike⟩ := sofar.placed.extend_ok sofar.accounts laidOut found
      exact Or.inl ⟨_, _, rfl, rfl, room, accounts, alike.trans sofar.alike⟩
    · next error next found =>
      obtain ⟨accounts, lack, alike⟩ := sofar.placed.extend_error sofar.accounts laidOut found
      rw [lack, sofar.alike.limit]
      exact Or.inr ⟨_, _, rfl, sofar.number, sofar.slabs, sofar.sources, sofar.targetNumber,
        sofar.size, sofar.copies, sofar.placed, accounts, alike.trans sofar.alike⟩

/-- The next copy goes behind the copies made before. -/
theorem Moved.nextAddress_eq {marked : Space} {allocator : SlabAllocator}
    {relocation next : Relocation} {moved : List Address}
    (sofar : Moved marked allocator relocation moved) {place : Place} {layout : Layout}
    (reserves : relocation.Reserves next marked allocator place layout) :
    next.target.nextAddress = ⟨marked.number + 1, moved.length⟩ := by
  rw [Space.nextAddress, reserves.room.number, reserves.room.residents, sofar.targetNumber,
    sofar.size]

/-- The copies after one more copy has been made in reserved room. -/
theorem Moved.copies_add {marked : Space} {allocator : SlabAllocator}
    {relocation next : Relocation} {moved : List Address}
    (sofar : Moved marked allocator relocation moved) {address : Address} {object : HeapObject}
    (found : marked.object? address = some object) {place : Place}
    (reserves : relocation.Reserves next marked allocator place object.layout)
    {position : Nat} {other : Address} (here : (moved ++ [address])[position]? = some other) :
    ∃ original copyPlace, marked.object? other = some original ∧
      (next.target.add place (object.copyWith relocatedFlag)).resident?
          ⟨marked.number + 1, position⟩ =
        some ⟨copyPlace, original.copyWith relocatedFlag⟩ := by
  have copyAddress := sofar.nextAddress_eq reserves
  rw [List.getElem?_append] at here
  split at here
  · next before =>
    obtain ⟨original, copyPlace, known, copy⟩ := sofar.copies position other here
    refine ⟨original, copyPlace, known, ?_⟩
    have earlier : (⟨marked.number + 1, position⟩ : Address) ≠ next.target.nextAddress := by
      rw [copyAddress]
      intro same
      have positions := congrArg Address.position same
      dsimp only at positions
      omega
    rw [Space.resident?_add, if_neg earlier]
    unfold Space.resident? at *
    rw [reserves.room.number, reserves.room.residents]
    exact copy
  · next behind =>
    rcases List.getElem?_eq_some_iff.mp here with ⟨inside, last⟩
    simp only [List.length_singleton] at inside
    have position : position = moved.length := by omega
    simp only [position, Nat.sub_self, List.getElem_cons_zero] at last
    subst other
    refine ⟨object, place, found, ?_⟩
    rw [Space.resident?_add, if_pos (by rw [copyAddress, position])]

/-- What has not been moved is in the source as it is in the marked space. -/
theorem Moved.source_object? {marked : Space} {allocator : SlabAllocator} {relocation : Relocation}
    {moved : List Address} (sofar : Moved marked allocator relocation moved) {address : Address}
    (new : address ∉ moved) : relocation.source.object? address = marked.object? address := by
  unfold Space.object?
  rw [sofar.sources, if_neg new]

/-- Copying an object to reserved room and forwarding it there moves one more object. -/
theorem Moved.settle {marked : Space} {allocator : SlabAllocator} {relocation next : Relocation}
    {moved : List Address} (sofar : Moved marked allocator relocation moved) {address : Address}
    (new : address ∉ moved) {object : HeapObject} (found : marked.object? address = some object)
    {place : Place} (reserves : relocation.Reserves next marked allocator place object.layout) :
    Moved marked allocator
      { next with
        target := next.target.add place (object.copyWith relocatedFlag)
        source := next.source.modify address fun old =>
          { old with forward := some next.target.nextAddress } }
      (moved ++ [address]) := by
  constructor
  · rw [Space.number_modify, reserves.source, sofar.number]
  · rw [Space.slabs_modify, reserves.source, sofar.slabs]
  · intro other
    dsimp only
    rw [reserves.source, sofar.nextAddress_eq reserves]
    by_cases same : address = other
    · subst other
      rw [Space.resident?_modify_self, sofar.sources, if_neg new, if_pos (by simp),
        forwarding_append_self _ new]
    · rw [Space.resident?_modify_of_ne _ _ same, sofar.sources,
        forwarding_append_of_ne _ _ (Ne.symm same)]
      simp [Ne.symm same]
  · exact reserves.room.number.trans sofar.targetNumber
  · simp [Space.add, reserves.room.residents, sofar.size]
  · exact fun position other here => sofar.copies_add found reserves here
  · exact reserves.room.placed.add reserves.room.reserved
  · exact reserves.accounts
  · exact reserves.alike

/-- The outcome of moving objects: they have all been moved, or memory ran out before one of
them. -/
def Outcome (marked : Space) (allocator : SlabAllocator) (all : List Address)
    (result : Except HeapError Unit × Relocation) : Prop :=
  (result.1 = .ok () ∧ Moved marked allocator result.2 all) ∨
    ∃ size moved, result.1 = .error (.outOfMemory size allocator.limit) ∧ moved <+: all ∧
      Moved marked allocator result.2 moved

/-- Moving an object of the marked space. -/
theorem Moved.move {marked : Space} {allocator : SlabAllocator} {relocation : Relocation}
    {moved : List Address} (sofar : Moved marked allocator relocation moved) {address : Address}
    (new : address ∉ moved) {object : HeapObject} (found : marked.object? address = some object) :
    (∃ next, relocation.move address = (.ok (), next) ∧
      Moved marked allocator next (moved ++ [address])) ∨
    ∃ size next, relocation.move address = (.error (.outOfMemory size allocator.limit), next) ∧
      Moved marked allocator next moved := by
  unfold Relocation.move
  rw [sofar.source_object? new, found]
  dsimp only
  rcases sofar.reserve object.laidOut
    with ⟨place, next, reserved, reserves⟩ | ⟨size, next, lack, rest⟩
  · rw [reserved]
    exact Or.inl ⟨_, rfl, sofar.settle new found reserves⟩
  · rw [lack]
    exact Or.inr ⟨size, next, rfl, rest⟩

/-- Moving further objects of the marked space. -/
theorem Moved.moveAll {marked : Space} {allocator : SlabAllocator} {relocation : Relocation}
    {moved rest : List Address} (sofar : Moved marked allocator relocation moved)
    (distinct : (moved ++ rest).Nodup)
    (present : ∀ address ∈ rest, ∃ object, marked.object? address = some object) :
    Outcome marked allocator (moved ++ rest) (relocation.moveAll rest) := by
  induction rest generalizing relocation moved with
  | nil =>
      left
      rw [List.append_nil]
      exact ⟨rfl, sofar⟩
  | cons address rest ih =>
      have new : address ∉ moved := fun member =>
        (List.nodup_append.mp distinct).2.2 address member address List.mem_cons_self rfl
      obtain ⟨object, found⟩ := present address List.mem_cons_self
      unfold Relocation.moveAll
      rcases sofar.move new found with ⟨next, moves, further⟩ | ⟨size, next, lack, stopped⟩
      · rw [moves]
        dsimp only
        rw [List.append_cons] at distinct ⊢
        exact ih further distinct fun other member =>
          present other (List.mem_cons_of_mem address member)
      · rw [lack]
        exact Or.inr ⟨size, moved, rfl, List.prefix_append _ _, stopped⟩

/-! ## Taking a relocation back -/

/-- Taking a mark off again changes nothing. -/
theorem unmark_unmark (object : HeapObject) : object.unmark.unmark = object.unmark := by
  have flags : object.flags &&& ~~~markedFlag &&& ~~~markedFlag =
      object.flags &&& ~~~markedFlag := by
    rw [UInt32.and_assoc, UInt32.and_self]
  simp only [Object.unmark, flags]

/-- The mark and a forwarding address are all that an object at rest gains. -/
theorem unmark_mark {object : HeapObject} (rest : object.AtRest) (forward : Option Address) :
    Object.unmark { object.mark with forward } = object := by
  have flags : (object.flags ||| markedFlag) &&& ~~~markedFlag = object.flags := by
    rw [rest.flags]
    rfl
  have none := rest.forward
  cases object
  simp only [Object.unmark, Object.mark] at *
  simp [flags, none]

section

variable {space : Space} {marking : Marking} {allocator : SlabAllocator} {relocation : Relocation}
  {moved : List Address} (traces : Marking.Traces space marking)
  (sofar : Moved marking.space allocator relocation moved)

include traces sofar

/-- Taking a relocation back gives the space from before the marking. -/
theorem Moved.rollBack_space
    (rest : ∀ address object, space.object? address = some object → object.AtRest)
    (within : moved <+: marking.live.toList) :
    (relocation.rollBack marking.live.toList).1 = space := by
  apply Space.eq_of_resident?
  · exact (Space.number_foldl_modify _ _ _).trans (sofar.number.trans traces.number)
  · exact (Space.slabs_foldl_modify _ _ _).trans (sofar.slabs.trans traces.slabs)
  · intro address
    unfold Relocation.rollBack
    rw [Space.resident?_foldl_modify unmark_unmark, sofar.sources, traces.residents]
    by_cases live : address ∈ marking.live.toList
    · rw [if_pos live, if_pos live]
      cases found : space.resident? address with
      | none => simp
      | some resident =>
          rcases resident with ⟨place, object⟩
          have still := rest address object (Space.object?_eq_some_iff.mpr ⟨place, found⟩)
          have unmarked := unmark_mark still object.forward
          split
          · simp only [Option.map_some, unmark_mark still]
          · exact congrArg (fun object => some (⟨place, object⟩ : Resident)) unmarked
    · have unmoved : address ∉ moved := fun member => live (within.subset member)
      rw [if_neg live, if_neg live, if_neg unmoved]

/-- Taking a relocation back leaves books that tally with the old slabs. -/
theorem Moved.rollBack_accounts :
    (relocation.rollBack marking.live.toList).2.Accounts space.slabs ∧
      (relocation.rollBack marking.live.toList).2.Alike allocator := by
  have books : relocation.allocator.Accounts
      (relocation.target.slabs.reverse ++ marking.space.slabs) :=
    sofar.accounts.perm ((List.reverse_perm _).symm.append_right _)
  obtain ⟨released, alike⟩ := books.releaseAll
  rw [traces.slabs] at released
  exact ⟨released, alike.trans sofar.alike⟩

end

end Relocation

end CompactingHeap
