import CompactingHeap.Proofs.Relocation

/-!
# Relocation move by move

A move puts the copy of an object into the current slab of the new space, or, if the room is not
there, into a slab that is acquired for it; or no slab can be acquired.  What one move preserves,
therefore holds when the last object has been moved, and also when memory runs out before that.
-/

namespace CompactingHeap

namespace Space

/-- The slabs of a space after a further one has joined them: as the current one, or behind the
current one if it is larger than the granularity. -/
def join (space : Space) (granularity : Nat) (slab : Slab) : List Slab :=
  match space.slabs with
  | [] => [slab]
  | current :: earlier =>
      if granularity < slab.capacity then current :: slab :: earlier
      else slab :: current :: earlier

/-- The slabs after one has joined them are the old ones and the new one. -/
theorem perm_join (space : Space) (granularity : Nat) (slab : Slab) :
    (space.join granularity slab).Perm (slab :: space.slabs) := by
  unfold join
  cases space.slabs with
  | nil => exact List.Perm.refl _
  | cons current earlier =>
      dsimp only
      split
      · exact List.Perm.swap _ _ _
      · exact List.Perm.refl _

/-- Room is found in the current slab exactly if a bump there succeeds. -/
theorem bump?_eq_some_iff {space next : Space} {layout : Layout} {place : Place} :
    space.bump? layout = some (place, next) ↔
      ∃ current earlier offset bumped, space.slabs = current :: earlier ∧
        current.bump layout.size layout.align = .ok (offset, bumped) ∧
        place = ⟨current.serial, offset⟩ ∧ next = { space with slabs := bumped :: earlier } := by
  unfold bump?
  cases space.slabs with
  | nil => simp
  | cons current earlier =>
      dsimp only
      rcases bumps : current.bump layout.size layout.align with error | ⟨offset, bumped⟩
      · simp [bumps]
      · simp only [Option.some.injEq, Prod.mk.injEq, List.cons.injEq]
        constructor
        · rintro ⟨rfl, rfl⟩
          exact ⟨current, earlier, offset, bumped, ⟨rfl, rfl⟩, bumps, rfl, rfl⟩
        · rintro ⟨_, _, _, _, ⟨rfl, rfl⟩, bumps', rfl, rfl⟩
          rw [bumps] at bumps'
          cases bumps'
          exact ⟨rfl, rfl⟩

/-- Extending a space leaves the allocator that the acquisition of a slab leaves. -/
theorem extend_snd (space : Space) (allocator : SlabAllocator) (layout : Layout) :
    (space.extend allocator layout).2 = (allocator.acquire layout.size).2 := by
  unfold extend
  rcases allocator.acquire layout.size with ⟨_ | _, _⟩ <;> rfl

/-- Extending a space acquires a slab for the layout, which joins the others with the room at its
front taken. -/
theorem extend_eq_ok {space next : Space} {allocator nextAllocator : SlabAllocator}
    {outstanding : List Slab} (accounts : allocator.Accounts outstanding)
    {descriptor : Descriptor} {extra : Nat} {layout : Layout} {place : Place}
    (laidOut : Layout.of? descriptor extra = some layout)
    (found : space.extend allocator layout = (.ok (place, next), nextAllocator)) :
    ∃ slab, allocator.acquire layout.size = (.ok slab, nextAllocator) ∧
      allocator.Issued layout.size slab ∧ place = ⟨slab.serial, 0⟩ ∧
      next = { space with
        slabs := space.join nextAllocator.granularity { slab with top := layout.size } } := by
  have word := (Layout.size_bounds laidOut).2
  unfold extend at found
  split at found
  · cases found
  · next slab acquired issue =>
    obtain ⟨books, issued, _⟩ := accounts.acquire_ok word issue
    have bumps : slab.bump layout.size layout.align =
        .ok (0, { slab with top := layout.size }) := by
      apply Slab.bump_eq_ok_iff.mpr
      rw [issued.empty, Layout.alignUp_zero laidOut, Nat.zero_add]
      exact ⟨rfl, word, issued.large, rfl⟩
    unfold Space.install at found
    rw [bumps] at found
    cases found
    exact ⟨slab, issue, issued, rfl, rfl⟩

end Space

namespace Relocation

/-- Copy an object to a place in the new space and forward it there. -/
def put (relocation : Relocation) (address : Address) (object : HeapObject) (place : Place)
    (target : Space) (allocator : SlabAllocator) : Relocation :=
  { allocator
    target := target.add place (object.copyWith relocatedFlag)
    source := relocation.source.modify address fun old =>
      { old with forward := some target.nextAddress } }

/-- What a move does: the copy goes into the current slab, or into a slab that joins the new space,
or no slab can be acquired. -/
inductive Moves (relocation : Relocation) (address : Address) (object : HeapObject) :
    Except HeapError Unit × Relocation → Prop
  | bumped {current bumped : Slab} {earlier : List Slab} {offset : Nat} :
      relocation.target.slabs = current :: earlier →
        current.bump object.layout.size object.layout.align = .ok (offset, bumped) →
        Moves relocation address object
          (.ok (), relocation.put address object ⟨current.serial, offset⟩
            { relocation.target with slabs := bumped :: earlier } relocation.allocator)
  | extended {slab : Slab} {next : SlabAllocator} :
      relocation.target.bump? object.layout = none →
        relocation.allocator.acquire object.layout.size = (.ok slab, next) →
        relocation.allocator.Issued object.layout.size slab →
        Moves relocation address object
          (.ok (), relocation.put address object ⟨slab.serial, 0⟩
            { relocation.target with
              slabs := relocation.target.join next.granularity
                { slab with top := object.layout.size } } next)
  | refused {error : HeapError} {next : SlabAllocator} :
      relocation.target.bump? object.layout = none →
        relocation.allocator.acquire object.layout.size = (.error error, next) →
        Moves relocation address object (.error error, { relocation with allocator := next })

section
variable {marked : Space} {allocator : SlabAllocator} {relocation : Relocation}
  {moved : List Address} (sofar : Moved marked allocator relocation moved)
include sofar

theorem Moved.moves {address : Address} (new : address ∉ moved) {object : HeapObject}
    (found : marked.object? address = some object) :
    relocation.Moves address object (relocation.move address) := by
  unfold Relocation.move
  rw [sofar.source_object? new, found]
  dsimp only
  unfold Relocation.reserve
  cases full : relocation.target.bump? object.layout with
  | some room =>
      obtain ⟨place, target⟩ := room
      obtain ⟨current, earlier, offset, bumped, slabs, bumps, rfl, rfl⟩ :=
        Space.bump?_eq_some_iff.mp full
      exact Moves.bumped slabs bumps
  | none =>
      dsimp only
      rcases grows : relocation.target.extend relocation.allocator object.layout with
        ⟨error | ⟨place, target⟩, next⟩
      · unfold Space.extend at grows
        split at grows
        · next refused rejected issue =>
          cases grows
          exact Moves.refused full issue
        · next slab acquired issue =>
          obtain ⟨books, issued, _⟩ :=
            sofar.accounts.acquire_ok (Layout.size_bounds object.laidOut).2 issue
          obtain ⟨_, _, installs, _⟩ :=
            sofar.placed.install books object.laidOut issued acquired.granularity
          rw [installs] at grows
          cases grows
      · obtain ⟨slab, issue, issued, rfl, rfl⟩ :=
          Space.extend_eq_ok sofar.accounts object.laidOut grows
        exact Moves.extended full issue issued

/-- A move that is refused after some of the objects have been moved. -/
inductive Stops (marked : Space) (allocator : SlabAllocator) (all : List Address)
    (motive : List Address → Relocation → Prop) : HeapError → Relocation → Prop
  | refused {before last : Relocation} {gone : List Address} {address : Address}
      {object : HeapObject} {error : HeapError} :
      gone ++ [address] <+: all → marked.object? address = some object →
        Moved marked allocator before gone → motive gone before →
        before.Moves address object (.error error, last) →
        Stops marked allocator all motive error last

/-- What holds at the beginning, and is preserved by every move of an object not yet moved, holds
of the relocation that moving further objects ends with; and if a move is refused, it holds of the
relocation before that move. -/
theorem Moved.moveAll_induction {motive : List Address → Relocation → Prop} {rest : List Address}
    (distinct : (moved ++ rest).Nodup)
    (present : ∀ address ∈ rest, ∃ object, marked.object? address = some object)
    (now : motive moved relocation)
    (step : ∀ relocation moved address object, Moved marked allocator relocation moved →
      marked.object? address = some object → motive moved relocation →
      ∀ next, relocation.Moves address object (.ok (), next) → motive (moved ++ [address]) next) :
    (∀ last, relocation.moveAll rest = (.ok (), last) → motive (moved ++ rest) last) ∧
      ∀ error last, relocation.moveAll rest = (.error error, last) →
        Stops marked allocator (moved ++ rest) motive error last := by
  induction rest generalizing relocation moved with
  | nil =>
      rw [List.append_nil]
      refine ⟨?_, ?_⟩
      · intro last ran
        cases ran
        exact now
      · intro error last ran
        cases ran
  | cons address rest ih =>
      obtain ⟨object, found⟩ := present address List.mem_cons_self
      have new : address ∉ moved := by
        intro member
        rw [List.nodup_append] at distinct
        exact distinct.2.2 address member address List.mem_cons_self rfl
      have moves := sofar.moves new found
      unfold Relocation.moveAll
      rcases sofar.move new found with ⟨next, ran, further⟩ | ⟨size, next, ran, _⟩
      · rw [ran] at moves ⊢
        have after := step relocation moved address object sofar found now next moves
        rw [List.append_cons] at distinct ⊢
        exact ih further distinct
          (fun other member => present other (List.mem_cons_of_mem address member)) after
      · rw [ran] at moves ⊢
        refine ⟨?_, ?_⟩
        · intro last same
          cases same
        · intro error last same
          cases same
          exact Stops.refused ⟨rest, (List.append_cons moved address rest).symm⟩ found sofar
            now moves

end

end Relocation

end CompactingHeap
