import CompactingHeap.Proofs.Accounts
import CompactingHeap.Proofs.Layout
import CompactingHeap.Space
import Mathlib.Data.List.Nodup

/-!
# Placement

A space is well placed if every object lies in the used part of one of its slabs, aligned to its
layout, and no two objects overlap.  Placement depends on the slabs and on where the objects lie
and how large they are, not on their contents.  Reserving room gives a stretch of memory that is
clear of all objects, and putting an object there keeps the space well placed.
-/

namespace CompactingHeap

/-- Two stretches of memory, each a place and a size, do not overlap. -/
def Place.Apart (first : Place) (firstSize : Nat) (second : Place) (secondSize : Nat) : Prop :=
  first.slab = second.slab →
    first.offset + firstSize ≤ second.offset ∨ second.offset + secondSize ≤ first.offset

theorem Place.Apart.symm {first second : Place} {firstSize secondSize : Nat}
    (apart : first.Apart firstSize second secondSize) :
    second.Apart secondSize first firstSize := by
  intro same
  exact (apart same.symm).symm

namespace Space

/-- Where the object at an address lies, and its layout. -/
def footprint? (space : Space) (address : Address) : Option (Place × Layout) :=
  (space.resident? address).map fun resident => (resident.place, resident.object.layout)

theorem footprint?_eq_some_iff {space : Space} {address : Address} {place : Place}
    {layout : Layout} :
    space.footprint? address = some (place, layout) ↔
      ∃ object, space.resident? address = some ⟨place, object⟩ ∧ object.layout = layout := by
  unfold footprint?
  rw [Option.map_eq_some_iff]
  constructor
  · rintro ⟨⟨_, object⟩, found, same⟩
    cases same
    exact ⟨object, found, rfl⟩
  · rintro ⟨object, found, rfl⟩
    exact ⟨_, found, rfl⟩

/-- Changing an object without touching its layout leaves the footprints alone. -/
theorem footprint?_modify (space : Space) (address : Address) {f : HeapObject → HeapObject}
    (keeps : ∀ object, (f object).layout = object.layout) (other : Address) :
    (space.modify address f).footprint? other = space.footprint? other := by
  unfold footprint?
  by_cases same : address = other
  · subst other
    rw [resident?_modify_self, Option.map_map]
    congr 1
    funext resident
    simp only [Function.comp_apply, keeps]
  · rw [resident?_modify_of_ne space f same]

/-- The stretch lies in the used part of a slab. -/
def Covers (slabs : List Slab) (place : Place) (size : Nat) : Prop :=
  ∃ slab ∈ slabs, slab.serial = place.slab ∧ place.offset + size ≤ slab.top

/-- Every object lies in the used part of a slab, aligned, and clear of the others. -/
structure Placed (space : Space) : Prop where
  shaped : ∀ slab ∈ space.slabs, slab.Shaped
  distinct : (space.slabs.map Slab.serial).Nodup
  covered : ∀ address place layout, space.footprint? address = some (place, layout) →
    Covers space.slabs place layout.size
  aligned : ∀ address place layout, space.footprint? address = some (place, layout) →
    layout.align ∣ place.offset
  apart : ∀ first firstPlace firstLayout second secondPlace secondLayout,
    space.footprint? first = some (firstPlace, firstLayout) →
    space.footprint? second = some (secondPlace, secondLayout) → first ≠ second →
    firstPlace.Apart firstLayout.size secondPlace secondLayout.size

/-- The stretch for a layout is handed out, aligned, and clear of all objects. -/
structure Reserved (space : Space) (place : Place) (layout : Layout) : Prop where
  covered : Covers space.slabs place layout.size
  aligned : layout.align ∣ place.offset
  clear : ∀ address other otherLayout, space.footprint? address = some (other, otherLayout) →
    other.Apart otherLayout.size place layout.size

/-- An empty space is well placed. -/
theorem placed_empty (number : Nat) : (empty number).Placed := by
  constructor <;> simp [empty, footprint?, resident?]

/-- Placement does not depend on the contents of objects. -/
theorem Placed.congr {space other : Space} (placed : space.Placed)
    (slabs : other.slabs = space.slabs)
    (footprints : ∀ address, other.footprint? address = space.footprint? address) :
    other.Placed := by
  rcases placed with ⟨shaped, distinct, covered, aligned, apart⟩
  constructor
  · simpa only [slabs] using shaped
  · simpa only [slabs] using distinct
  · simpa only [slabs, footprints] using covered
  · simpa only [footprints] using aligned
  · simpa only [footprints] using apart

/-- Changing an object without touching its layout moves nothing. -/
theorem Placed.modify {space : Space} (placed : space.Placed) (address : Address)
    {f : HeapObject → HeapObject} (keeps : ∀ object, (f object).layout = object.layout) :
    (space.modify address f).Placed :=
  placed.congr (slabs_modify space address f) (footprint?_modify space address keeps)

/-- The footprint of a new object, and those of the others. -/
theorem footprint?_add (space : Space) (place : Place) (object : HeapObject) (address : Address) :
    (space.add place object).footprint? address =
      if address = space.nextAddress then some (place, object.layout)
      else space.footprint? address := by
  unfold footprint?
  rw [resident?_add]
  split <;> rfl

/-- An object may be put on reserved room. -/
theorem Placed.add {space : Space} (placed : space.Placed) {place : Place} {object : HeapObject}
    (reserved : space.Reserved place object.layout) : (space.add place object).Placed := by
  constructor
  · exact placed.shaped
  · exact placed.distinct
  · intro address other layout found
    rw [footprint?_add] at found
    split at found
    · cases found
      exact reserved.covered
    · exact placed.covered address other layout found
  · intro address other layout found
    rw [footprint?_add] at found
    split at found
    · cases found
      exact reserved.aligned
    · exact placed.aligned address other layout found
  · intro first firstPlace firstLayout second secondPlace secondLayout firstFound secondFound
      different
    rw [footprint?_add] at firstFound secondFound
    split at firstFound
    · next firstNew =>
      cases firstFound
      split at secondFound
      · next secondNew => exact absurd (firstNew.trans secondNew.symm) different
      · exact (reserved.clear second secondPlace secondLayout secondFound).symm
    · split at secondFound
      · cases secondFound
        exact reserved.clear first firstPlace firstLayout firstFound
      · exact placed.apart first firstPlace firstLayout second secondPlace secondLayout firstFound
          secondFound different

/-- A further slab may join the space, in any position. -/
theorem Placed.join {space : Space} (placed : space.Placed) {slab : Slab} {slabs : List Slab}
    (shaped : slab.Shaped) (new : slab.serial ∉ space.slabs.map Slab.serial)
    (same : slabs.Perm (slab :: space.slabs)) : Placed { space with slabs } where
  shaped other member := by
    rcases List.mem_cons.mp (same.mem_iff.mp member) with rfl | member
    · exact shaped
    · exact placed.shaped other member
  distinct := by
    apply (same.map Slab.serial).nodup_iff.mpr
    rw [List.map_cons, List.nodup_cons]
    exact ⟨new, placed.distinct⟩
  covered address place layout found := by
    obtain ⟨other, member, serial, inside⟩ := placed.covered address place layout found
    exact ⟨other, same.mem_iff.mpr (List.mem_cons_of_mem slab member), serial, inside⟩
  aligned := placed.aligned
  apart := placed.apart

/-- In a well placed space, what lies in the slab of a serial number ends below its top. -/
theorem Placed.le_top {space : Space} (placed : space.Placed) {slab : Slab}
    (member : slab ∈ space.slabs) {address : Address} {place : Place} {layout : Layout}
    (found : space.footprint? address = some (place, layout)) (here : place.slab = slab.serial) :
    place.offset + layout.size ≤ slab.top := by
  obtain ⟨other, otherMember, serial, inside⟩ := placed.covered address place layout found
  have same : other = slab :=
    List.inj_on_of_nodup_map placed.distinct otherMember member (serial.trans here)
  exact same ▸ inside

/-- A bump keeps the space well placed and gives reserved room. -/
theorem Placed.bump {space : Space} (placed : space.Placed) {descriptor : Descriptor}
    {extra offset : Nat} {layout : Layout} (laidOut : Layout.of? descriptor extra = some layout)
    {slab bumped : Slab} {rest slabs : List Slab} (before : space.slabs.Perm (slab :: rest))
    (bumps : slab.bump layout.size layout.align = .ok (offset, bumped))
    (after : slabs.Perm (bumped :: rest)) :
    Placed { space with slabs } ∧ Reserved { space with slabs } ⟨slab.serial, offset⟩ layout := by
  have member : slab ∈ space.slabs := before.mem_iff.mpr List.mem_cons_self
  have shaped := placed.shaped slab member
  rcases Slab.bump_eq_ok_iff.mp bumps with ⟨offsetEq, _, fits, rfl⟩
  obtain ⟨behind, aligned⟩ := Layout.alignUp_spec laidOut shaped.top_le shaped.pages shaped.word
  rw [← offsetEq] at behind aligned
  have bumpedMember : { slab with top := offset + layout.size } ∈ slabs :=
    after.mem_iff.mpr List.mem_cons_self
  have sameSerials : (slabs.map Slab.serial).Perm (space.slabs.map Slab.serial) :=
    (after.map Slab.serial).trans (before.map Slab.serial).symm
  constructor
  · constructor
    · intro other otherMember
      rcases List.mem_cons.mp (after.mem_iff.mp otherMember) with rfl | otherMember
      · exact ⟨shaped.pages, shaped.word, fits⟩
      · exact placed.shaped other (before.mem_iff.mpr (List.mem_cons_of_mem slab otherMember))
    · exact sameSerials.nodup_iff.mpr placed.distinct
    · intro address place otherLayout found
      obtain ⟨other, otherMember, serial, inside⟩ := placed.covered address place otherLayout found
      rcases List.mem_cons.mp (before.mem_iff.mp otherMember) with rfl | otherMember
      · refine ⟨_, bumpedMember, serial, ?_⟩
        dsimp only
        omega
      · exact ⟨other, after.mem_iff.mpr (List.mem_cons_of_mem _ otherMember), serial, inside⟩
    · exact placed.aligned
    · exact placed.apart
  · constructor
    · exact ⟨_, bumpedMember, rfl, Nat.le_refl _⟩
    · exact aligned
    · intro address other otherLayout found here
      left
      exact Nat.le_trans (placed.le_top member found here) behind

/-- What reserving room for a layout leaves: the same objects, still well placed, and a stretch of
memory that is clear of them. -/
structure MadeRoom (space next : Space) (place : Place) (layout : Layout) : Prop where
  number : next.number = space.number
  residents : next.residents = space.residents
  placed : next.Placed
  reserved : next.Reserved place layout

/-- Reserving room in the current slab. -/
theorem Placed.bump? {space next : Space} {allocator : SlabAllocator} {others : List Slab}
    (placed : space.Placed) (accounts : allocator.Accounts (space.slabs ++ others))
    {descriptor : Descriptor} {extra : Nat} {layout : Layout} {place : Place}
    (laidOut : Layout.of? descriptor extra = some layout)
    (found : space.bump? layout = some (place, next)) :
    space.MadeRoom next place layout ∧ allocator.Accounts (next.slabs ++ others) := by
  unfold Space.bump? at found
  split at found
  · cases found
  · next current earlier slabs =>
    split at found
    · next offset bumped bumps =>
      cases found
      rcases placed.bump laidOut (List.Perm.of_eq slabs) bumps (List.Perm.refl _) with
        ⟨nextPlaced, reserved⟩
      rcases Slab.bump_eq_ok_iff.mp bumps with ⟨_, _, _, rfl⟩
      rw [slabs] at accounts
      exact ⟨⟨rfl, rfl, nextPlaced, reserved⟩, accounts.replace rfl rfl⟩
    · cases found

/-- Installing an issued slab succeeds, and gives reserved room in it. -/
theorem Placed.install {space : Space} {allocator issuer : SlabAllocator} {others : List Slab}
    (placed : space.Placed) {slab : Slab}
    (accounts : allocator.Accounts (slab :: (space.slabs ++ others)))
    {descriptor : Descriptor} {extra : Nat} {layout : Layout}
    (laidOut : Layout.of? descriptor extra = some layout)
    (issued : issuer.Issued layout.size slab) (granularity : Nat) :
    ∃ place next, space.install granularity slab layout = .ok (place, next) ∧
      space.MadeRoom next place layout ∧ allocator.Accounts (next.slabs ++ others) := by
  have bumps : slab.bump layout.size layout.align =
      .ok (0, { slab with top := 0 + layout.size }) := by
    apply Slab.bump_eq_ok_iff.mpr
    rw [issued.empty, Layout.alignUp_zero laidOut]
    refine ⟨rfl, ?_, ?_, rfl⟩
    · rw [Nat.zero_add]
      exact (Layout.size_bounds laidOut).2
    · rw [Nat.zero_add]
      exact issued.large
  have new : slab.serial ∉ space.slabs.map Slab.serial := by
    have distinct := accounts.distinct
    rw [List.map_cons, List.nodup_cons, List.map_append, List.mem_append] at distinct
    exact fun member => distinct.1 (Or.inl member)
  have joined := placed.join issued.shaped new (List.Perm.refl _)
  have books : allocator.Accounts
      ({ slab with top := 0 + layout.size } :: (space.slabs ++ others)) := accounts.replace rfl rfl
  -- Wherever the slab goes, the slabs are the old ones and the bumped one.
  have anywhere (slabs : List Slab)
      (same : slabs.Perm ({ slab with top := 0 + layout.size } :: space.slabs)) :
      space.MadeRoom { space with slabs } ⟨slab.serial, 0⟩ layout ∧
        allocator.Accounts (slabs ++ others) := by
    obtain ⟨nextPlaced, reserved⟩ := joined.bump laidOut (List.Perm.refl _) bumps same
    exact ⟨⟨rfl, rfl, nextPlaced, reserved⟩, books.perm (same.append_right others).symm⟩
  unfold Space.install
  rw [bumps]
  refine ⟨_, _, rfl, anywhere _ ?_⟩
  cases space.slabs with
  | nil => exact List.Perm.refl _
  | cons current earlier =>
      dsimp only
      split
      · exact List.Perm.swap _ _ _
      · exact List.Perm.refl _

/-- Acquiring a slab for a layout gives reserved room in it. -/
theorem Placed.extend_ok {space next : Space} {allocator nextAllocator : SlabAllocator}
    {others : List Slab} (placed : space.Placed)
    (accounts : allocator.Accounts (space.slabs ++ others))
    {descriptor : Descriptor} {extra : Nat} {layout : Layout} {place : Place}
    (laidOut : Layout.of? descriptor extra = some layout)
    (found : space.extend allocator layout = (.ok (place, next), nextAllocator)) :
    space.MadeRoom next place layout ∧ nextAllocator.Accounts (next.slabs ++ others) ∧
      nextAllocator.Alike allocator := by
  unfold Space.extend at found
  split at found
  · cases found
  · next slab acquired issue =>
    obtain ⟨books, issued, alike⟩ := accounts.acquire_ok (Layout.size_bounds laidOut).2 issue
    rcases placed.install books laidOut issued acquired.granularity with
      ⟨installedPlace, installed, installs, room, tally⟩
    rw [installs] at found
    cases found
    exact ⟨room, tally, alike⟩

/-- Only a lack of memory keeps a space from being extended, and it leaves the slabs alone. -/
theorem Placed.extend_error {space : Space} {allocator nextAllocator : SlabAllocator}
    {others : List Slab} (placed : space.Placed)
    (accounts : allocator.Accounts (space.slabs ++ others))
    {descriptor : Descriptor} {extra : Nat} {layout : Layout} {error : HeapError}
    (laidOut : Layout.of? descriptor extra = some layout)
    (failed : space.extend allocator layout = (.error error, nextAllocator)) :
    nextAllocator.Accounts (space.slabs ++ others) ∧
      error = .outOfMemory (allocator.slabSize layout.size) allocator.limit ∧
      nextAllocator.Alike allocator := by
  unfold Space.extend at failed
  split at failed
  · next refused rejected issue =>
    cases failed
    exact accounts.acquire_error issue
  · next slab acquired issue =>
    obtain ⟨books, issued, _⟩ := accounts.acquire_ok (Layout.size_bounds laidOut).2 issue
    obtain ⟨_, _, installs, _⟩ := placed.install books laidOut issued acquired.granularity
    rw [installs] at failed
    cases failed

end Space

end CompactingHeap
