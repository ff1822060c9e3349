import CompactingHeap.Proofs.Discovery
import CompactingHeap.Proofs.NextFit
import CompactingHeap.Proofs.Views

/-!
# Compaction is canonical

A completed collection lays the survivors out in the order in which a breadth-first search from the
roots discovers their handles, next fit.  Addresses, slabs and serial numbers play no part in this,
so the placement depends on nothing but the graph of the handles, the layouts, and the size of
slabs; and a second collection, with nothing in between, changes nothing that can be seen.
-/

namespace CompactingHeap

/-- The references that a view shows, in trace order, the elements of a run by their indices. -/
def View.references (view : View) : List Handle :=
  view.descriptor.trace.flatMap fun
    | .ref offset => (view.ref offset).toList
    | .run _ => view.run.filterMap id

/-- A view shows the references of the object by their names. -/
theorem Object.references_view {α : Type} (object : Object α) (name : α → Option Handle) :
    (object.view name).references = object.targets.filterMap name := by
  unfold View.references targets slotOffsets Descriptor.slotOffsets
  rw [List.filterMap_filterMap, List.filterMap_flatMap]
  apply List.flatMap_congr
  intro entry member
  rw [object.descriptor_view] at member
  cases entry with
  | ref offset =>
      change ((object.view name).ref offset).toList = _
      rw [object.ref_view name offset, if_pos member]
      cases found : (object.slot offset).bind name <;> simp [found]
  | run offset =>
      have run := Descriptor.runOffset?_eq_some_iff.mpr member
      change (object.elements name).filterMap id = _
      unfold elements
      rw [run]
      dsimp only
      rw [List.filterMap_map, List.filterMap_map]
      rfl

namespace Heap

/-- The references that the object of a handle holds. -/
def successors (heap : Heap) (handle : Handle) : List Handle :=
  match heap.view? handle with
  | some view => view.references
  | none => []

/-- The live root handles: the registered ones, those that scanners report, the held ones and the
interned ones, in this order. -/
def liveRoots (heap : Heap) : List Handle :=
  heap.rootHandles.filter heap.isLive

/-- Where the object of a handle lies: how many slabs lie before its slab in the list of active
slabs, and its offset there. -/
def positionOf (heap : Heap) (handle : Handle) : Option (Nat × Nat) :=
  match heap.residentOf handle with
  | .ok (_, resident) =>
      some ((heap.space.slabs.map Slab.serial).reverse.idxOf resident.place.slab,
        resident.place.offset)
  | .error _ => none

/-- A name for every address, that of the object there. -/
def nameOf (heap : Heap) (address : Address) : Handle :=
  (heap.handleOf? address).getD ⟨0, 0⟩

section
variable {heap : Heap} (sound : heap.Sound)
include sound

/-- The handle of an object is its name. -/
theorem Sound.nameOf_eq {address : Address} {object : HeapObject}
    (found : heap.space.object? address = some object) :
    ∃ holds, heap.handleOf? address = some (heap.nameOf address) ∧
      heap.handles.find (heap.nameOf address) = .ok (address, holds) := by
  obtain ⟨generation, holds, owned⟩ := sound.linked.owned address object found
  have named := sound.handleOf?_eq_some_iff.mpr ⟨holds, owned⟩
  have name : heap.nameOf address = ⟨object.owner, generation⟩ := by
    unfold nameOf
    rw [named]
    rfl
  rw [name]
  exact ⟨holds, named, owned⟩

/-- The successors of a name are the names of the references. -/
theorem Sound.successors_nameOf {address : Address} {object : HeapObject}
    (found : heap.space.object? address = some object) :
    heap.successors (heap.nameOf address) =
      (Marking.targetsOf heap.space address).map heap.nameOf := by
  obtain ⟨holds, _, here⟩ := sound.nameOf_eq found
  have seen : heap.view? (heap.nameOf address) = some (object.view heap.handleOf?) :=
    view?_eq_some_iff.mpr ⟨object, objectOf_eq_ok_iff.mpr
      ⟨address, HandleTable.resolve_of_find here, found⟩, rfl⟩
  unfold successors Marking.targetsOf
  rw [seen, found]
  dsimp only
  rw [object.references_view]
  have present := sound.linked.closed address object found
  generalize object.targets = targets at present
  induction targets with
  | nil => rfl
  | cons target rest ih =>
      obtain ⟨other, there⟩ := present target List.mem_cons_self
      obtain ⟨_, named, _⟩ := sound.nameOf_eq there
      rw [List.filterMap_cons_some named, List.map_cons,
        ih fun later member => present later (List.mem_cons_of_mem target member)]

/-- The names of the root addresses are the live root handles. -/
theorem Sound.map_rootAddresses : heap.rootAddresses.map heap.nameOf = heap.liveRoots := by
  unfold rootAddresses liveRoots
  induction heap.rootHandles with
  | nil => rfl
  | cons handle rest ih =>
      cases found : heap.handles.find handle with
      | ok occupant =>
          obtain ⟨address, holds⟩ := occupant
          have live : heap.isLive handle = true :=
            HandleTable.isLive_iff.mpr ⟨address, holds, found⟩
          have name : heap.nameOf address = handle := by
            unfold nameOf
            rw [sound.handleOf?_eq_some_iff.mpr ⟨holds, found⟩]
            rfl
          have resolved : (heap.handles.resolve handle).toOption = some address := by
            rw [HandleTable.resolve_of_find found]
            rfl
          rw [List.filter_cons_of_pos live, List.filterMap_cons, resolved, ← ih, ← name]
          rfl
      | error error =>
          have stale : heap.isLive handle = false := by
            unfold isLive HandleTable.isLive HandleTable.resolve
            rw [found]
            rfl
          have resolved : (heap.handles.resolve handle).toOption = none := by
            unfold HandleTable.resolve
            rw [found]
            rfl
          rw [List.filter_cons_of_neg (by rw [stale]; decide), List.filterMap_cons, resolved, ih]

/-- The names of the marked objects are the survivors. -/
theorem Sound.map_live : heap.mark.live.toList.map heap.nameOf = heap.survivors := by
  have present := sound.mark.1.present
  unfold survivors
  generalize heap.mark.live.toList = live at present
  induction live with
  | nil => rfl
  | cons address rest ih =>
      obtain ⟨object, found⟩ := present address List.mem_cons_self
      obtain ⟨_, named, _⟩ := sound.nameOf_eq found
      rw [List.filterMap_cons_some named, List.map_cons,
        ih fun other member => present other (List.mem_cons_of_mem address member)]

/-- The survivors are discovered breadth first from the live roots. -/
theorem Sound.discovers : Discovers heap.successors [] heap.liveRoots heap.survivors := by
  have closed : ∀ address, ∀ target ∈ Marking.targetsOf heap.space address,
      ∃ object, heap.space.object? target = some object := by
    intro address target member
    unfold Marking.targetsOf at member
    split at member
    · next object found => exact sound.linked.closed address object found target member
    · exact absurd member List.not_mem_nil
  have search := Marking.discovers_ofRoots
    (fun address object found => (sound.linked.rest address object found).isMarked) closed
    sound.rootAddresses_present
  rw [← sound.map_rootAddresses, ← sound.map_live]
  refine search.rename (fun address => ∃ object, heap.space.object? address = some object)
    (fun address _ => closed address) ?_ ?_ (fun _ member => absurd member List.not_mem_nil)
    sound.rootAddresses_present
  · rintro first second ⟨object, found⟩ ⟨other, there⟩ same
    obtain ⟨_, _, here⟩ := sound.nameOf_eq found
    obtain ⟨_, _, again⟩ := sound.nameOf_eq there
    rw [same, again] at here
    cases here
    rfl
  · rintro address ⟨object, found⟩
    exact sound.successors_nameOf found

end

/-! ## Placement -/

/-- The live objects of a heap lie as they are packed next fit in the order of a list. -/
structure LiesPacked (heap : Heap) (order : List Handle) (packing : Packing) : Prop where
  live : ∀ handle, heap.isLive handle = true ↔ handle ∈ order
  distinct : order.Nodup
  positions : order.map heap.positionOf = packing.places.map some
  used : heap.usedBytes = Packing.used packing.shelves
  slabs : heap.slabBytes = Packing.capacities packing.shelves

/-- The packing of the objects of several handles. -/
def packingOf (heap : Heap) (order : List Handle) : Packing :=
  .ofLayouts heap.config.slabBytes (order.filterMap fun handle => (heap.layoutOf handle).toOption)

section
variable {start finish : Heap} (sound : start.Sound)
  (ran : start.collectNow = (.ok (), finish))
include sound ran

/-- The copy of a survivor lies where the packing has its spot. -/
theorem Sound.positionOf_survivor {position : Nat} {handle : Handle}
    (survives : start.survivors[position]? = some handle) :
    finish.positionOf handle = start.packing.places[position]? := by
  have compacts := sound.compacts_mark ran
  have packs := sound.packs_collected ran
  rw [sound.survivors_eq] at survives
  obtain ⟨address, here, named⟩ := Option.bind_eq_some_iff.mp survives
  obtain ⟨holds, found⟩ := sound.handleOf?_eq_some_iff.mp named
  obtain ⟨object, place, _, copy⟩ := compacts.copies position address here
  have forwarded : forwarding (start.space.number + 1) start.mark.live.toList address =
      some ⟨start.space.number + 1, position⟩ := by
    obtain ⟨inside, value⟩ := List.getElem?_eq_some_iff.mp here
    rw [forwarding_of_mem _ (List.mem_of_getElem? here), ← value, compacts.distinct.idxOf_getElem]
  have known := (compacts.found handle _ holds).mpr ⟨address, found, forwarded⟩
  have resident : finish.residentOf handle = .ok (⟨start.space.number + 1, position⟩,
      ⟨place, object.redirect (forwarding (start.space.number + 1) start.mark.live.toList)⟩) := by
    unfold residentOf
    rw [HandleTable.resolve_of_find known]
    dsimp only
    rw [copy]
  have lies : finish.space.places[position]? = some place := by
    unfold Space.resident? at copy
    rw [if_pos compacts.number.symm] at copy
    unfold Space.places
    rw [List.getElem?_map, Array.getElem?_toList, copy]
    rfl
  rw [packs.places, List.getElem?_map] at lies
  obtain ⟨spot, spotted, rfl⟩ := Option.map_eq_some_iff.mp lies
  unfold positionOf Packing.places
  rw [resident, List.getElem?_map, spotted]
  dsimp only
  rw [Option.map_some, Place.raise, packs.idxOf_serial]

/-- A completed collection packs the survivors in the order of their discovery. -/
theorem Sound.liesPacked (fitted : start.Fitted) :
    finish.LiesPacked start.survivors (finish.packingOf start.survivors) := by
  have compacts := sound.compacts_mark ran
  have packs := sound.packs_collected ran
  have same : finish.packingOf start.survivors = start.packing := by
    unfold packingOf packing
    rw [sound.layoutsAt_mark, compacts.config, fitted.granularity]
    congr 1
    apply List.filterMap_congr
    intro handle survives
    rw [sound.layoutOf_survivor ran survives]
  rw [same]
  obtain ⟨used, slabs⟩ := packs.bytes_eq
  constructor
  · intro handle
    rw [sound.mem_survivors_iff_mark]
    exact compacts.isLive_iff
  · exact sound.nodup_survivors
  · have length : start.survivors.length = start.packing.places.length := by
      have copies := congrArg List.length packs.places
      rw [List.length_map] at copies
      have names := congrArg List.length sound.map_live
      rw [List.length_map] at names
      unfold Packing.places
      rw [List.length_map, ← copies, ← names, ← compacts.size]
      simp [Space.places]
    apply List.ext_getElem?
    intro position
    rw [List.getElem?_map, List.getElem?_map]
    cases survives : start.survivors[position]? with
    | none =>
        rw [List.getElem?_eq_none_iff.mpr (length ▸ List.getElem?_eq_none_iff.mp survives)]
        rfl
    | some handle =>
        have inside : position < start.packing.places.length :=
          length ▸ (List.getElem?_eq_some_iff.mp survives).1
        rw [Option.map_some, sound.positionOf_survivor ran survives,
          List.getElem?_eq_getElem inside, Option.map_some]
  · exact used
  · exact slabs

end

/-! ## Equal graphs -/

/-- Two heaps with slabs of the same size whose kept objects form the same graph, with the same
layouts and the same sequence of roots; the handles may have other names. -/
structure Resembles (rename : Handle → Handle) (first second : Heap) : Prop where
  slabBytes : second.config.slabBytes = first.config.slabBytes
  roots : second.liveRoots = first.liveRoots.map rename
  distinct : ∀ one other, first.Kept one → first.Kept other → rename one = rename other →
    one = other
  successors : ∀ handle, first.Kept handle →
    second.successors (rename handle) = (first.successors handle).map rename
  layouts : ∀ handle, first.Kept handle → second.layoutOf (rename handle) = first.layoutOf handle

/-- Two heaps whose objects lie in the same places. -/
structure LiesAlike (rename : Handle → Handle) (first second : Heap) : Prop where
  live : ∀ handle, second.isLive handle = true ↔
    ∃ original, first.isLive original = true ∧ rename original = handle
  positions : ∀ handle, first.isLive handle = true →
    second.positionOf (rename handle) = first.positionOf handle
  used : second.usedBytes = first.usedBytes
  slabs : second.slabBytes = first.slabBytes
  liveBytes : second.stats.liveBytes = first.stats.liveBytes

/-- The object of a kept handle holds references to kept objects only. -/
theorem Kept.successor {heap : Heap} {handle target : Handle} (kept : heap.Kept handle)
    (refers : target ∈ heap.successors handle) : heap.Kept target := by
  unfold successors at refers
  split at refers
  · next view seen =>
    refine kept.refers seen ?_
    obtain ⟨entry, _, member⟩ := List.mem_flatMap.mp refers
    cases entry with
    | ref offset => exact Or.inl ⟨offset, Option.mem_toList.mp member⟩
    | run offset =>
        obtain ⟨element, inside, same⟩ := List.mem_filterMap.mp member
        exact Or.inr (same ▸ inside)
  · exact absurd refers List.not_mem_nil

/-- The survivors of resembling heaps correspond. -/
theorem Resembles.survivors {rename : Handle → Handle} {first second : Heap}
    (resembles : Resembles rename first second) (sound : first.Sound) (otherSound : second.Sound) :
    second.survivors = first.survivors.map rename := by
  have rooted : ∀ handle ∈ first.liveRoots, first.Kept handle := by
    intro handle member
    obtain ⟨root, live⟩ := List.mem_filter.mp member
    exact sound.kept_of_root root live
  have search := sound.discovers.rename first.Kept
    (fun _ kept _ refers => kept.successor refers) resembles.distinct resembles.successors
    (fun _ member => absurd member List.not_mem_nil) rooted
  rw [← resembles.roots] at search
  exact search.unique otherSound.discovers

section
variable {rename : Handle → Handle} {start finish other after : Heap}

/-- Resembling heaps are laid out alike. -/
theorem Resembles.liesAlike (resembles : Resembles rename start other) (sound : start.Sound)
    (fitted : start.Fitted) (ran : start.collectNow = (.ok (), finish)) (otherSound : other.Sound)
    (otherFitted : other.Fitted) (otherRan : other.collectNow = (.ok (), after)) :
    LiesAlike rename finish after := by
  have survivors := resembles.survivors sound otherSound
  have layouts : other.mark.space.layoutsAt other.mark.live.toList =
      start.mark.space.layoutsAt start.mark.live.toList := by
    rw [otherSound.layoutsAt_mark, sound.layoutsAt_mark, survivors, List.filterMap_map]
    apply List.filterMap_congr
    intro handle survives
    exact congrArg Except.toOption
      (resembles.layouts handle (sound.mem_survivors_iff.mp survives))
  have packing : other.packing = start.packing := by
    unfold Heap.packing
    rw [layouts, otherFitted.granularity, resembles.slabBytes, fitted.granularity]
  have here := sound.liesPacked ran fitted
  have there := otherSound.liesPacked otherRan otherFitted
  have bytes := (sound.packs_collected ran).bytes_eq
  have otherBytes := (otherSound.packs_collected otherRan).bytes_eq
  rw [packing] at otherBytes
  constructor
  · intro handle
    rw [there.live, survivors, List.mem_map]
    simp only [here.live]
  · intro handle live
    obtain ⟨position, survives⟩ := List.mem_iff_getElem?.mp ((here.live handle).mp live)
    have renamed : other.survivors[position]? = some (rename handle) := by
      rw [survivors, List.getElem?_map, survives, Option.map_some]
    rw [sound.positionOf_survivor ran survives, otherSound.positionOf_survivor otherRan renamed,
      packing]
  · exact otherBytes.1.trans bytes.1.symm
  · exact otherBytes.2.trans bytes.2.symm
  · rw [liveBytes_of_collectNow otherRan, liveBytes_of_collectNow ran, Marking.liveBytes_eq,
      Marking.liveBytes_eq, layouts]

end

/-! ## A second collection -/

section
variable {start finish : Heap} {live : List Address}

/-- A collection keeps the holds, so the held handles are the same, in the same order. -/
theorem Compacts.held (compacts : start.Compacts finish live) (sound : start.Sound) :
    finish.handles.held = start.handles.held := by
  have bounded := Nat.le_of_lt sound.bounded
  apply HandleTable.held_congr bounded compacts.slots
  intro handle holds positive
  constructor
  · rintro ⟨copy, found⟩
    obtain ⟨address, before, _⟩ := (compacts.found handle copy holds).mp found
    exact ⟨address, before⟩
  · rintro ⟨address, found⟩
    have root : handle ∈ start.rootHandles := by
      unfold rootHandles
      simp only [List.mem_append]
      exact Or.inl (Or.inr
        ((HandleTable.mem_held_iff bounded).mpr ⟨address, holds, found, positive⟩))
    have alive := compacts.isLive_of_root root (HandleTable.isLive_iff.mpr ⟨address, holds, found⟩)
    obtain ⟨other, count, here, member⟩ := compacts.isLive_iff.mp alive
    rw [found] at here
    cases here
    obtain ⟨copy, forwarded⟩ := Compacts.exists_forwarding member (start.space.number + 1)
    exact ⟨copy, (compacts.found handle copy holds).mpr ⟨address, found, forwarded⟩⟩

/-- A collection leaves the sequence of live roots alone. -/
theorem Compacts.liveRoots (compacts : start.Compacts finish live) (sound : start.Sound) :
    finish.liveRoots = start.liveRoots := by
  have roots : finish.rootHandles = start.rootHandles := by
    unfold rootHandles
    rw [compacts.roots, compacts.interner, compacts.held sound]
  unfold Heap.liveRoots
  rw [roots]
  apply List.filter_congr
  intro handle root
  rw [Bool.eq_iff_iff]
  constructor
  · intro alive
    obtain ⟨address, holds, found, _⟩ := compacts.isLive_iff.mp alive
    exact HandleTable.isLive_iff.mpr ⟨address, holds, found⟩
  · exact compacts.isLive_of_root root

/-- A heap resembles itself after a collection. -/
theorem Sound.resembles_collected (sound : start.Sound)
    (ran : start.collectNow = (.ok (), finish)) : Resembles id start finish := by
  have compacts := sound.compacts_mark ran
  have survives (handle : Handle) (kept : start.Kept handle) : handle ∈ start.survivors :=
    sound.mem_survivors_iff.mpr kept
  constructor
  · rw [compacts.config]
  · rw [List.map_id, compacts.liveRoots sound]
  · exact fun _ _ _ _ same => same
  · intro handle kept
    have alive := compacts.isLive_iff.mpr
      (sound.mem_survivors_iff_mark.mp (survives handle kept))
    rw [List.map_id]
    unfold Heap.successors
    rw [id, compacts.view? sound alive]
  · intro handle kept
    exact sound.layoutOf_survivor ran (survives handle kept)

theorem Sound.resembles_collect (sound : start.Sound) (completed : (collect.run start).1 = .ok ()) :
    Resembles id start (collect.run start).2 :=
  sound.resembles_collected (Prod.ext completed rfl)

end

/-- Nothing that can be seen has changed from one heap to another: the same handles are live, none
has been reclaimed, and the objects lie where they lay. -/
structure Reproduces (first second : Heap) : Prop where
  live : ∀ handle, second.isLive handle = first.isLive handle
  reclaimed : second.stats.objectsReclaimed = first.stats.objectsReclaimed
  positions : ∀ handle, second.positionOf handle = first.positionOf handle
  used : second.usedBytes = first.usedBytes
  slabs : second.slabBytes = first.slabBytes
  liveBytes : second.stats.liveBytes = first.stats.liveBytes

/-- A completed collection places the survivors in the order of a breadth-first search, next fit,
and a second collection reproduces this, also if memory runs out for it. -/
structure PlacesCanonically (start finish : Heap) : Prop where
  ordered : ∃ order, Discovers start.successors [] start.liveRoots order ∧
    (∀ other, Discovers start.successors [] start.liveRoots other → other = order) ∧
    finish.LiesPacked order (finish.packingOf order)
  repeated : ∀ result again, finish.collectNow = (result, again) → Reproduces finish again

/-- A handle without an object has no position. -/
theorem positionOf_stale {heap : Heap} {handle : Handle} (stale : heap.isLive handle = false) :
    heap.positionOf handle = none := by
  unfold isLive HandleTable.isLive at stale
  unfold positionOf residentOf
  cases found : heap.handles.resolve handle with
  | ok address =>
      rw [found] at stale
      cases stale
  | error error => rfl

section
variable {start finish again : Heap} (sound : start.Sound) (fitted : start.Fitted)
  (ran : start.collectNow = (.ok (), finish))
include sound fitted ran

/-- A second collection that completes reproduces what the first one has left. -/
theorem Sound.reproduces (completed : finish.collectNow = (.ok (), again)) :
    Reproduces finish again := by
  have compacts := sound.compacts_mark ran
  have finishSound := compacts.sound sound
  have finishFitted : finish.Fitted := by
    have alike := sound.alike_collectNow
    rw [ran] at alike
    constructor
    · rw [alike.granularity, fitted.granularity, compacts.config]
    · rw [alike.limit, fitted.limit, compacts.config]
  have alike := (sound.resembles_collected ran).liesAlike sound fitted ran finishSound finishFitted
    completed
  have live : ∀ handle, again.isLive handle = finish.isLive handle := by
    intro handle
    rw [Bool.eq_iff_iff, alike.live]
    simp
  have later := finishSound.compacts_mark completed
  refine ⟨live, ?_, ?_, alike.used, alike.slabs, alike.liveBytes⟩
  · obtain ⟨dead, _, members, counted⟩ := later.reclaimed
    have none : dead = [] := by
      apply List.eq_nil_iff_forall_not_mem.mpr
      intro index member
      obtain ⟨handle, address, holds, _, found, left⟩ := (members index).mp member
      have alive := (live handle).trans (HandleTable.isLive_iff.mpr ⟨address, holds, found⟩)
      obtain ⟨other, count, here, kept⟩ := later.isLive_iff.mp alive
      rw [found] at here
      cases here
      exact left kept
    rw [none] at counted
    exact counted
  · intro handle
    cases alive : finish.isLive handle with
    | true => exact alike.positions handle alive
    | false => rw [positionOf_stale alive, positionOf_stale ((live handle).trans alive)]

/-- A completed collection is canonical. -/
theorem Sound.placesCanonically : start.PlacesCanonically finish := by
  refine ⟨⟨start.survivors, sound.discovers, ?_, sound.liesPacked ran fitted⟩, ?_⟩
  · exact fun other search => sound.discovers.unique search
  · intro result again second
    cases result with
    | ok value => exact sound.reproduces fitted ran second
    | error error =>
        have finishSound := (sound.compacts_mark ran).sound sound
        obtain ⟨relocation, _, rfl⟩ := finishSound.fails_of_error second
        exact ⟨fun _ => rfl, rfl, fun _ => rfl, rfl, rfl, rfl⟩

end

/-- Compaction is canonical: each collection that completes places the survivors in the order in
which their handles are discovered breadth first, next fit, and a second collection changes
nothing; and any two heaps that are the same graph of handles are laid out alike. -/
theorem Reachable.compactsCanonically {heap : Heap} (reachable : heap.Reachable) {α : Type}
    {operation : HeapM α} (offered : Operation operation)
    (bounded : (operation.run heap).2.handles.slots < 2 ^ 32) :
    EachCollection heap (operation.run heap).2 PlacesCanonically ∧
      ∀ peer : Heap, peer.Reachable → ∀ start other, heap.Underway start → peer.Underway other →
        ∀ rename, Resembles rename start other →
        ∀ finish after, start.collectNow = (.ok (), finish) → other.collectNow = (.ok (), after) →
          LiesAlike rename finish after := by
  refine ⟨?_, ?_⟩
  · apply reachable.eachCollection_underway offered bounded
    intro start finish underway ran
    exact (underway.sound reachable.sound).placesCanonically
      (reachable.fitted_underway underway) ran
  · intro peer peerReachable start other underway peerUnderway rename resembles finish after ran
      otherRan
    exact resembles.liesAlike
      (underway.sound reachable.sound) (reachable.fitted_underway underway) ran
      (peerUnderway.sound peerReachable.sound) (peerReachable.fitted_underway peerUnderway) otherRan

/-- In the sample heap the integer lies in front of the pair that refers to it; a collection puts
the pair, which is a root, in front.  The heap resembles itself after the collection. -/
theorem compactsCanonically_sample :
    sample.Reachable ∧ (collect.run sample).2.handles.slots < 2 ^ 32 ∧
      (collect.run sample).1 = .ok () ∧ sample.liveRoots = [⟨1, 0⟩] ∧
      sample.successors ⟨1, 0⟩ = [⟨0, 0⟩] ∧ sample.positionOf ⟨0, 0⟩ = some (0, 0) ∧
      (collect.run sample).2.positionOf ⟨1, 0⟩ = some (0, 0) ∧
      (collect.run sample).2.positionOf ⟨0, 0⟩ = some (0, 40) ∧
      Resembles id sample (collect.run sample).2 ∧
      EachCollection sample (collect.run sample).2 PlacesCanonically ∧
      ∀ peer : Heap, peer.Reachable → ∀ start other, sample.Underway start → peer.Underway other →
        ∀ rename, Resembles rename start other →
        ∀ finish after, start.collectNow = (.ok (), finish) → other.collectNow = (.ok (), after) →
          LiesAlike rename finish after := by
  have completed : (collect.run sample).1 = .ok () := by decide +kernel
  exact ⟨reachable_sample, by decide +kernel, completed, by decide +kernel, by decide +kernel,
    by decide +kernel, by decide +kernel, by decide +kernel,
    reachable_sample.sound.resembles_collect completed,
    Reachable.compactsCanonically reachable_sample Operation.collect (by decide +kernel)⟩

end Heap

end CompactingHeap
