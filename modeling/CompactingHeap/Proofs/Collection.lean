import CompactingHeap.Proofs.Sweep

/-!
# What a collection does

A collection of a sound heap ends in one of two ways.  Either it compacts the heap: the objects
that can be reached are moved to a new space, in the order in which they were found, and their
handles with them, while all other handles become stale.  Or it runs out of memory, and then
nothing but the allocator has changed.  It never meets a broken heap, and what it leaves is sound
again.
-/

namespace CompactingHeap

/-- Clearing flags clears those of the given objects. -/
theorem Space.resident?_clearFlags (space : Space) (addresses : List Address) (address : Address) :
    (space.clearFlags addresses).resident? address =
      if address ∈ addresses then
        (space.resident? address).map fun resident =>
          ⟨resident.place, { resident.object with flags := 0 }⟩
      else space.resident? address :=
  Space.resident?_foldl_modify (f := fun copy => { copy with flags := 0 }) (fun _ => rfl) space
    addresses address

namespace Heap

/-- What a completed collection does, given the survivors in the order in which they were found. -/
structure Compacts (start finish : Heap) (live : List Address) : Prop where
  reached : ∀ address, address ∈ live ↔ start.space.Reaches start.rootAddresses address
  distinct : live.Nodup
  number : finish.space.number = start.space.number + 1
  size : finish.space.residents.size = live.length
  copies : ∀ position address, live[position]? = some address →
    ∃ object place, start.space.object? address = some object ∧
      finish.space.resident? ⟨start.space.number + 1, position⟩ =
        some ⟨place, object.redirect (forwarding (start.space.number + 1) live)⟩
  found : ∀ handle copy holds, finish.handles.find handle = .ok (copy, holds) ↔
    ∃ address, start.handles.find handle = .ok (address, holds) ∧
      forwarding (start.space.number + 1) live address = some copy
  chained : finish.handles.Chained
  slots : finish.handles.slots = start.handles.slots
  placed : finish.space.Placed
  accounts : finish.allocator.Accounts finish.space.slabs
  renewed : ∀ slab ∈ finish.space.slabs, slab.serial ∉ start.space.slabs.map Slab.serial
  idle : finish.phase = .idle
  config : finish.config = start.config
  classes : finish.classes = start.classes
  interner : finish.interner = start.interner
  roots : finish.roots = start.roots
  collections : finish.counters.collections = start.counters.collections + 1
  reclaimed : ∃ dead : List UInt32, dead.Nodup ∧
    (∀ index, index ∈ dead ↔ ∃ handle address holds, handle.index = index ∧
      start.handles.find handle = .ok (address, holds) ∧ address ∉ live) ∧
    finish.counters.objectsReclaimed = start.counters.objectsReclaimed + dead.length

/-- The root addresses of a sound heap lead to objects. -/
theorem Sound.rootAddresses_present {heap : Heap} (sound : heap.Sound) :
    ∀ address ∈ heap.rootAddresses, ∃ object, heap.space.object? address = some object := by
  intro address member
  rcases List.mem_filterMap.mp member with ⟨handle, _, resolved⟩
  cases found : heap.handles.resolve handle with
  | error error =>
      rw [found] at resolved
      cases resolved
  | ok other =>
      rw [found] at resolved
      cases resolved
      obtain ⟨holds, found⟩ := HandleTable.find_of_resolve found
      obtain ⟨object, here, _⟩ := sound.object_of_find found
      exact ⟨object, here⟩

/-- The marking of a sound heap traces its space and finds exactly what can be reached. -/
theorem Sound.mark {heap : Heap} (sound : heap.Sound) :
    Marking.Traces heap.space heap.mark ∧
      ∀ address, address ∈ heap.mark.live.toList ↔
        heap.space.Reaches heap.rootAddresses address :=
  Marking.mem_live_ofRoots_iff
    (fun address object found => (sound.linked.rest address object found).isMarked)
    sound.linked.closed sound.rootAddresses_present

/-- The address of the copy of a survivor. -/
def copyOf (number : Nat) (live : List Address) (address : Address) : Address :=
  ⟨number + 1, live.idxOf address⟩

/-- A copy whose flags have been cleared is the original with its references redirected. -/
theorem redirect_copy_eq {object : HeapObject} (rest : object.AtRest) (flags : UInt32)
    (f : Address → Option Address) :
    { (object.copyWith flags).redirect f with flags := 0 } = object.redirect f := by
  have header : (object.copyWith flags).redirect f =
      { object.redirect f with flags := flags, forward := none } :=
    object.redirect_header f flags none
  have sameFlags : (object.redirect f).flags = 0 := by
    rw [Object.flags_redirect, rest.flags]
  have sameForward : (object.redirect f).forward = none := by
    rw [Object.forward_redirect, rest.forward]
  rw [header]
  cases redirected : object.redirect f with
  | mk =>
      rw [redirected] at sameFlags sameForward
      simp only at sameFlags sameForward
      simp only [sameFlags, sameForward]

section Finishing

variable {heap : Heap} {marking : Marking} {relocation : Relocation}
  (sound : heap.Sound) (traces : Marking.Traces heap.space marking)
  (moved : relocation.Moved marking.space heap.allocator marking.live.toList)

include traces moved

/-- The copy of a survivor before its references have been redirected. -/
theorem copy_of_live {position : Nat} {address : Address}
    (here : marking.live.toList[position]? = some address) :
    ∃ object place, heap.space.object? address = some object ∧
      relocation.target.resident? ⟨heap.space.number + 1, position⟩ =
        some ⟨place, object.copyWith relocatedFlag⟩ := by
  obtain ⟨marked, place, known, copy⟩ := moved.copies position address here
  rw [traces.number] at copy
  rw [traces.object?, if_pos (List.mem_of_getElem? here)] at known
  rcases Option.map_eq_some_iff.mp known with ⟨object, found, rfl⟩
  exact ⟨object, place, found, copy⟩

include sound

/-- After everything has been moved, the old space forwards exactly the moved objects. -/
theorem Sound.forwardOf_eq :
    relocation.source.forwardOf = forwarding (heap.space.number + 1) marking.live.toList := by
  funext address
  unfold Space.forwardOf Space.object?
  rw [moved.sources, traces.number]
  by_cases live : address ∈ marking.live.toList
  · obtain ⟨object, found⟩ := traces.present address live
    rcases Space.object?_eq_some_iff.mp found with ⟨place, resident⟩
    rw [if_pos live, traces.residents, if_pos live, resident]
    rfl
  · rw [if_neg live, traces.residents, if_neg live, forwarding_of_not_mem _ live]
    cases found : heap.space.resident? address with
    | none => rfl
    | some resident =>
        exact (sound.linked.rest address resident.object
          (Space.object?_eq_some_iff.mpr ⟨resident.place, found⟩)).forward

/-- Everything is ready for fixing up. -/
theorem Sound.fixable :
    Space.Fixable relocation.source relocation.target heap.handles
      (copyOf heap.space.number marking.live.toList) marking.live.toList where
  chained := sound.chained
  distinct := traces.distinct
  forwarded address member := by
    rw [sound.forwardOf_eq traces moved]
    exact forwarding_of_mem _ member
  injective first firstMember second _ same :=
    (List.idxOf_inj firstMember).mp (congrArg Address.position same)
  fresh first _ second secondMember same := by
    obtain ⟨object, found⟩ := traces.present second secondMember
    have old := (Space.position_lt found).1
    have new := congrArg Address.space same
    simp only [copyOf] at new
    omega
  named address member := by
    obtain ⟨object, place, found, copy⟩ := copy_of_live traces moved (List.getElem?_idxOf member)
    obtain ⟨generation, holds, owned⟩ := sound.linked.owned address object found
    exact ⟨_, ⟨object.owner, generation⟩, holds,
      Space.object?_eq_some_iff.mpr ⟨place, copy⟩, rfl, owned⟩
  unique address _ first second _ _ firstFound secondFound :=
    sound.linked.eq_of_address firstFound secondFound

/-! ### The heap after fixing up -/

variable {fixed : Space} {updated : HandleTable Address}
  (fixes : Space.Fixes relocation.target fixed heap.handles updated relocation.source.forwardOf
    (copyOf heap.space.number marking.live.toList) marking.live.toList)

include fixes

omit traces moved in
/-- Fixing up leaves the number of handle slots. -/
theorem Sound.slots_updated : updated.slots ≤ 2 ^ 32 := by
  rw [fixes.slots]
  exact Nat.le_of_lt sound.bounded

/-- The copy of a survivor after its references have been redirected. -/
theorem Sound.fixed_of_live {position : Nat} {address : Address}
    (here : marking.live.toList[position]? = some address) :
    ∃ object place, heap.space.object? address = some object ∧
      fixed.resident? ⟨heap.space.number + 1, position⟩ =
        some ⟨place, (object.copyWith relocatedFlag).redirect
          (forwarding (heap.space.number + 1) marking.live.toList)⟩ := by
  obtain ⟨object, place, found, copy⟩ := copy_of_live traces moved here
  have member : (⟨heap.space.number + 1, position⟩ : Address) ∈
      marking.live.toList.map (copyOf heap.space.number marking.live.toList) := by
    rw [List.mem_map]
    rcases List.getElem?_eq_some_iff.mp here with ⟨inside, rfl⟩
    exact ⟨_, List.getElem_mem inside, by rw [copyOf, traces.distinct.idxOf_getElem]⟩
  rw [sound.forwardOf_eq traces moved] at fixes
  have redirected := fixes.residents ⟨heap.space.number + 1, position⟩
  rw [if_pos member, copy] at redirected
  exact ⟨object, place, found, redirected⟩

/-- After fixing up, the handle of an object names a copy exactly if the object has survived. -/
theorem Sound.isCopy_iff {handle : Handle} {original : Address} {holds : UInt32}
    (found : heap.handles.find handle = .ok (original, holds)) :
    fixed.isCopy (if original ∈ marking.live.toList then
        copyOf heap.space.number marking.live.toList original else original) = true ↔
      original ∈ marking.live.toList := by
  by_cases live : original ∈ marking.live.toList
  · rcases sound.fixed_of_live traces moved fixes (List.getElem?_idxOf live) with
      ⟨object, place, _, resident⟩
    have copy := Space.object?_eq_some_iff.mpr ⟨place, resident⟩
    have flags : (object.copyWith relocatedFlag).flags = relocatedFlag := rfl
    simp only [live, if_true, iff_true, copyOf, Space.isCopy, copy, Object.flags_redirect, flags]
    rfl
  · obtain ⟨object, here, _⟩ := sound.object_of_find found
    have old := (Space.position_lt here).1
    have elsewhere : fixed.object? original = none := by
      unfold Space.object? Space.resident?
      rw [fixes.number, moved.targetNumber, traces.number, if_neg (by omega)]
      rfl
    simp [live, Space.isCopy, elsewhere]

/-- The slots left behind are those of the objects that have not survived. -/
theorem Sound.mem_leftBehind_iff (index : UInt32) :
    index ∈ updated.leftBehind fixed ↔ ∃ handle address holds, handle.index = index ∧
      heap.handles.find handle = .ok (address, holds) ∧ address ∉ marking.live.toList := by
  rw [HandleTable.mem_leftBehind_iff (sound.slots_updated fixes)]
  constructor
  · rintro ⟨handle, address, holds, same, found, left⟩
    rcases (fixes.found handle address holds).mp found with ⟨original, before, rfl⟩
    refine ⟨handle, original, holds, same, before, ?_⟩
    rwa [← sound.isCopy_iff traces moved fixes before, Bool.not_eq_true]
  · rintro ⟨handle, original, holds, same, before, dead⟩
    refine ⟨handle, _, holds, same, (fixes.found handle _ holds).mpr ⟨original, before, rfl⟩, ?_⟩
    rwa [← Bool.not_eq_true, sound.isCopy_iff traces moved fixes before]

/-- The copy of a survivor after the flags of all copies have been cleared. -/
theorem Sound.cleared_of_live {position : Nat} {address : Address}
    (here : marking.live.toList[position]? = some address) :
    ∃ object place, heap.space.object? address = some object ∧
      (fixed.clearFlags (updated.occupied.map Prod.snd)).resident?
          ⟨heap.space.number + 1, position⟩ =
        some ⟨place, object.redirect
          (forwarding (heap.space.number + 1) marking.live.toList)⟩ := by
  obtain ⟨object, place, found, resident⟩ := sound.fixed_of_live traces moved fixes here
  have occupied : (⟨heap.space.number + 1, position⟩ : Address) ∈
      updated.occupied.map Prod.snd := by
    obtain ⟨generation, holds, owned⟩ := sound.linked.owned address object found
    have live := List.mem_of_getElem? here
    have renamed := (fixes.found _ _ _).mpr ⟨address, owned, rfl⟩
    rw [if_pos live, copyOf] at renamed
    rcases List.getElem?_eq_some_iff.mp here with ⟨inside, same⟩
    rw [← same, traces.distinct.idxOf_getElem] at renamed
    have listed := (HandleTable.mem_occupied_iff (sound.slots_updated fixes)).mpr ⟨_, _, renamed⟩
    exact List.mem_map.mpr ⟨_, listed, rfl⟩
  refine ⟨object, place, found, ?_⟩
  rw [Space.resident?_clearFlags, if_pos occupied, resident, Option.map_some,
    redirect_copy_eq (sound.linked.rest address object found)]

/-- The sweep succeeds and leaves the handles of the survivors, which name the copies. -/
theorem Sound.sweep :
    ∃ swept, updated.recycleAll (updated.leftBehind fixed) = .ok swept ∧ swept.Chained ∧
      swept.slots = heap.handles.slots ∧
      ∀ handle copy holds, swept.find handle = .ok (copy, holds) ↔
        ∃ address, heap.handles.find handle = .ok (address, holds) ∧
          forwarding (heap.space.number + 1) marking.live.toList address = some copy := by
  have bounded := sound.slots_updated fixes
  have live : ∀ index ∈ updated.leftBehind fixed, ∃ handle occupant, handle.index = index ∧
      updated.find handle = .ok occupant := by
    intro index member
    rcases (HandleTable.mem_leftBehind_iff bounded).mp member with
      ⟨handle, address, holds, same, found, _⟩
    exact ⟨handle, _, same, found⟩
  rcases fixes.chained.recycleAll (HandleTable.nodup_leftBehind bounded fixed) live with
    ⟨swept, sweeps, chained, slots, found⟩
  refine ⟨swept, sweeps, chained, slots.trans fixes.slots, ?_⟩
  intro handle copy holds
  rw [found, sound.mem_leftBehind_iff traces moved fixes, fixes.found]
  constructor
  · rintro ⟨alive, address, before, rfl⟩
    by_cases live : address ∈ marking.live.toList
    · rw [if_pos live]
      exact ⟨address, before, forwarding_of_mem _ live⟩
    · exact absurd ⟨handle, address, holds, rfl, before, live⟩ alive
  · rintro ⟨address, before, forwarded⟩
    have live := mem_of_forwarding forwarded
    rw [forwarding_of_mem _ live] at forwarded
    cases forwarded
    refine ⟨?_, address, before, by rw [if_pos live, copyOf]⟩
    rintro ⟨other, elsewhere, otherHolds, same, found, dead⟩
    have equal := HandleTable.eq_of_find found before same
    subst equal
    rw [found] at before
    cases before
    exact dead live

omit sound traces moved in
/-- Clearing flags and fixing up leave every copy where it lies. -/
theorem footprint?_cleared (addresses : List Address) (address : Address) :
    (fixed.clearFlags addresses).footprint? address = relocation.target.footprint? address := by
  unfold Space.footprint?
  rw [Space.resident?_clearFlags, fixes.residents]
  cases relocation.target.resident? address <;> split <;> split <;> simp

omit sound traces moved in
/-- Clearing flags and fixing up leave the slabs. -/
theorem slabs_cleared (addresses : List Address) :
    (fixed.clearFlags addresses).slabs = relocation.target.slabs :=
  (Space.slabs_foldl_modify _ _ _).trans fixes.slabs

omit sound fixes in
/-- The slabs that the copies lie in are not among those that are given back. -/
theorem serial_renewed {slab : Slab} (member : slab ∈ relocation.target.slabs) :
    slab.serial ∉ heap.space.slabs.map Slab.serial := by
  have distinct := moved.accounts.distinct
  rw [List.map_append, List.nodup_append, traces.slabs] at distinct
  exact fun old => distinct.2.2 _ (List.mem_map_of_mem member) _ old rfl

omit fixes

/-- The end of a collection succeeds and leaves the heap compacted. -/
theorem Sound.finish
    (reached : ∀ address, address ∈ marking.live.toList ↔
      heap.space.Reaches heap.rootAddresses address)
    (phase : Phase) (liveBytes : Nat) :
    ∃ finish, finishCollection { heap with space := marking.space, phase } relocation
        marking.live.toList liveBytes = .ok finish ∧
      heap.Compacts finish marking.live.toList := by
  obtain ⟨fixed, updated, fixUp, fixes⟩ := (sound.fixable traces moved).fixUp
  obtain ⟨swept, sweeps, chained, sweptSlots, found⟩ := sound.sweep traces moved fixes
  have finishes : finishCollection { heap with space := marking.space, phase } relocation
      marking.live.toList liveBytes = .ok _ :=
    finishCollection_eq_ok_iff.mpr ⟨fixed, updated, swept, fixUp, sweeps, rfl⟩
  have slabs := slabs_cleared fixes (updated.occupied.map Prod.snd)
  have books : relocation.allocator.Accounts
      (marking.space.slabs.reverse ++ relocation.target.slabs) :=
    moved.accounts.perm
      (List.perm_append_comm.trans ((List.reverse_perm _).symm.append_right _))
  refine ⟨_, finishes, ?_⟩
  constructor
  · exact reached
  · exact traces.distinct
  · change (fixed.clearFlags _).number = _
    unfold Space.clearFlags
    rw [Space.number_foldl_modify, fixes.number, moved.targetNumber, traces.number]
  · change (fixed.clearFlags _).residents.size = _
    unfold Space.clearFlags
    rw [Space.size_residents_foldl_modify, fixes.size, moved.size]
  · intro position address here
    exact sound.cleared_of_live traces moved fixes here
  · exact found
  · exact chained
  · exact sweptSlots
  · exact moved.placed.congr slabs (footprint?_cleared fixes _)
  · change (relocation.allocator.releaseAll _).Accounts
      (fixed.clearFlags (updated.occupied.map Prod.snd)).slabs
    rw [slabs]
    exact books.releaseAll.1
  · intro slab member
    exact serial_renewed traces moved (slabs ▸ member)
  case reclaimed =>
    exact ⟨_, HandleTable.nodup_leftBehind (sound.slots_updated fixes) fixed,
      sound.mem_leftBehind_iff traces moved fixes, rfl⟩
  all_goals rfl

end Finishing

/-- Marking does not change what the allocator accounts for. -/
theorem Sound.accounts_mark {heap : Heap} (sound : heap.Sound) :
    heap.allocator.Accounts heap.mark.space.slabs := by
  obtain ⟨traces, _⟩ := sound.mark
  rw [traces.slabs]
  exact sound.accounts

/-- The survivors of a sound heap are all moved, or memory runs out before one of them. -/
theorem Sound.relocates {heap : Heap} (sound : heap.Sound) :
    Relocation.Outcome heap.mark.space heap.allocator heap.mark.live.toList
      ((Relocation.begin heap.allocator heap.mark.space).moveAll heap.mark.live.toList) := by
  obtain ⟨traces, _⟩ := sound.mark
  have distinct : ([] ++ heap.mark.live.toList).Nodup := by
    rw [List.nil_append]
    exact traces.distinct
  have outcome :=
    (Relocation.moved_begin sound.accounts_mark).moveAll distinct traces.present_marked
  rw [List.nil_append] at outcome
  exact outcome

/-- A collection of a sound heap compacts the heap, with the marked objects in the order of the
marking as the survivors, or runs out of memory; in the latter case only the allocator has changed,
and its books tally with the slabs as before. -/
theorem Sound.collectNow_cases {heap : Heap} (sound : heap.Sound) :
    (∃ finish, heap.collectNow = (.ok (), finish) ∧
      heap.Compacts finish heap.mark.live.toList) ∨
      ∃ size allocator,
        heap.collectNow =
          (.error (.outOfMemory size heap.allocator.limit), { heap with allocator }) ∧
        allocator.Accounts heap.space.slabs ∧ allocator.Alike heap.allocator := by
  obtain ⟨traces, reached⟩ := sound.mark
  have outcome := sound.relocates
  have sameMark : ({ heap with phase := .marking } : Heap).mark = heap.mark := rfl
  unfold Heap.collectNow
  dsimp only
  rw [sameMark]
  rcases outcome with ⟨result, moved⟩ | ⟨size, moved, result, within, sofar⟩
  · left
    rcases sound.finish traces moved reached .sweeping heap.mark.liveBytes with
      ⟨finish, finishes, compacts⟩
    refine ⟨finish, ?_, compacts⟩
    split
    · next error relocation ran =>
      rw [ran] at result
      cases result
    · next relocation ran =>
      rw [ran] at finishes
      dsimp only at finishes
      rw [finishes]
  · right
    split
    · next error relocation ran =>
      rw [ran] at result sofar
      cases result
      have restored := sofar.rollBack_space traces sound.linked.rest within
      obtain ⟨accounts, alike⟩ := sofar.rollBack_accounts traces
      refine ⟨size, _, ?_, accounts, alike⟩
      rw [restored, ← sound.idle]
    · next relocation ran =>
      rw [ran] at result
      cases result

/-- A collection of a sound heap compacts the heap or runs out of memory; in the latter case only
the allocator has changed, and its books tally with the slabs as before. -/
theorem Sound.collectNow {heap : Heap} (sound : heap.Sound) :
    (∃ finish live, heap.collectNow = (.ok (), finish) ∧ heap.Compacts finish live) ∨
      ∃ size allocator,
        heap.collectNow =
          (.error (.outOfMemory size heap.allocator.limit), { heap with allocator }) ∧
        allocator.Accounts heap.space.slabs ∧ allocator.Alike heap.allocator := by
  rcases sound.collectNow_cases with ⟨finish, ran, compacts⟩ | failed
  · exact Or.inl ⟨finish, _, ran, compacts⟩
  · exact Or.inr failed

/-- A collection that fails is out of memory, and changes the allocator only. -/
theorem Sound.collectNow_error {heap next : Heap} (sound : heap.Sound) {error : HeapError}
    (ran : heap.collectNow = (.error error, next)) :
    ∃ size allocator, error = .outOfMemory size heap.allocator.limit ∧
      next = { heap with allocator } ∧ allocator.Accounts heap.space.slabs ∧
      allocator.Alike heap.allocator := by
  rcases sound.collectNow with ⟨finish, live, collects, _⟩ | ⟨size, allocator, fails, books⟩
  · rw [collects] at ran
    cases ran
  · rw [fails] at ran
    cases ran
    exact ⟨size, allocator, rfl, rfl, books⟩

/-- The survivors of a completed collection are the marked objects in the order of the marking. -/
theorem Sound.compacts_mark {heap finish : Heap} (sound : heap.Sound)
    (ran : heap.collectNow = (.ok (), finish)) :
    heap.Compacts finish heap.mark.live.toList := by
  rcases sound.collectNow_cases with ⟨other, completed, compacts⟩ | ⟨_, _, failed, _⟩
  · rw [completed] at ran
    cases ran
    exact compacts
  · rw [failed] at ran
    cases ran

end Heap

end CompactingHeap
