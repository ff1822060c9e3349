import CompactingHeap.Proofs.Classes
import CompactingHeap.Proofs.Moves
import CompactingHeap.Proofs.Solvency

/-!
# The memory that a heap holds

The allocator of a heap works within the settings of the heap and stays solvent, and no slab is
held in vain: every slab of the active space holds an object.  A slab joins a space only together
with an object that is put into it, so this is true of the space that a collection builds as well,
and of the old space if the collection is taken back.
-/

namespace CompactingHeap

namespace SlabAllocator

theorem Solvent.of_acquire {allocator next : SlabAllocator} {outstanding : List Slab}
    (solvent : allocator.Solvent) (accounts : allocator.Accounts outstanding) {minBytes : Nat}
    {result : Except HeapError Slab} (ran : allocator.acquire minBytes = (result, next)) :
    next.Solvent := by
  have acquires := solvent.acquire accounts minBytes
  rw [ran] at acquires
  cases acquires with
  | issued solvent _ _ _ => exact solvent
  | refused solvent => exact solvent

theorem Solvent.releaseAll {allocator : SlabAllocator} (solvent : allocator.Solvent)
    (slabs : List Slab) : (allocator.releaseAll slabs).Solvent := by
  induction slabs generalizing allocator with
  | nil => exact solvent
  | cons slab rest ih => exact ih (solvent.release slab)

end SlabAllocator

namespace Space

/-- The slab bytes of a space are the capacities of its slabs. -/
theorem slabBytes_eq (space : Space) : space.slabBytes = Slab.capacities space.slabs := by
  unfold slabBytes
  suffices general : ∀ bytes, space.slabs.foldl (fun bytes slab => bytes + slab.capacity) bytes =
      bytes + Slab.capacities space.slabs by
    simpa using general 0
  induction space.slabs with
  | nil => exact fun _ => rfl
  | cons slab rest ih =>
      intro bytes
      rw [List.foldl_cons, ih, Slab.capacities, Nat.add_assoc]

/-- Every slab holds an object. -/
def Peopled (space : Space) : Prop :=
  ∀ slab ∈ space.slabs, ∃ address place layout,
    space.footprint? address = some (place, layout) ∧ place.slab = slab.serial

/-- The slabs of a space that has made room are the old ones and the one that the room is in. -/
def Houses (space next : Space) (place : Place) : Prop :=
  ∀ slab ∈ next.slabs, slab.serial ∈ space.slabs.map Slab.serial ∨ slab.serial = place.slab

theorem houses_bumped {space : Space} {current bumped : Slab} {earlier : List Slab}
    (slabs : space.slabs = current :: earlier) {size align offset : Nat}
    (bumps : current.bump size align = .ok (offset, bumped)) :
    space.Houses { space with slabs := bumped :: earlier } ⟨current.serial, offset⟩ := by
  obtain ⟨_, _, _, rfl⟩ := Slab.bump_eq_ok_iff.mp bumps
  intro slab member
  rcases List.mem_cons.mp member with rfl | old
  · exact Or.inr rfl
  · rw [slabs, List.map_cons]
    exact Or.inl (List.mem_cons_of_mem _ (List.mem_map_of_mem old))

theorem houses_join (space : Space) (granularity : Nat) (slab : Slab) (offset : Nat) :
    space.Houses { space with slabs := space.join granularity slab } ⟨slab.serial, offset⟩ := by
  intro other member
  rcases List.mem_cons.mp ((space.perm_join granularity slab).mem_iff.mp member) with rfl | old
  · exact Or.inr rfl
  · exact Or.inl (List.mem_map_of_mem old)

/-- Once the object has been put into the room, every slab holds an object again. -/
theorem Peopled.add {space next : Space} (peopled : space.Peopled) {place : Place}
    (houses : space.Houses next place) (number : next.number = space.number)
    (residents : next.residents = space.residents) (object : HeapObject) :
    (next.add place object).Peopled := by
  intro slab member
  rcases houses slab member with old | new
  · obtain ⟨before, there, same⟩ := List.mem_map.mp old
    obtain ⟨address, oldPlace, layout, found, inside⟩ := peopled before there
    refine ⟨address, oldPlace, layout, ?_, inside.trans same⟩
    have present : address ≠ next.nextAddress := by
      rintro rfl
      have nothing := space.object?_nextAddress
      rw [nextAddress, number, residents] at found
      obtain ⟨object, here, _⟩ := footprint?_eq_some_iff.mp found
      have contradiction := object?_eq_some_iff.mpr ⟨_, here⟩
      rw [show (⟨space.number, space.residents.size⟩ : Address) = space.nextAddress from rfl,
        nothing] at contradiction
      cases contradiction
    rw [footprint?_add, if_neg present]
    unfold footprint? resident? at found ⊢
    rw [number, residents]
    exact found
  · refine ⟨next.nextAddress, place, object.layout, ?_, new.symm⟩
    rw [footprint?_add, if_pos rfl]

theorem Peopled.congr {space other : Space} (peopled : space.Peopled)
    (slabs : other.slabs = space.slabs)
    (footprints : ∀ address, other.footprint? address = space.footprint? address) :
    other.Peopled := by
  intro slab member
  rw [slabs] at member
  obtain ⟨address, place, layout, found, inside⟩ := peopled slab member
  exact ⟨address, place, layout, (footprints address).trans found, inside⟩

end Space

namespace Heap

/-! ## The bounds of the allocator -/

/-- The allocator has the bounds that the settings give it. -/
structure Fitted (heap : Heap) : Prop where
  granularity : heap.allocator.granularity = heap.config.slabBytes
  limit : heap.allocator.limit = heap.config.maxHeapBytes

theorem fitted_new {system : MemorySystem} {config : Config} {heap : Heap}
    (created : Heap.new system config = .ok heap) : heap.Fitted := by
  obtain ⟨_, rfl⟩ := new_eq_ok_iff.mp created
  exact ⟨rfl, rfl⟩

/-- What finding room does to the slabs and to the allocator. -/
theorem Sound.houses {heap roomy : Heap} (sound : heap.Sound) {descriptor : Descriptor}
    {extra : Nat} {layout : Layout} (laidOut : Layout.of? descriptor extra = some layout)
    {place : Place} (finds : heap.FindsRoom layout place roomy) :
    roomy.allocator.Alike heap.allocator ∧
      (heap.allocator.Solvent → roomy.allocator.Solvent) ∧ heap.space.Houses roomy.space place := by
  cases finds with
  | bumped ran =>
      obtain ⟨space, bumped, rfl⟩ := run_bump?_eq_some ran
      obtain ⟨current, earlier, offset, _, slabs, bumps, rfl, rfl⟩ :=
        Space.bump?_eq_some_iff.mp bumped
      exact ⟨SlabAllocator.Alike.refl _, id, Space.houses_bumped slabs bumps⟩
  | grown ran =>
      obtain ⟨space, allocator, grows, rfl⟩ := run_grow_eq_ok ran
      obtain ⟨_, _, alike⟩ := sound.placed.extend_ok sound.books laidOut grows
      obtain ⟨slab, issue, _, rfl, rfl⟩ := Space.extend_eq_ok sound.books laidOut grows
      exact ⟨alike, fun solvent => solvent.of_acquire sound.accounts issue,
        Space.houses_join _ _ { slab with top := layout.size } 0⟩

/-- A refused slab leaves the heap as it was, apart from the books of the allocator. -/
theorem Sound.refused {heap next : Heap} (sound : heap.Sound) {descriptor : Descriptor}
    {extra : Nat} {layout : Layout} (laidOut : Layout.of? descriptor extra = some layout)
    {error : HeapError} (ran : (grow layout).run heap = (.error error, next)) :
    ∃ allocator, next = { heap with allocator } ∧ allocator.Alike heap.allocator ∧
      (heap.allocator.Solvent → allocator.Solvent) := by
  obtain ⟨allocator, grows, rfl⟩ := run_grow_eq_error ran
  obtain ⟨_, _, alike⟩ := sound.placed.extend_error sound.books laidOut grows
  have left := heap.space.extend_snd heap.allocator layout
  rw [grows] at left
  dsimp only at left
  subst left
  exact ⟨_, rfl, alike, fun solvent => solvent.of_acquire sound.accounts rfl⟩

/-- A collection does not change the bounds of the allocator. -/
theorem Sound.alike_collectNow {heap : Heap} (sound : heap.Sound) :
    heap.collectNow.2.allocator.Alike heap.allocator := by
  rcases sound.collectNow_cases with ⟨finish, ran, _⟩ | ⟨_, allocator, ran, _, alike⟩
  · obtain ⟨relocation, fixed, updated, completes⟩ := completes_of_ok ran
    have outcome := sound.relocates
    rw [completes.moved] at outcome
    rcases outcome with ⟨_, moved⟩ | ⟨_, _, failed, _⟩
    · have books := moved.accounts.perm
        (List.perm_append_comm.trans ((List.reverse_perm _).symm.append_right _))
      rw [ran]
      dsimp only
      rw [completes.allocator]
      exact books.releaseAll.2.trans moved.alike
    · cases failed
  · rw [ran]
    exact alike

/-- A quiet step does not change the bounds of the allocator. -/
theorem Quiet.alike {heap next : Heap} (quiet : Quiet heap next) (sound : heap.Sound)
    (bounded : next.handles.slots < 2 ^ 32) : next.allocator.Alike heap.allocator := by
  cases quiet with
  | @allocated descriptor extra layout laidOut place roomy _ handle finds ran =>
      obtain ⟨_, settles⟩ := sound.allocated finds ran bounded
      rw [settles.rest, (sound.findsRoom laidOut finds).rest]
      exact (sound.houses laidOut finds).1
  | refused laidOut ran =>
      obtain ⟨allocator, rfl, alike, _⟩ := sound.refused laidOut ran
      exact alike
  | abandoned ran =>
      have alike := sound.alike_collectNow
      rw [ran] at alike
      exact alike
  | _ => exact SlabAllocator.Alike.refl _

/-- The bounds of the allocator never change. -/
theorem Course.alike {heap last : Heap} {log : List (Heap × Heap)} (course : Course heap log last)
    (sound : heap.Sound) (bounded : last.handles.slots < 2 ^ 32) :
    last.allocator.Alike heap.allocator := by
  induction course with
  | done heap => exact SlabAllocator.Alike.refl _
  | quiet step rest ih =>
      have small := Nat.lt_of_le_of_lt rest.slots_le bounded
      exact (ih (step.calm sound small).sound bounded).trans (step.alike sound small)
  | collected ran rest ih =>
      obtain ⟨live, compacts⟩ := sound.compacts ran
      have alike := sound.alike_collectNow
      rw [ran] at alike
      exact (ih (compacts.sound sound) bounded).trans alike

/-- The allocator keeps the bounds of the settings. -/
theorem Fitted.of_course {heap last : Heap} (fitted : heap.Fitted) {log : List (Heap × Heap)}
    (course : Course heap log last) (sound : heap.Sound) (bounded : last.handles.slots < 2 ^ 32) :
    last.Fitted := by
  have alike := course.alike sound bounded
  have config := (course.settings sound bounded).1
  constructor
  · rw [config, alike.granularity, fitted.granularity]
  · rw [config, alike.limit, fitted.limit]

theorem Reachable.fitted {heap : Heap} (reachable : heap.Reachable) : heap.Fitted := by
  induction reachable with
  | created created => exact fitted_new created
  | after reachable offered small ih =>
      obtain ⟨log, course⟩ := offered.tame.course _ reachable.sound small
      exact ih.of_course course reachable.sound small

/-- On the way from a reachable heap the allocator keeps its bounds. -/
theorem Reachable.fitted_underway {heap start : Heap} (reachable : heap.Reachable)
    (underway : heap.Underway start) : start.Fitted := by
  obtain ⟨⟨log, course⟩, small⟩ := underway
  exact reachable.fitted.of_course course reachable.sound small

/-! ## Slabs that hold objects -/

/-- The allocator is solvent, and every slab holds an object. -/
structure Provisioned (heap : Heap) : Prop where
  solvent : heap.allocator.Solvent
  peopled : heap.space.Peopled

theorem provisioned_new {system : MemorySystem} {config : Config} {heap : Heap}
    (created : Heap.new system config = .ok heap) (bounded : config.maxHeapBytes < 2 ^ 63) :
    heap.Provisioned := by
  obtain ⟨_, rfl⟩ := new_eq_ok_iff.mp created
  exact ⟨SlabAllocator.Solvent.new _ _ _ bounded, fun _ member => absurd member List.not_mem_nil⟩

/-- Objects may change as long as they stay where they are. -/
theorem Provisioned.modify {heap : Heap} (provisioned : heap.Provisioned) (address : Address)
    {f : HeapObject → HeapObject} (keeps : ∀ object, (f object).layout = object.layout) :
    Provisioned { heap with space := heap.space.modify address f } :=
  ⟨provisioned.solvent,
    provisioned.peopled.congr (Space.slabs_modify _ _ _) (Space.footprint?_modify _ _ keeps)⟩

/-- While survivors are moved the allocator stays solvent, and every slab of the new space holds a
copy, whether all of them can be moved or not. -/
theorem Provisioned.moveAll {heap : Heap} (provisioned : heap.Provisioned) (sound : heap.Sound)
    {result : Except HeapError Unit} {relocation : Relocation}
    (ran : (Relocation.begin heap.allocator heap.mark.space).moveAll heap.mark.live.toList =
      (result, relocation)) :
    relocation.allocator.Solvent ∧ relocation.target.Peopled := by
  have throughout := sound.moveAll_induction
    (motive := fun _ relocation => relocation.allocator.Solvent ∧ relocation.target.Peopled)
    ⟨provisioned.solvent, fun _ member => absurd member List.not_mem_nil⟩ (by
      rintro relocation moved address object sofar _ ⟨solvent, peopled⟩ next moves
      cases moves with
      | bumped slabs bumps =>
          exact ⟨solvent, peopled.add (Space.houses_bumped slabs bumps) rfl rfl _⟩
      | @extended slab _ _ issue _ =>
          exact ⟨solvent.of_acquire sofar.accounts issue,
            peopled.add (Space.houses_join _ _ { slab with top := object.layout.size } 0)
              rfl rfl _⟩)
  cases result with
  | ok value => exact throughout.1 relocation ran
  | error error =>
      obtain ⟨_, _, sofar, ⟨solvent, peopled⟩, moves⟩ := throughout.2 error relocation ran
      cases moves with
      | refused _ issue => exact ⟨solvent.of_acquire sofar.accounts issue, peopled⟩

/-- A completed collection leaves the heap provisioned. -/
theorem Provisioned.collected {start finish : Heap} (provisioned : start.Provisioned)
    (sound : start.Sound) (ran : start.collectNow = (.ok (), finish)) : finish.Provisioned := by
  obtain ⟨relocation, fixed, updated, completes⟩ := completes_of_ok ran
  obtain ⟨solvent, peopled⟩ := provisioned.moveAll sound completes.moved
  constructor
  · rw [completes.allocator]
    exact solvent.releaseAll _
  · exact peopled.congr completes.slabs completes.footprint?

/-- A collection that is taken back leaves the heap provisioned. -/
theorem Provisioned.abandoned {heap next : Heap} (provisioned : heap.Provisioned)
    (sound : heap.Sound) {error : HeapError} (ran : heap.collectNow = (.error error, next)) :
    next.Provisioned := by
  obtain ⟨relocation, moves, rfl⟩ := sound.fails_of_error ran
  obtain ⟨solvent, _⟩ := provisioned.moveAll sound moves
  exact ⟨solvent.releaseAll _, provisioned.peopled⟩

/-- A quiet step leaves a heap provisioned. -/
theorem Quiet.provisioned {heap next : Heap} (quiet : Quiet heap next) (sound : heap.Sound)
    (bounded : next.handles.slots < 2 ^ 32) (provisioned : heap.Provisioned) :
    next.Provisioned := by
  cases quiet with
  | @allocated descriptor extra layout laidOut place roomy _ handle finds ran =>
      obtain ⟨_, settles⟩ := sound.allocated finds ran bounded
      have found := sound.findsRoom laidOut finds
      obtain ⟨_, solvent, houses⟩ := sound.houses laidOut finds
      rw [settles.rest, found.rest]
      exact ⟨solvent provisioned.solvent,
        provisioned.peopled.add houses found.room.number found.room.residents _⟩
  | refused laidOut ran =>
      obtain ⟨allocator, rfl, _, solvent⟩ := sound.refused laidOut ran
      exact ⟨solvent provisioned.solvent, provisioned.peopled⟩
  | abandoned ran => exact provisioned.abandoned sound ran
  | @slotsWritten address writes _ =>
      apply provisioned.modify
      intro object
      obtain ⟨_, _, written⟩ := foldl_setSlot_eq object writes
      rw [written]
  | wordWritten _ _ => exact provisioned.modify _ fun _ => rfl
  | tailWritten address bytes =>
      apply provisioned.modify
      intro object
      unfold Object.setTail
      split <;> rfl
  | _ => exact ⟨provisioned.solvent, provisioned.peopled⟩

/-- Throughout a course a heap stays provisioned. -/
theorem Course.provisioned {heap last : Heap} {log : List (Heap × Heap)}
    (course : Course heap log last) (sound : heap.Sound)
    (bounded : last.handles.slots < 2 ^ 32) (provisioned : heap.Provisioned) :
    last.Provisioned := by
  induction course with
  | done heap => exact provisioned
  | quiet step rest ih =>
      have small := Nat.lt_of_le_of_lt rest.slots_le bounded
      exact ih (step.calm sound small).sound bounded (step.provisioned sound small provisioned)
  | collected ran rest ih =>
      obtain ⟨live, compacts⟩ := sound.compacts ran
      exact ih (compacts.sound sound) bounded (provisioned.collected sound ran)

/-- A reachable heap whose limit lies below `2 ^ 63` is provisioned. -/
theorem Reachable.provisioned {heap : Heap} (reachable : heap.Reachable)
    (bounded : heap.config.maxHeapBytes < 2 ^ 63) : heap.Provisioned := by
  induction reachable with
  | @created system config heap created =>
      apply provisioned_new created
      obtain ⟨_, rfl⟩ := new_eq_ok_iff.mp created
      exact bounded
  | @after _ operation heap reachable offered small ih =>
      obtain ⟨log, course⟩ := offered.tame.course _ reachable.sound small
      rw [(course.settings reachable.sound small).1] at bounded
      exact course.provisioned reachable.sound small (ih bounded)

/-- The ledger of a reachable heap is balanced. -/
theorem Reachable.balanced {heap : Heap} (reachable : heap.Reachable) : heap.Balanced := by
  induction reachable with
  | created created => exact balanced_new created
  | after reachable offered small ih =>
      exact (offered.tame.follows _ reachable.sound small).balanced ih

end Heap

end CompactingHeap
