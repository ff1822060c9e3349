import CompactingHeap.Proofs.Lists

/-!
# Making and growing arrays

To make an array takes two allocations, one for the array and one for its backing run, and to let
it grow takes one.  Each of them may collect.  The array is held meanwhile, so all that can go
wrong is that memory runs out.  What has been made is new, and nothing that was there refers to it.
-/

namespace CompactingHeap

open Heap

namespace Heap

/-! ## Short runs -/

/-- Holding objects takes no collection. -/
theorem Sound.collections_withHeld {heap : Heap} (sound : heap.Sound) {α : Type}
    (handles : List Handle) {body : HeapM α} {few : Nat}
    (within : ∀ held : Heap, held.Sound → (body.run held).2.handles.slots < 2 ^ 32 →
      (body.run held).2.counters.collections ≤ held.counters.collections + few)
    (bounded : ((withHeld handles body).run heap).2.handles.slots < 2 ^ 32) :
    ((withHeld handles body).run heap).2.counters.collections ≤
      heap.counters.collections + few := by
  have holding := sound.run_withHeld handles body bounded
  generalize (withHeld handles body).run heap = result at holding
  have same {first second : Heap} (recounts : first.Recounts second) :
      second.counters.collections = first.counters.collections := by rw [recounts.rest]
  cases holding with
  | unheld _ _ recounts =>
      dsimp only
      rw [same recounts]
      exact Nat.le_add_right _ _
  | @ran held after next result taken runs small _ drops _ =>
      have count := within held taken.sound (by rw [runs]; exact small)
      rw [runs, same taken.adds.recounts] at count
      dsimp only
      rw [same drops.recounts]
      exact count
  | @unreleased held after next result error taken runs small recounts _ =>
      have count := within held taken.sound (by rw [runs]; exact small)
      rw [runs, same taken.adds.recounts] at count
      dsimp only
      rw [same recounts]
      exact count

/-- A program that succeeds while objects are held has run, and the objects are live. -/
theorem Sound.withHeld_ok {heap next : Heap} (sound : heap.Sound) {α : Type}
    {handles : List Handle} {body : HeapM α} {value : α}
    (ran : (withHeld handles body).run heap = (.ok value, next))
    (bounded : next.handles.slots < 2 ^ 32) :
    ∃ held after, heap.Held held handles ∧ body.run held = (.ok value, after) ∧
      after.handles.slots < 2 ^ 32 ∧ (∀ handle ∈ handles, after.isLive handle = true) ∧
      after.Holds next fun other count => count - after.charge handles other := by
  have holding := sound.run_withHeld handles body (by rw [ran]; exact bounded)
  rw [ran] at holding
  cases holding with
  | @ran held after _ _ taken runs small live drops _ =>
      exact ⟨held, after, taken, runs, small, live, drops⟩

/-- What is new in the second part of a run with few collections was not live at its start. -/
theorem Sound.not_isLive_of_course {heap middle next : Heap} (sound : heap.Sound)
    {log later : List (Heap × Heap)} (before : Course heap log middle)
    (after : Course middle later next) (bounded : next.handles.slots < 2 ^ 32)
    (few : next.counters.collections < heap.counters.collections + 2 ^ 32) {handle : Handle}
    (new : middle.isLive handle = false) (live : next.isLive handle = true) :
    heap.isLive handle = false := by
  rw [← Bool.not_eq_true]
  intro alive
  have lasting : heap.Lasting next [handle] :=
    lasting_of_isLive sound bounded few (by simpa using alive) (by simpa using live)
  have still := (lasting.left after).isLive before sound
    (Nat.lt_of_le_of_lt after.slots_le bounded) List.mem_cons_self alive
  rw [new] at still
  cases still

/-- Only the counts of the listed objects can come to their bound. -/
theorem holdable_of_listed {heap : Heap} {handles : List Handle}
    (room : ∀ handle ∈ handles, ∃ count, heap.holds handle = .ok count ∧
      count.toNat + handles.count handle < 2 ^ 32) : heap.Holdable handles := by
  intro other count counted
  by_cases listed : other ∈ handles
  · obtain ⟨known, held, small⟩ := room other listed
    rw [counted] at held
    cases held
    exact small
  · rw [List.count_eq_zero_of_not_mem listed]
    exact count.toNat_lt

/-- An object that is held once can be held once more. -/
theorem holdable_singleton {heap : Heap} {handle : Handle} (held : heap.holds handle = .ok 1) :
    heap.Holdable [handle] := by
  apply holdable_of_listed
  intro other listed
  cases List.mem_singleton.mp listed
  refine ⟨1, held, ?_⟩
  rw [List.count_singleton_self]
  decide

/-- A run under holds ends where the holds are given back. -/
theorem Held.ended {heap held after : Heap} {handles : List Handle}
    (holding : heap.Held held handles) {α : Type} {body : HeapM α} {result : Except HeapError α}
    (runs : body.run held = (result, after)) :
    ((withHeld handles body).run heap).2 = ((releaseAll handles).run after).2 := by
  unfold withHeld
  rw [HeapM.run_bind, holding.took]
  dsimp only
  rw [HeapM.run_bind, HeapM.run_attempt, runs]
  cases result
  all_goals
    dsimp only
    rw [HeapM.run_bind]
    rcases (releaseAll handles).run after with ⟨_ | _, _⟩ <;> rfl

/-- What is assumed of a run under holds can be assumed of the program that runs. -/
theorem Held.assured {heap held after : Heap} {handles roots : List Handle}
    (holding : heap.Held held handles) {α : Type} {body : HeapM α} (tame : Tame body)
    (assured : heap.Assured ((withHeld handles body).run heap).2 roots)
    {result : Except HeapError α} (runs : body.run held = (result, after)) :
    held.Assured after roots := by
  rw [holding.ended runs] at assured
  have bounded : after.handles.slots < 2 ^ 32 := by
    rw [← (recounts_releaseAll handles after).slots]
    exact assured.bounded
  have afterSound := tame.sound holding.sound
  rw [runs] at afterSound
  have before := (tame_retainAfter [] handles).course heap assured.sound
  have took : (retainAfter [] handles).run heap = (.ok (), held) := holding.took
  rw [took] at before
  obtain ⟨log, begins⟩ := before holding.sound.bounded
  obtain ⟨later, ends⟩ :=
    (tame_releaseAll handles).course after (afterSound bounded) assured.bounded
  refine ⟨holding.sound, ?_, bounded, (assured.lasting.right begins).left ends⟩
  rw [holding.adds.recounts.rest]
  exact assured.numbered

/-! ## What is held -/

/-- Only strings are interned. -/
theorem isInterned_of_classOf {heap : Heap} {handle : Handle} {id : ClassId}
    (known : heap.classOf handle = .ok id) (other : id ≠ .string) :
    heap.isInterned handle = false := by
  unfold Heap.classOf at known
  unfold Heap.isInterned Heap.string expect
  cases found : heap.objectOf handle with
  | error error => rfl
  | ok object =>
      rw [found] at known
      have different : object.descriptor.id ≠ .string := by
        intro same
        exact other ((Except.ok.inj known).symm.trans same)
      dsimp only [bind, Except.bind]
      rw [if_neg different]
      cases heap.classes.get .string <;> rfl

/-- What is still live stays a canonical string or none, if no string is written. -/
theorem Leaves.isInterned {heap next : Heap} {new altered : List Handle}
    (leaves : heap.Leaves next new altered) {handle : Handle} (old : handle ∉ new)
    (live : ∃ view, next.view? handle = some view)
    (plain : handle ∈ altered → ∃ id, id ≠ ClassId.string ∧ heap.classOf handle = .ok id ∧
      next.classOf handle = .ok id) :
    next.isInterned handle = heap.isInterned handle := by
  by_cases written : handle ∈ altered
  · obtain ⟨id, other, before, after⟩ := plain written
    rw [isInterned_of_classOf before other, isInterned_of_classOf after other]
  · obtain ⟨view, seen⟩ := live
    have before := (leaves.views handle old written (isLive_of_view seen)).symm.trans seen
    exact isInterned_of_view before seen leaves.classes leaves.interner

/-- The object is held or a canonical string, so that no collection takes it. -/
def Grasped (heap : Heap) (handle : Handle) : Prop :=
  heap.isInterned handle = true ∨ ∃ count, heap.holds handle = .ok count ∧ 0 < count

theorem Grasped.kept {heap : Heap} {handle : Handle} (grasped : heap.Grasped handle) :
    heap.Kept handle := by
  rcases grasped with interned | ⟨count, counted, positive⟩
  · obtain ⟨bytes, known⟩ := lookupInterned_of_isInterned interned
    exact Kept.interned known
  · exact Kept.held counted positive

/-- What is held while a program runs is grasped. -/
theorem Held.grasped {heap held : Heap} {handles : List Handle} (holding : heap.Held held handles)
    (room : heap.Holdable handles) : ∀ handle ∈ handles, held.Grasped handle := by
  intro handle member
  by_cases interned : held.isInterned handle = true
  · exact Or.inl interned
  · right
    rw [holding.adds.recounts.isInterned] at interned
    rcases HandleTable.isLive_iff.mp (holding.live handle member) with ⟨address, holds, found⟩
    have counted := holds_of_find found
    have sum := (heap.toNat_add_charge handles (room handle holds counted)).2
      (Bool.eq_false_iff.mpr interned)
    have listedOnce : 0 < handles.count handle := List.count_pos_iff.mpr member
    refine ⟨holds + heap.charge handles handle, ?_, ?_⟩
    · rw [holding.adds.holds, counted]
      rfl
    · rw [UInt32.lt_iff_toNat_lt, sum]
      exact Nat.lt_of_lt_of_le listedOnce (Nat.le_add_left _ _)

/-- What is not listed is not held any more than before. -/
theorem Held.holds_unlisted {heap held : Heap} {handles : List Handle}
    (holding : heap.Held held handles) {handle : Handle} (unlisted : handle ∉ handles) :
    held.holds handle = heap.holds handle := by
  apply holding.adds.of_neutral
  intro count
  rw [heap.charge_of_not_mem unlisted, UInt32.add_zero]

/-- What is not listed is held as before when holds are given back. -/
theorem Holds.holds_unlisted {heap next : Heap} {handles : List Handle}
    (drops : heap.Holds next fun other count => count - heap.charge handles other) {handle : Handle}
    (unlisted : handle ∉ handles) : next.holds handle = heap.holds handle := by
  apply drops.of_neutral
  intro count
  rw [heap.charge_of_not_mem unlisted, UInt32.sub_zero]

/-- What is grasped before objects are held is grasped while they are. -/
theorem Held.grasped_of_grasped {heap held : Heap} {handles : List Handle}
    (holding : heap.Held held handles) (room : heap.Holdable handles) {handle : Handle}
    (grasped : heap.Grasped handle) : held.Grasped handle := by
  by_cases listed : handle ∈ handles
  · exact holding.grasped room handle listed
  · unfold Grasped
    rw [holding.adds.recounts.isInterned, holding.holds_unlisted listed]
    exact grasped

/-- What a program does not touch is held as before when the holds have been given back. -/
theorem Held.restored {heap held after next : Heap} {handles : List Handle}
    (holding : heap.Held held handles)
    (drops : after.Holds next fun other count => count - after.charge handles other)
    {handle : Handle} (interned : after.isInterned handle = held.isInterned handle)
    (holds : after.holds handle = held.holds handle) : next.holds handle = heap.holds handle := by
  have charge : after.charge handles handle = heap.charge handles handle := by
    unfold Heap.charge
    rw [interned, holding.adds.recounts.isInterned]
  rw [drops.holds, holds, holding.adds.holds, charge]
  cases heap.holds handle with
  | error error => rfl
  | ok count => exact congrArg Except.ok (UInt32.add_sub_cancel _ _)

/-- Only live objects have their holds counted. -/
theorem isLive_of_holds {heap : Heap} {handle : Handle} {count : UInt32}
    (counted : heap.holds handle = .ok count) : heap.isLive handle = true := by
  unfold Heap.holds HandleTable.holds at counted
  cases found : heap.handles.find handle with
  | error error =>
      rw [found] at counted
      cases counted
  | ok occupant => exact HandleTable.isLive_iff.mpr ⟨_, _, found⟩

/-- The object is not held, or there is none. -/
def Unheld (heap : Heap) (handle : Handle) : Prop :=
  ∀ count, heap.holds handle = .ok count → count = 0

/-- What is not live is not held. -/
theorem unheld_of_stale {heap : Heap} {handle : Handle} (stale : heap.isLive handle = false) :
    heap.Unheld handle := by
  intro count counted
  rw [isLive_of_holds counted] at stale
  cases stale

/-- Apart from the exceptions, what is grasped is live and held as before, and what is not held
does not become so.  The registrations are as before. -/
structure Steady (heap next : Heap) (except : List Handle) : Prop where
  grasped : ∀ handle, handle ∉ except → heap.Grasped handle →
    next.isLive handle = true ∧ next.isInterned handle = heap.isInterned handle ∧
      next.holds handle = heap.holds handle
  unheld : ∀ handle, handle ∉ except → heap.Unheld handle → next.Unheld handle
  roots : next.roots = heap.roots

theorem Steady.refl {heap : Heap} (sound : heap.Sound) : heap.Steady heap [] :=
  ⟨fun _ _ grasped => ⟨sound.isLive_of_kept grasped.kept, rfl, rfl⟩, fun _ _ => id, rfl⟩

/-- An object that is held once is held once after a steady run. -/
theorem Steady.held_once {heap next : Heap} {except : List Handle}
    (steady : heap.Steady next except) {handle : Handle} (unlisted : handle ∉ except)
    (held : heap.holds handle = .ok 1) :
    next.isLive handle = true ∧ next.isInterned handle = heap.isInterned handle ∧
      next.holds handle = .ok 1 := by
  obtain ⟨live, interned, holds⟩ := steady.grasped handle unlisted (Or.inr ⟨1, held, by decide⟩)
  exact ⟨live, interned, holds.trans held⟩

theorem Steady.trans {heap middle next : Heap} {except : List Handle}
    (first : heap.Steady middle except) (second : middle.Steady next except) :
    heap.Steady next except where
  grasped handle unlisted grasped := by
    obtain ⟨_, interned, holds⟩ := first.grasped handle unlisted grasped
    have still : middle.Grasped handle := by
      unfold Grasped
      rw [interned, holds]
      exact grasped
    obtain ⟨live, internedToo, holdsToo⟩ := second.grasped handle unlisted still
    exact ⟨live, internedToo.trans interned, holdsToo.trans holds⟩
  unheld handle unlisted unheld :=
    second.unheld handle unlisted (first.unheld handle unlisted unheld)
  roots := second.roots.trans first.roots

theorem Steady.mono {heap next : Heap} {except more : List Handle}
    (steady : heap.Steady next except) (within : except ⊆ more) : heap.Steady next more :=
  ⟨fun handle unlisted => steady.grasped handle fun member => unlisted (within member),
    fun handle unlisted => steady.unheld handle fun member => unlisted (within member),
    steady.roots⟩

/-- What is new and not held is no exception. -/
theorem Steady.settle {heap next : Heap} {except : List Handle} (steady : heap.Steady next except)
    (sound : heap.Sound)
    (new : ∀ handle ∈ except, heap.isLive handle = false ∧ next.Unheld handle) :
    heap.Steady next [] where
  grasped handle _ grasped := by
    apply steady.grasped handle _ grasped
    exact not_mem_of_new (sound.isLive_of_kept grasped.kept) fun other member =>
      (new other member).1
  unheld handle _ unheld := by
    by_cases member : handle ∈ except
    · exact (new handle member).2
    · exact steady.unheld handle member unheld
  roots := steady.roots

/-- A live object that is grasped when a steady run starts, or lasts, is live when the run ends. -/
theorem Assured.isLive_of_steady {heap next : Heap} {handle : Handle} {roots except : List Handle}
    {α : Type} {program : HeapM α} {result : Except HeapError α}
    (assured : heap.Assured next roots) (tame : Tame program)
    (ran : program.run heap = (result, next)) (live : heap.isLive handle = true)
    (stays : heap.Grasped handle ∨ handle ∈ roots) (steady : heap.Steady next except)
    (new : ∀ other ∈ except, heap.isLive other = false) : next.isLive handle = true := by
  rcases stays with grasped | listed
  · exact (steady.grasped handle (not_mem_of_new live new) grasped).1
  · rw [show next = (program.run heap).2 by rw [ran]] at assured ⊢
    exact assured.isLive tame listed live

/-- Such an object lasts over the run if that takes few collections. -/
theorem Assured.lasting_of_steady {heap next : Heap} {handle : Handle} {roots except : List Handle}
    {α : Type} {program : HeapM α} {result : Except HeapError α}
    (assured : heap.Assured next roots) (tame : Tame program)
    (ran : program.run heap = (result, next)) (live : heap.isLive handle = true)
    (stays : heap.Grasped handle ∨ handle ∈ roots) (steady : heap.Steady next except)
    (new : ∀ other ∈ except, heap.isLive other = false)
    (few : next.counters.collections < heap.counters.collections + 2 ^ 32) :
    heap.Assured next [handle] := by
  have still := assured.isLive_of_steady tame ran live stays steady new
  refine ⟨assured.sound, assured.numbered, assured.bounded, ?_⟩
  exact lasting_of_isLive assured.sound assured.bounded few (by simpa using live)
    (by simpa using still)

/-- An allocation is steady apart from the new object. -/
theorem Retains.steady {heap next : Heap} {new : Option Handle} (retains : heap.Retains next new)
    (sound : heap.Sound) (nextSound : next.Sound)
    (fresh : ∀ handle, some handle = new → heap.isLive handle = false) :
    heap.Steady next new.toList where
  grasped handle _ grasped := by
    have live := retains.kept handle grasped.kept
    have old : some handle ≠ new := fun same =>
      ne_of_new (sound.isLive_of_kept grasped.kept) (fresh handle same) rfl
    obtain ⟨view, seen⟩ := nextSound.isLive_iff.mp live
    have before := (retains.view handle old live).symm.trans seen
    exact ⟨live, isInterned_of_view before seen retains.classes retains.interner,
      retains.holds handle old live⟩
  unheld handle unlisted unheld := by
    intro count counted
    apply unheld count
    rw [← retains.holds handle _ (isLive_of_holds counted)]
    · exact counted
    · exact fun same => unlisted (Option.mem_toList.mpr same.symm)
  roots := retains.roots

/-- Writes and the release of one object are steady, apart from that object. -/
theorem Leaves.steady {heap next : Heap} {altered except : List Handle}
    (leaves : heap.Leaves next [] altered) (sound : heap.Sound) (nextSound : next.Sound)
    (live : ∀ handle, next.isLive handle = heap.isLive handle)
    (holds : ∀ handle, handle ∉ except → next.holds handle = heap.holds handle)
    (plain : ∀ handle ∈ altered, ∃ id, id ≠ ClassId.string ∧ heap.classOf handle = .ok id ∧
      next.classOf handle = .ok id)
    (roots : next.roots = heap.roots) : heap.Steady next except where
  grasped handle unlisted grasped := by
    have alive : next.isLive handle = true := by
      rw [live]
      exact sound.isLive_of_kept grasped.kept
    exact ⟨alive, leaves.isInterned List.not_mem_nil (nextSound.isLive_iff.mp alive) (plain handle),
      holds handle unlisted⟩
  unheld handle unlisted unheld := by
    unfold Unheld
    rw [holds handle unlisted]
    exact unheld
  roots := roots

/-- Writes of objects that are no strings are steady. -/
theorem Alters.steady {heap next : Heap} {altered : List Handle} (alters : heap.Alters next altered)
    (sound : heap.Sound)
    (plain : ∀ handle ∈ altered, ∃ id, id ≠ ClassId.string ∧ heap.classOf handle = .ok id ∧
      next.classOf handle = .ok id) : heap.Steady next [] :=
  alters.leaves.steady sound (alters.sound sound) alters.isLive (fun other _ => alters.holds other)
    plain (by rw [alters.rest])

/-- One object is held by nothing any longer, and everything else is steady. -/
structure GivesUp (heap next : Heap) (handle : Handle) : Prop where
  steady : heap.Steady next [handle]
  unheld : next.Unheld handle

theorem Steady.givesUp {heap middle next : Heap} {handle : Handle}
    (steady : heap.Steady middle []) (givesUp : middle.GivesUp next handle) :
    heap.GivesUp next handle :=
  ⟨(steady.mono (List.nil_subset [handle])).trans givesUp.steady, givesUp.unheld⟩

theorem GivesUp.trans {heap middle next : Heap} {handle : Handle}
    (givesUp : heap.GivesUp middle handle) (steady : middle.Steady next []) :
    heap.GivesUp next handle :=
  ⟨givesUp.steady.trans (steady.mono (List.nil_subset [handle])),
    steady.unheld handle List.not_mem_nil givesUp.unheld⟩

/-- An object that comes in new and is given up leaves everything steady. -/
theorem GivesUp.settle {heap middle next : Heap} {handle : Handle}
    (givesUp : middle.GivesUp next handle) (before : heap.Steady middle [handle])
    (sound : heap.Sound) (new : heap.isLive handle = false) : heap.Steady next [] :=
  (before.trans givesUp.steady).settle sound (by simpa using ⟨new, givesUp.unheld⟩)

/-- An object that is held once, and is no canonical string, can be given up. -/
theorem Sound.exists_release {heap : Heap} (sound : heap.Sound) {handle : Handle}
    (plain : heap.isInterned handle = false) (held : heap.holds handle = .ok 1) :
    ∃ next, (Heap.release handle).run heap = (.ok (), next) ∧ next.Sound ∧ heap.Recounts next ∧
      heap.GivesUp next handle := by
  rcases run_release heap handle with ⟨_, next, ran, drops⟩ | ⟨_, unheld, _⟩
  · have still := (tame_release handle).sound sound
    rw [ran] at still
    have nextSound := still (by rw [drops.recounts.slots]; exact sound.bounded)
    have recounts := drops.recounts
    refine ⟨next, ran, nextSound, recounts, ?_, ?_⟩
    · exact recounts.leaves.steady sound nextSound recounts.isLive
        (fun other different => drops.holds_unlisted different) (by simp) (by rw [recounts.rest])
    · intro count counted
      rw [drops.holds, held, Except.map, charge_self plain] at counted
      cases counted
      rfl
  · exact absurd (unheld 1 held) (by decide)

/-- While a program runs that is steady apart from what it makes, live objects can be held and
given back.  The whole is as steady. -/
theorem Sound.withHeld_steady {α : Type} {heap : Heap} (sound : heap.Sound)
    {handles : List Handle} {body : HeapM α} (made : Except HeapError α → List Handle)
    (live : ∀ handle ∈ handles, heap.isLive handle = true) (room : heap.Holdable handles)
    (bounded : ((withHeld handles body).run heap).2.handles.slots < 2 ^ 32)
    (steady : ∀ held result after, heap.Held held handles → body.run held = (result, after) →
      after.handles.slots < 2 ^ 32 → held.Steady after (made result) ∧
        ∀ handle ∈ made result, held.isLive handle = false) :
    ∃ held after next result, heap.Held held handles ∧ body.run held = (result, after) ∧
      (withHeld handles body).run heap = (result, next) ∧
      (after.Holds next fun other count => count - after.charge handles other) ∧
      heap.Steady next (made result) := by
  obtain ⟨held, after, next, result, holding, runs, small, ran, drops⟩ :=
    sound.withHeld_of_steady live room bounded (by
      intro held result after holding runs small handle member
      obtain ⟨during, new⟩ := steady held result after holding runs small
      have alive : held.isLive handle = true :=
        (holding.adds.recounts.isLive handle).trans (live handle member)
      exact (during.grasped handle (not_mem_of_new alive new)
        (holding.grasped room handle member)).2)
  obtain ⟨during, _⟩ := steady held result after holding runs small
  have touchless (handle : Handle) (unlisted : handle ∉ made result)
      (grasped : held.Grasped handle) :
      next.isLive handle = true ∧ next.isInterned handle = heap.isInterned handle ∧
        next.holds handle = heap.holds handle := by
    obtain ⟨alive, interned, holds⟩ := during.grasped handle unlisted grasped
    rw [drops.recounts.isLive, drops.recounts.isInterned, interned,
      holding.adds.recounts.isInterned]
    exact ⟨alive, rfl, holding.restored drops interned holds⟩
  refine ⟨held, after, next, result, holding, runs, ran, drops, ?_, ?_, ?_⟩
  · intro handle unlisted grasped
    exact touchless handle unlisted (holding.grasped_of_grasped room grasped)
  · intro handle unlisted unheld
    by_cases listed : handle ∈ handles
    · have restored := (touchless handle unlisted (holding.grasped room handle listed)).2.2
      unfold Unheld
      rw [restored]
      exact unheld
    · have before : held.Unheld handle := by
        unfold Unheld
        rw [holding.holds_unlisted listed]
        exact unheld
      unfold Unheld
      rw [drops.holds_unlisted listed]
      exact during.unheld handle unlisted before
  · rw [drops.recounts.rest]
    refine during.roots.trans ?_
    rw [holding.adds.recounts.rest]

section

variable {α : Type} {heap next : Heap} (sound : heap.Sound) {handles : List Handle} {body : HeapM α}
  (live : ∀ handle ∈ handles, heap.isLive handle = true)
  (bounded : ((withHeld handles body).run heap).2.handles.slots < 2 ^ 32)
  (steady : ∀ held result after, heap.Held held handles → body.run held = (result, after) →
    held.Steady after [])

include sound live bounded steady

/-- A steady program is steady while objects are held. -/
theorem Sound.steady_withHeld (room : heap.Holdable handles) {outcome : Except HeapError α}
    (ran : (withHeld handles body).run heap = (outcome, next)) : heap.Steady next [] := by
  obtain ⟨_, _, _, _, _, _, same, _, whole⟩ :=
    sound.withHeld_steady (fun _ => []) live room bounded
      fun held result after holding runs _ => ⟨steady held result after holding runs, by simp⟩
  rw [ran] at same
  cases same
  exact whole

/-- If a hold cannot be given back after a steady program that fails for want of memory only, then
a count has come to its bound. -/
theorem Sound.not_holdable_of_unreleased
    (memory : ∀ held error after, heap.Held held handles → body.run held = (.error error, after) →
      error.IsOutOfMemory)
    {error : HeapError} (ran : (withHeld handles body).run heap = (.error error, next))
    {after : Heap} (failed : (releaseAll handles).run after = (.error error, next)) :
    ¬ heap.Holdable handles := by
  intro room
  obtain ⟨_, _, _, _, holding, runs, same, _⟩ :=
    sound.withHeld_steady (fun _ => []) live room bounded
      fun held result after holding runs _ => ⟨steady held result after holding runs, by simp⟩
  rw [ran] at same
  cases same
  exact releaseAll_memory failed (memory _ _ _ holding runs)

end

/-- What fails leaves everything steady, and what is new is out of sight. -/
structure Undone (heap next : Heap) : Prop where
  steady : heap.Steady next []
  leaves : ∃ new, (∀ handle ∈ new, next.isLive handle = true → heap.isLive handle = false) ∧
    heap.Leaves next new []

theorem Undone.refl {heap : Heap} (sound : heap.Sound) : heap.Undone heap :=
  ⟨Steady.refl sound, [], by simp, leaves_of_views rfl rfl rfl rfl rfl⟩

/-- An allocation that fails has undone everything. -/
theorem Retains.undone {heap next : Heap} (retains : heap.Retains next none) (sound : heap.Sound)
    (nextSound : next.Sound) : heap.Undone next :=
  ⟨retains.steady sound nextSound (by simp), [], by simp, retains.leaves (by simp)⟩

/-- Where all holds have been given back, everything is undone. -/
theorem Holds.undone {heap next : Heap} (same : heap.Holds next fun _ count => count)
    (sound : heap.Sound) (nextSound : next.Sound) : heap.Undone next :=
  ⟨same.recounts.leaves.steady sound nextSound same.recounts.isLive
    (fun _ _ => same.of_neutral fun _ => rfl) (by simp) (by rw [same.recounts.rest]),
    [], by simp, same.recounts.leaves⟩

/-- What a program undoes while objects are held is undone when the holds have been given back. -/
theorem Held.undone {heap held after next : Heap} {handles : List Handle}
    (holding : heap.Held held handles) (undone : held.Undone after) (recounts : after.Recounts next)
    (steady : heap.Steady next []) : heap.Undone next := by
  obtain ⟨new, fresh, leaves⟩ := undone.leaves
  have before := holding.adds.recounts
  refine ⟨steady, new, ?_, by simpa using (before.leaves.trans leaves).trans recounts.leaves⟩
  intro handle member live
  rw [recounts.isLive] at live
  exact (before.isLive handle).symm.trans (fresh handle member live)

end Heap

namespace RefArray

section

variable {α : Type} {handle : Handle} {rest : HeapM α} {heap next : Heap}

theorem run_orRelease_ok {value : α} (ran : rest.run heap = (.ok value, next)) :
    (orRelease handle rest).run heap = (.ok value, next) := by
  unfold orRelease
  rw [HeapM.run_bind, HeapM.run_attempt, ran]
  rfl

/-- If the second half of a construction fails, the first half is released. -/
theorem run_orRelease_error {error : HeapError} {after : Heap}
    (ran : rest.run heap = (.error error, next))
    (released : (release handle).run next = (.ok (), after)) :
    (orRelease handle rest).run heap = (.error error, after) := by
  unfold orRelease
  rw [HeapM.run_bind, HeapM.run_attempt, ran]
  dsimp only
  rw [HeapM.run_bind, released]
  rfl

/-- A new array gets its backing run, if nothing on the way fails. -/
theorem run_furnish {array : RefArray} {capacity : Nat} {backing : Handle} {first second : Heap}
    (wrote : (writeWord array.handle capacityOffset capacity.toUInt64).run heap = (.ok ⟨⟩, first))
    (stored : (writeRef array.handle backingOffset (some backing)).run first = (.ok ⟨⟩, second))
    (released : (release backing).run second = (.ok (), next)) :
    (array.furnish capacity backing).run heap = (.ok array, next) := by
  unfold furnish adopt
  rw [HeapM.run_bind, wrote]
  dsimp only
  rw [HeapM.run_bind, HeapM.run_bind, stored]
  dsimp only
  rw [released]
  rfl

/-- An array gets another run, if nothing on the way fails, and that is counted. -/
theorem run_install {array : RefArray} {capacity : UInt64} {grown : Handle} {first second : Heap}
    (stored : (writeRef array.handle backingOffset (some grown)).run heap = (.ok ⟨⟩, first))
    (wrote : (writeWord array.handle capacityOffset capacity).run first = (.ok ⟨⟩, second))
    (released : (release grown).run second = (.ok (), next)) :
    (array.install capacity grown).run heap = (.ok ⟨⟩, { next with
      counters := { next.counters with
        arrayReallocations := next.counters.arrayReallocations + 1 } }) := by
  unfold install
  rw [HeapM.run_bind, stored]
  dsimp only
  rw [HeapM.run_bind, wrote]
  dsimp only
  rw [HeapM.run_bind, released]
  rfl

theorem slots_le_orRelease (handle : Handle) (rest : HeapM α) (heap : Heap) :
    (rest.run heap).2.handles.slots ≤ ((orRelease handle rest).run heap).2.handles.slots := by
  unfold orRelease
  rw [HeapM.run_bind, HeapM.run_attempt]
  dsimp only
  cases (rest.run heap).1 with
  | ok value => exact Nat.le_refl _
  | error error => exact ((tame_release handle).bind fun _ => Tame.throw error).grows _

end

end RefArray

namespace Heap

/-! ## Making -/

/-- A new array shows the list.  It is held once, and apart from it and its backing run everything
that is still live is as it was. -/
structure Made (heap next : Heap) (array : RefArray) (elements : List (Option Handle))
    (capacity : Nat) (storage : Option Handle) : Prop where
  sound : next.Sound
  new : ∀ handle ∈ Lists.parts array storage, heap.isLive handle = false
  lists : next.Lists array elements capacity storage
  leaves : heap.Leaves next (Lists.parts array storage) []
  held : next.holds array.handle = .ok 1
  steady : heap.Steady next [array.handle]
  few : next.counters.collections ≤ heap.counters.collections + 2

/-- Making an array succeeds, or memory runs out. -/
inductive Makes (heap : Heap) (elements : List (Option Handle)) (capacity : Nat) :
    Except HeapError RefArray × Heap → Prop
  | made {array : RefArray} {storage : Option Handle} {next : Heap} :
      heap.Made next array elements capacity storage →
        Makes heap elements capacity (.ok array, next)
  | refused {size limit : Nat} {next : Heap} :
      heap.Undone next → next.counters.collections ≤ heap.counters.collections + 2 →
        Makes heap elements capacity (.error (.outOfMemory size limit), next)

/-- A fresh array is empty and has no backing run. -/
theorem Allocates.record {heap next : Heap} {handle : Handle} {descriptor : Descriptor}
    {extra : UInt32} (isRecord : IsRecord descriptor)
    (allocates : heap.Allocates next (View.fresh descriptor extra) handle) :
    next.Record descriptor handle 0 0 none := by
  refine ⟨_, allocates.seen, rfl, ?_, ?_, rfl⟩
  · rcases isRecord with rfl | rfl <;> rfl
  · rcases isRecord with rfl | rfl <;> rfl

/-- A fresh run has absent elements. -/
theorem Allocates.runs {heap next : Heap} {handle : Handle} {length : Nat} (small : length < 2 ^ 32)
    (allocates : heap.Allocates next (View.fresh Registry.vectorClass length.toUInt32) handle) :
    next.Runs handle (List.replicate length none) := by
  refine ⟨_, allocates.seen, rfl, ?_⟩
  have word : length.toUInt32.toNat = length := by
    rw [Nat.toUInt32_eq, UInt32.toNat_ofNat']
    omega
  change List.replicate length.toUInt32.toNat none = _
  rw [word]

theorem Allocates.steady {heap next : Heap} {view : View} {handle : Handle}
    (allocates : heap.Allocates next view handle) (sound : heap.Sound) (nextSound : next.Sound) :
    heap.Steady next [handle] :=
  allocates.rest.steady sound nextSound (by
    rintro other same
    cases same
    exact allocates.new)

/-- What is new is left out of sight by an allocation. -/
theorem Allocates.leaves {heap next : Heap} {view : View} {handle : Handle}
    (allocates : heap.Allocates next view handle) : heap.Leaves next [handle] [] :=
  allocates.rest.leaves (by
    rintro other same
    cases same
    exact allocates.new)

section

variable {heap : Heap} {array : RefArray} {backing : Handle} {capacity : Nat}

/-- A new array gets its backing run. -/
theorem Sound.furnish (sound : heap.Sound) (small : capacity < 2 ^ 32) (filled : capacity ≠ 0)
    (record : heap.Record Registry.arrayClass array.handle 0 0 none)
    (runs : heap.Runs backing (List.replicate capacity none)) (held : heap.holds backing = .ok 1) :
    ∃ next, (array.furnish capacity backing).run heap = (.ok array, next) ∧ next.Sound ∧
      heap.Leaves next [] [array.handle] ∧ next.Lists array [] capacity (some backing) ∧
      heap.GivesUp next backing ∧ next.counters = heap.counters := by
  have apart := ne_of_classOf record.classOf runs.classOf (by decide)
  obtain ⟨first, wrote, alters, recordFirst⟩ :=
    record.writeSecond (Or.inl rfl) sound capacity.toUInt64
  have runsFirst := runs.congr (alters.views backing (by simp [Ne.symm apart]))
  have present : first.Present (some backing) := by
    rintro handle same
    cases same
    exact runsFirst.isLive
  obtain ⟨second, stored, altersToo, recordSecond⟩ :=
    recordFirst.writeStorage (Or.inl rfl) (alters.sound sound) present
  have runsSecond := runsFirst.congr (altersToo.views backing (by simp [Ne.symm apart]))
  have both := alters.trans altersToo
  have heldStill : second.holds backing = .ok 1 := (both.holds backing).trans held
  obtain ⟨next, released, nextSound, recounts, givesUp⟩ := (both.sound sound).exists_release
    (isInterned_of_classOf runsSecond.classOf (by decide)) heldStill
  refine ⟨next, RefArray.run_furnish wrote stored released, nextSound, ?_, ?_, ?_,
    by rw [recounts.rest, both.rest]⟩
  · exact (both.leaves.trans recounts.leaves).mono (by simp)
  · have same := recounts.view?
    refine ⟨recordSecond.congr (congrFun same _), small, Nat.zero_le _, ?_, ?_⟩
    · simp [filled]
    · rintro other here
      cases here
      exact runsSecond.congr (congrFun same _)
  · refine (both.steady sound ?_).givesUp givesUp
    intro handle member
    have same : handle = array.handle := by simpa using member
    exact ⟨.array, by decide, same ▸ record.classOf, same ▸ recordSecond.classOf⟩

end

/-- The allocation of a backing run for an object that is held succeeds, or memory runs out. -/
inductive Backs (heap : Heap) (handle : Handle) (capacity : Nat) :
    Except HeapError Handle × Heap → Prop
  | backed {backing : Handle} {next : Heap} :
      heap.Allocates next (View.fresh Registry.vectorClass capacity.toUInt32) backing →
        capacity < 2 ^ 32 → next.isLive handle = true →
        next.counters.collections ≤ heap.counters.collections + 1 →
        Backs heap handle capacity (.ok backing, next)
  | refused {size limit : Nat} {next : Heap} :
      heap.GivesUp next handle → heap.Leaves next [] [] →
        next.counters.collections ≤ heap.counters.collections + 1 →
        Backs heap handle capacity (.error (.outOfMemory size limit), next)

theorem Sound.backs {heap : Heap} (sound : heap.Sound) {handle : Handle}
    (plain : heap.isInterned handle = false) (held : heap.holds handle = .ok 1) (capacity : Nat)
    (bounded : ((RefArray.orRelease handle (withHeld [handle] (allocVector capacity))).run
      heap).2.handles.slots < 2 ^ 32) :
    heap.Backs handle capacity
      ((RefArray.orRelease handle (withHeld [handle] (allocVector capacity))).run heap) := by
  have small := Nat.lt_of_le_of_lt
    (RefArray.slots_le_orRelease handle (withHeld [handle] (allocVector capacity)) heap) bounded
  have known : heap.classes.get .vector = .ok Registry.vectorClass := sound.get_builtin rfl
  have room := holdable_singleton held
  obtain ⟨allocating, alive⟩ :=
    sound.allocating_held (by simpa using isLive_of_holds held) room known capacity small
  have brief : ((withHeld [handle] (allocVector capacity)).run heap).2.counters.collections ≤
      heap.counters.collections + 1 :=
    sound.collections_withHeld [handle]
      (fun other otherSound within => otherSound.collections_allocate within) small
  have ran : (withHeld [handle] (allocVector capacity)).run heap =
      (withHeld [handle] (allocate .vector capacity)).run heap := rfl
  rw [ran] at brief small
  rcases result : (withHeld [handle] (allocate .vector capacity)).run heap with
    ⟨error | backing, next⟩
  all_goals
    rw [result] at allocating alive brief small
    rw [result] at ran
    have still := alive handle List.mem_cons_self
    dsimp only at still small brief
  · cases allocating with
    | refused retains =>
        have different : some handle ≠ none := by simp
        have heldStill := (retains.holds handle different still).trans held
        have nextSound := (tame_withHeld [handle] (tame_allocate .vector capacity)).sound sound
        rw [result] at nextSound
        have undone := retains.undone sound (nextSound small)
        obtain ⟨_, interned, _⟩ := undone.steady.held_once List.not_mem_nil held
        obtain ⟨after, released, _, recounts, givesUp⟩ :=
          (nextSound small).exists_release (interned.trans plain) heldStill
        rw [RefArray.run_orRelease_error ran released]
        exact Backs.refused (undone.steady.givesUp givesUp)
          ((retains.leaves (by simp)).trans recounts.leaves) (by rw [recounts.rest]; exact brief)
  · cases allocating with
    | placed allocates =>
        obtain ⟨_, _, _, runs, _⟩ := sound.withHeld_ok result small
        rw [RefArray.run_orRelease_ok ran]
        exact Backs.backed allocates (small_of_allocate runs) still brief

/-- A new object and its backing run become an array. -/
theorem Allocates.made {heap middle after : Heap} {handle backing : Handle} {capacity : Nat}
    (sound : heap.Sound) (middleSound : middle.Sound) (afterSound : after.Sound)
    (allocates : heap.Allocates middle (View.fresh Registry.arrayClass 0) handle)
    (backed : middle.Allocates after (View.fresh Registry.vectorClass capacity.toUInt32) backing)
    (small : capacity < 2 ^ 32) (filled : capacity ≠ 0) (live : after.isLive handle = true)
    (fresh : heap.isLive backing = false)
    (few : after.counters.collections ≤ heap.counters.collections + 2) :
    ∃ next, (RefArray.furnish ⟨handle⟩ capacity backing).run after = (.ok ⟨handle⟩, next) ∧
      heap.Made next ⟨handle⟩ [] capacity (some backing) := by
  have record := allocates.record (Or.inl rfl)
  have apart := ne_of_new record.isLive backed.new
  have distinct : some handle ≠ some backing := fun same => apart (Option.some.inj same)
  have shown := record.congr (backed.rest.view handle distinct live)
  have heldStill := (backed.rest.holds handle distinct live).trans allocates.held
  obtain ⟨next, ran, nextSound, leaves, lists, givesUp, counters⟩ :=
    afterSound.furnish small filled shown (backed.runs small) backed.held
  obtain ⟨_, _, held⟩ := givesUp.steady.held_once (by simpa using apart) heldStill
  have begun := allocates.steady sound middleSound
  have ended := givesUp.settle (backed.steady middleSound afterSound) middleSound backed.new
  refine ⟨next, ran, nextSound, ?_, lists, ?_, held,
    begun.trans (ended.mono (List.nil_subset [handle])), by rw [counters]; exact few⟩
  · intro other listed
    rcases List.mem_cons.mp listed with rfl | listed
    · exact allocates.new
    · cases List.mem_singleton.mp listed
      exact fresh
  · have all := (allocates.leaves.trans backed.leaves).trans leaves
    exact all.settle (by simp)

/-- A new array without capacity needs no backing run. -/
theorem Allocates.unbacked {heap middle : Heap} {handle : Handle} (sound : heap.Sound)
    (middleSound : middle.Sound)
    (few : middle.counters.collections ≤ heap.counters.collections + 1)
    (allocates : heap.Allocates middle (View.fresh Registry.arrayClass 0) handle) :
    heap.Makes [] 0 (.ok ⟨handle⟩, middle) := by
  have record := allocates.record (Or.inl rfl)
  have parts : Lists.parts ⟨handle⟩ none = [handle] := rfl
  have new : ∀ other ∈ [handle], heap.isLive other = false := by
    simpa using allocates.new
  apply Makes.made
  exact ⟨middleSound, parts ▸ new, ⟨record, by decide, Nat.le_refl _, by simp, by simp⟩,
    allocates.leaves, allocates.held, allocates.steady sound middleSound, Nat.le_succ_of_le few⟩

/-- A new object gets a backing run, or memory runs out. -/
theorem Allocates.construct {heap middle : Heap} {handle : Handle} {capacity : Nat}
    (sound : heap.Sound) {log : List (Heap × Heap)} (course : Course heap log middle)
    (few : middle.counters.collections ≤ heap.counters.collections + 1)
    (allocates : heap.Allocates middle (View.fresh Registry.arrayClass 0) handle)
    (assured : middle.Assured ((RefArray.construct capacity handle).run middle).2 []) :
    heap.Makes [] capacity ((RefArray.construct capacity handle).run middle) := by
  have record := allocates.record (Or.inl rfl)
  have begun := allocates.steady sound assured.sound
  have plain := isInterned_of_classOf record.classOf (by decide)
  have new : ∀ other ∈ [handle], heap.isLive other = false := by
    simpa using allocates.new
  unfold RefArray.construct at assured ⊢
  by_cases empty : capacity = 0
  · subst empty
    rw [if_pos rfl]
    exact allocates.unbacked sound assured.sound few
  · rw [if_neg empty] at assured ⊢
    have tame : Tame (RefArray.orRelease handle (withHeld [handle] (allocVector capacity))) :=
      RefArray.tame_orRelease handle (tame_withHeld [handle] (tame_allocate .vector capacity))
    have stages := assured.stages tame (RefArray.tame_furnish ⟨handle⟩ capacity)
    have backs := assured.sound.backs plain allocates.held capacity
    have begins := tame.course middle assured.sound
    generalize (RefArray.orRelease handle (withHeld [handle] (allocVector capacity)) >>=
      RefArray.furnish ⟨handle⟩ capacity).run middle = result at stages
    cases stages with
    | stopped ran assuredFirst =>
        rw [ran] at backs
        cases backs assuredFirst.bounded with
        | refused givesUp leaves brief =>
            apply Makes.refused _ (by omega)
            exact ⟨givesUp.settle begun sound allocates.new, [handle],
              fun other member _ => new other member,
              (allocates.leaves.trans leaves).mono (by simp)⟩
    | @went backing after ran assuredFirst assuredRest =>
        rw [ran] at backs begins
        obtain ⟨later, follows⟩ := begins assuredFirst.bounded
        cases backs assuredFirst.bounded with
        | backed backed small live brief =>
            have enough : after.counters.collections < heap.counters.collections + 2 ^ 32 := by
              omega
            have fresh := sound.not_isLive_of_course course follows assuredFirst.bounded enough
              backed.new (isLive_of_view backed.seen)
            obtain ⟨next, ran, made⟩ := allocates.made sound assured.sound assuredRest.sound backed
              small empty live fresh (by omega)
            rw [ran]
            exact Makes.made made

theorem Assured.withCapacity {heap : Heap} {capacity : Nat}
    (assured : heap.Assured ((RefArray.withCapacity capacity).run heap).2 []) :
    heap.Makes [] capacity ((RefArray.withCapacity capacity).run heap) := by
  have tame := tame_allocate .array 0
  rw [RefArray.withCapacity_eq] at assured ⊢
  have stages := assured.stages tame (RefArray.tame_construct capacity)
  have known : heap.classes.get .array = .ok Registry.arrayClass := assured.sound.get_builtin rfl
  have allocating := assured.sound.allocating known 0
  have brief : ((allocate .array 0).run heap).2.handles.slots < 2 ^ 32 →
      ((allocate .array 0).run heap).2.counters.collections ≤ heap.counters.collections + 1 :=
    assured.sound.collections_allocate
  have follows := tame.course heap assured.sound
  generalize (allocate .array 0 >>= RefArray.construct capacity).run heap = result at stages
  cases stages with
  | stopped ran assuredFirst =>
      have ended := tame.sound assured.sound
      rw [ran] at allocating ended brief
      cases allocating assuredFirst.bounded with
      | refused retains =>
          exact Makes.refused (retains.undone assured.sound (ended assuredFirst.bounded))
            (Nat.le_succ_of_le (brief assuredFirst.bounded))
  | @went handle middle ran assuredFirst assuredRest =>
      rw [ran] at allocating brief follows
      obtain ⟨log, course⟩ := follows assuredFirst.bounded
      cases allocating assuredFirst.bounded with
      | placed allocates =>
          exact allocates.construct assured.sound course (brief assuredFirst.bounded) assuredRest

/-- An empty array gets a length of absent elements. -/
theorem Made.filled {heap middle : Heap} {array : RefArray} {length : Nat}
    {storage : Option Handle} (made : heap.Made middle array [] length storage) :
    ∃ next, (do
        Heap.writeWord array.handle RefArray.lengthOffset length.toUInt64
        return array : HeapM RefArray).run middle = (.ok array, next) ∧
      heap.Made next array (List.replicate length none) length storage := by
  have lists := made.lists
  obtain ⟨next, wrote, alters, record⟩ :=
    lists.record.writeFirst (Or.inl rfl) made.sound length.toUInt64
  refine ⟨next, ?_, alters.sound made.sound, made.new, ?_, ?_, ?_, ?_,
    by rw [alters.rest]; exact made.few⟩
  · rw [HeapM.run_bind, show (Heap.writeWord array.handle RefArray.lengthOffset
      length.toUInt64).run middle = (.ok ⟨⟩, next) from wrote]
    rfl
  · have same : padded (List.replicate length none) length = padded [] length := by
      simp [padded]
    refine ⟨by rwa [List.length_replicate], lists.small, by rw [List.length_replicate],
      lists.bare, ?_⟩
    intro backing here
    rw [same]
    exact (lists.backed backing here).congr
      (alters.views backing (by simp [(lists.apart here).symm]))
  · have all := made.leaves.trans alters.leaves
    rw [List.append_nil] at all
    exact all.settle (by simp [Lists.parts])
  · exact (alters.holds array.handle).trans made.held
  · refine made.steady.trans
      ((alters.steady made.sound ?_).mono (List.nil_subset [array.handle]))
    intro handle member
    have same := List.mem_singleton.mp member
    exact ⟨.array, by decide, same ▸ lists.record.classOf, same ▸ record.classOf⟩

/-- An array of absent elements is made, or memory runs out. -/
theorem Assured.filled {heap : Heap} {length : Nat}
    (assured : heap.Assured ((RefArray.filled length).run heap).2 []) :
    heap.Makes (List.replicate length none) length ((RefArray.filled length).run heap) := by
  have stages := assured.stages (RefArray.tame_withCapacity length) fun array =>
    (tame_writeWord array.handle RefArray.lengthOffset length.toUInt64).bind fun _ =>
      Tame.pure array
  have filled : (RefArray.filled length).run heap =
      (RefArray.withCapacity length >>= fun array => do
        Heap.writeWord array.handle RefArray.lengthOffset length.toUInt64
        return array).run heap := rfl
  rw [filled]
  generalize (RefArray.withCapacity length >>= _).run heap = result at stages
  cases stages with
  | stopped ran assuredFirst =>
      have makes := Assured.withCapacity (by rw [ran]; exact assuredFirst)
      rw [ran] at makes
      cases makes with
      | refused undone few => exact Makes.refused undone few
  | @went array middle ran assuredFirst assuredRest =>
      have makes := Assured.withCapacity (by rw [ran]; exact assuredFirst)
      rw [ran] at makes
      cases makes with
      | made made =>
          obtain ⟨next, ran, filled⟩ := made.filled
          rw [ran]
          exact Makes.made filled

/-! ## Growing -/

/-- Counting something changes nothing that shows. -/
theorem leaves_count (heap : Heap) (counters : Counters) :
    heap.Leaves { heap with counters } [] [] :=
  leaves_of_views rfl rfl rfl rfl rfl

namespace Lists

section

variable {heap : Heap} {array : RefArray} {elements : List (Option Handle)} {capacity more : Nat}
  {storage : Option Handle} {grown : Handle} (sound : heap.Sound) (small : more < 2 ^ 32)
  (room : elements.length ≤ more) (filled : more ≠ 0)

include sound small room filled

/-- The array gets a run that has the elements. -/
theorem install {second : UInt64}
    (record : heap.Record Registry.arrayClass array.handle elements.length.toUInt64 second storage)
    (runs : heap.Runs grown (padded elements more)) (held : heap.holds grown = .ok 1) :
    ∃ next, (array.install more.toUInt64 grown).run heap = (.ok ⟨⟩, next) ∧ next.Sound ∧
      heap.Leaves next [] [array.handle] ∧ next.Lists array elements more (some grown) ∧
      heap.GivesUp next grown := by
  have apart := ne_of_classOf record.classOf runs.classOf (by decide)
  have present : heap.Present (some grown) := by
    rintro handle same
    cases same
    exact runs.isLive
  obtain ⟨first, stored, alters, recordFirst⟩ := record.writeStorage (Or.inl rfl) sound present
  have runsFirst := runs.congr (alters.views grown (by simp [Ne.symm apart]))
  obtain ⟨second, wrote, altersToo, recordSecond⟩ :=
    recordFirst.writeSecond (Or.inl rfl) (alters.sound sound) more.toUInt64
  have runsSecond := runsFirst.congr (altersToo.views grown (by simp [Ne.symm apart]))
  have both := alters.trans altersToo
  obtain ⟨third, released, thirdSound, recounts, givesUp⟩ := (both.sound sound).exists_release
    (isInterned_of_classOf runsSecond.classOf (by decide)) ((both.holds grown).trans held)
  have counted := leaves_count third
    { third.counters with arrayReallocations := third.counters.arrayReallocations + 1 }
  have ran := RefArray.run_install stored wrote released
  have nextSound := (array.tame_install more.toUInt64 grown).sound sound
  rw [ran] at nextSound
  refine ⟨_, ran, nextSound thirdSound.bounded, ?_, ?_, ?_⟩
  · exact ((both.leaves.trans recounts.leaves).trans counted).mono (by simp)
  · have same : ∀ handle, Heap.view? { third with
        counters := { third.counters with
          arrayReallocations := third.counters.arrayReallocations + 1 } } handle =
        second.view? handle := congrFun recounts.view?
    refine ⟨recordSecond.congr (same _), small, room, by simp [filled], ?_⟩
    rintro other here
    cases here
    exact runsSecond.congr (same _)
  · refine ((both.steady sound ?_).givesUp givesUp).trans ?_
    · intro handle member
      have same : handle = array.handle := by simpa using member
      exact ⟨.array, by decide, same ▸ record.classOf, same ▸ recordSecond.classOf⟩
    · exact counted.steady thirdSound (nextSound thirdSound.bounded) (fun _ => rfl)
        (fun _ _ => rfl) (by simp) rfl

/-- The elements move to a new run. -/
theorem moveTo (lists : heap.Lists array elements capacity storage)
    (runs : heap.Runs grown (List.replicate more none))
    (held : heap.holds grown = .ok 1) :
    ∃ next, (array.moveTo elements.length.toUInt64 more.toUInt64 grown).run heap =
        (.ok ⟨⟩, next) ∧ next.Sound ∧ heap.Leaves next [] [grown, array.handle] ∧
      next.Lists array elements more (some grown) ∧ heap.GivesUp next grown := by
  unfold RefArray.moveTo
  by_cases empty : elements.length = 0
  · have zero : ¬ 0 < elements.length.toUInt64 := by
      rw [(toUInt64_eq_zero_iff lists.small_length).mpr empty]
      decide
    rw [if_neg zero]
    cases List.length_eq_zero_iff.mp empty
    obtain ⟨next, ran, nextSound, leaves, moved, givesUp⟩ :=
      install sound small room filled lists.record (by simpa [padded] using runs) held
    exact ⟨next, ran, nextSound, leaves.mono (by simp), moved, givesUp⟩
  · have positive : 0 < elements.length.toUInt64 := by
      rw [UInt64.lt_iff_toNat_lt, toNat_toUInt64 lists.small_length]
      exact Nat.pos_of_ne_zero empty
    rw [if_pos positive]
    obtain ⟨old, here⟩ := lists.exists_backing
      (Nat.lt_of_lt_of_le (Nat.pos_of_ne_zero empty) lists.fits)
    have within : elements.length ≤ (padded elements capacity).length := by
      rw [length_padded lists.fits]
      exact lists.fits
    obtain ⟨copied, ran, alters, copies⟩ := runs.copy sound (lists.backed old here) within
      (by rw [List.length_replicate]; exact room)
    rw [copied_padded] at copies
    have apart := ne_of_classOf lists.record.classOf runs.classOf (by decide)
    have record := lists.record.congr (alters.views array.handle (by simp [apart]))
    obtain ⟨next, installed, nextSound, leaves, moved, givesUp⟩ :=
      install (alters.sound sound) small room filled record copies
        ((alters.holds grown).trans held)
    refine ⟨next, ?_, nextSound, alters.leaves.trans leaves, moved, ?_⟩
    · rw [HeapM.run_bind, HeapM.run_ask, lists.backing here]
      dsimp only
      rw [HeapM.run_bind, toNat_toUInt64 lists.small_length, ran]
      exact installed
    · refine (alters.steady sound ?_).givesUp givesUp
      intro handle member
      have same := List.mem_singleton.mp member
      exact ⟨.vector, by decide, same ▸ runs.classOf, same ▸ copies.classOf⟩

end

end Lists

/-- What growing does: the elements move to a new run of twice the capacity, or memory runs out. -/
inductive Grows (heap : Heap) (array : RefArray) (elements : List (Option Handle))
    (capacity : Nat) : Except HeapError PUnit × Heap → Prop
  | grown {grown : Handle} {next : Heap} :
      next.Sound → heap.isLive grown = false → heap.Leaves next [grown] [array.handle] →
        next.Lists array elements (max (capacity * 2) 4) (some grown) → heap.Steady next [] →
        Grows heap array elements capacity (.ok ⟨⟩, next)
  | refused {size limit : Nat} {next : Heap} :
      next.Sound → heap.Leaves next [] [] → heap.Steady next [] →
        Grows heap array elements capacity (.error (.outOfMemory size limit), next)

/-- The capacity after growing, as the program computes it. -/
theorem grown_capacity {capacity : Nat} (small : capacity < 2 ^ 32) :
    max (capacity.toUInt64 * 2) RefArray.minCapacity = (max (capacity * 2) 4).toUInt64 := by
  have word := toNat_toUInt64 small
  have doubled : (capacity.toUInt64 * 2).toNat = capacity * 2 := by
    rw [UInt64.toNat_mul, word]
    exact Nat.mod_eq_of_lt (by change capacity * 2 < 2 ^ 64; omega)
  have right : (max (capacity * 2) 4).toUInt64.toNat = max (capacity * 2) 4 :=
    toNat_toUInt64_of_lt (by omega)
  rw [← UInt64.toNat_inj, right]
  change (if capacity.toUInt64 * 2 ≤ RefArray.minCapacity then RefArray.minCapacity
    else capacity.toUInt64 * 2).toNat = _
  have order : capacity.toUInt64 * 2 ≤ RefArray.minCapacity ↔ capacity * 2 ≤ 4 := by
    rw [UInt64.le_iff_toNat_le, doubled]
    rfl
  by_cases less : capacity * 2 ≤ 4
  · rw [if_pos (order.mpr less), max_eq_right less]
    rfl
  · rw [if_neg (mt order.mp less), doubled, max_eq_left (Nat.le_of_not_le less)]

/-- An array that is live after the allocation of a larger run moves to that run. -/
theorem Lists.growInto {heap middle : Heap} {array : RefArray} {elements : List (Option Handle)}
    {capacity : Nat} {storage : Option Handle} {grown : Handle}
    (lists : heap.Lists array elements capacity storage) (sound : heap.Sound)
    (middleSound : middle.Sound) (small : max (capacity * 2) 4 < 2 ^ 32)
    (allocates : heap.Allocates middle
      (View.fresh Registry.vectorClass (max (capacity * 2) 4).toUInt32) grown)
    (live : middle.isLive array.handle = true) :
    heap.Grows array elements capacity ((array.moveTo elements.length.toUInt64
      (max (capacity * 2) 4).toUInt64 grown).run middle) := by
  have room : elements.length ≤ max (capacity * 2) 4 :=
    Nat.le_trans lists.fits (Nat.le_trans (Nat.le_mul_of_pos_right _ (by decide))
      (Nat.le_max_left _ _))
  have old : ∀ handle ∈ parts array storage, handle ∉ [grown] := fun handle member =>
    not_mem_of_new (lists.isLive handle member) (by simpa using allocates.new)
  have still := lists.of_leaves allocates.leaves old live
  obtain ⟨next, moved, nextSound, leaves, grew, givesUp⟩ :=
    moveTo middleSound small room (by omega) still (allocates.runs small) allocates.held
  rw [moved]
  exact Grows.grown nextSound allocates.new ((allocates.leaves.trans leaves).settle (by simp)) grew
    (givesUp.settle (allocates.steady sound middleSound) sound allocates.new)

theorem Lists.grow {heap : Heap} {array : RefArray} {elements : List (Option Handle)}
    {capacity : Nat} {storage : Option Handle} (lists : heap.Lists array elements capacity storage)
    {roots : List Handle} (stays : heap.Grasped array.handle ∨ array.handle ∈ roots)
    (assured : heap.Assured ((array.grow elements.length.toUInt64).run heap).2 roots) :
    heap.Grows array elements capacity ((array.grow elements.length.toUInt64).run heap) := by
  have large : (max (capacity * 2) 4).toUInt64.toNat = max (capacity * 2) 4 :=
    toNat_toUInt64_of_lt (by have := lists.small; omega)
  rw [RefArray.grow_eq, HeapM.run_bind, HeapM.run_ask, lists.capacityWord] at assured ⊢
  dsimp only at assured ⊢
  rw [grown_capacity lists.small, large] at assured ⊢
  have tame := tame_allocate .vector (max (capacity * 2) 4)
  have stages := assured.stages tame
    (array.tame_moveTo elements.length.toUInt64 (max (capacity * 2) 4).toUInt64)
  have known : heap.classes.get .vector = .ok Registry.vectorClass := assured.sound.get_builtin rfl
  have allocating := assured.sound.allocating known (max (capacity * 2) 4)
  have ended := tame.sound assured.sound
  generalize (allocate .vector (max (capacity * 2) 4) >>= _).run heap = result at stages ⊢
  cases stages with
  | stopped ran assuredFirst =>
      rw [ran] at allocating ended
      have nextSound := ended assuredFirst.bounded
      cases allocating assuredFirst.bounded with
      | refused retains =>
          exact Grows.refused nextSound (retains.leaves (by simp))
            (retains.undone assured.sound nextSound).steady
  | @went grown middle ran assuredFirst assuredRest =>
      rw [ran] at allocating
      cases allocating assuredFirst.bounded with
      | placed allocates =>
          have live := assuredFirst.isLive_of_steady tame ran lists.record.isLive stays
            (allocates.steady assured.sound assuredRest.sound) (by simpa using allocates.new)
          exact lists.growInto assured.sound assuredRest.sound (small_of_allocate ran)
            allocates live

end Heap

end CompactingHeap
