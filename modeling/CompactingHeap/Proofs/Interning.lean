import CompactingHeap.Proofs.Discretion
import CompactingHeap.Proofs.SparingPrograms

/-!
# Interning is canonical and permanent

The byte strings that have been interned so far are those that have a canonical string.  A
canonical string is never lost, shows its bytes, and is held by nothing, so two runs that intern
strings return the same handle exactly for the same bytes, whatever happens in between.  Interning
brings in new objects only, so an ordinary string never becomes canonical.
-/

namespace CompactingHeap

open Heap

namespace Heap

/-! ## Canonical strings stay -/

/-- A quiet step leaves every canonical string listed. -/
theorem Quiet.lookup {heap next : Heap} (quiet : Quiet heap next) (sound : heap.Sound)
    (bounded : next.handles.slots < 2 ^ 32) {bytes : Bytes} {handle : Handle}
    (listed : heap.interner.lookup bytes = some handle) :
    next.interner.lookup bytes = some handle := by
  cases quiet with
  | @allocated descriptor extra layout laidOut place roomy _ handle finds ran =>
      obtain ⟨_, settles⟩ := sound.allocated finds ran bounded
      have found := sound.findsRoom laidOut finds
      rw [settles.rest, found.rest]
      exact listed
  | refused laidOut ran =>
      obtain ⟨_, _, rfl⟩ := run_grow_eq_error ran
      exact listed
  | abandoned ran =>
      obtain ⟨_, _, _, rfl, _⟩ := sound.collectNow_error ran
      exact listed
  | @interned other fresh new _ =>
      have different : other ≠ bytes := by
        rintro rfl
        rw [new] at listed
        cases listed
      exact (heap.interner.lookup_insert_of_ne fresh different).trans listed
  | _ => exact listed

/-- Canonical strings stay listed along a course. -/
theorem Course.lookup {heap last : Heap} {log : List (Heap × Heap)} (course : Course heap log last)
    (sound : heap.Sound) (bounded : last.handles.slots < 2 ^ 32) {bytes : Bytes} {handle : Handle}
    (listed : heap.interner.lookup bytes = some handle) :
    last.interner.lookup bytes = some handle := by
  induction course with
  | done heap => exact listed
  | quiet step rest ih =>
      have small := Nat.lt_of_le_of_lt rest.slots_le bounded
      exact ih (step.calm sound small).sound bounded (step.lookup sound small listed)
  | collected ran rest ih =>
      obtain ⟨live, compacts⟩ := sound.compacts ran
      apply ih (compacts.sound sound) bounded
      rw [compacts.interner]
      exact listed

/-! ## Interning one string -/

/-- What interning does: it finds the canonical string, or makes a new object canonical, or runs
out of memory. -/
inductive Interns (heap : Heap) (bytes : Bytes) : Except HeapError Handle × Heap → Prop
  | found {handle : Handle} :
      heap.interner.lookup bytes = some handle → Interns heap bytes (.ok handle, heap)
  | added {handle : Handle} {next : Heap} :
      heap.interner.lookup bytes = none → heap.isLive handle = false →
        next.interner = heap.interner.insert bytes handle → next.Canonical bytes handle →
        (∀ other old, heap.Canonical other old → next.Canonical other old) →
        Interns heap bytes (.ok handle, next)
  | refused {size limit : Nat} {next : Heap} :
      heap.interner.lookup bytes = none → heap.Retains next none →
        Interns heap bytes (.error (.outOfMemory size limit), next)

/-- Making an object canonical that is held once takes the hold away. -/
theorem run_publish {heap : Heap} {bytes : Bytes} {handle : Handle} {address : Address}
    (found : heap.handles.find handle = .ok (address, 1)) :
    (publish bytes handle).run heap = (.ok handle, { heap with
      interner := heap.interner.insert bytes handle
      handles := heap.handles.setSlot handle address 0 }) := by
  unfold publish
  rw [HeapM.run_bind, HeapM.run_modify]
  dsimp only
  rw [HeapM.run_bind, run_onHandles]
  unfold HandleTable.release
  dsimp only
  rw [found]
  rfl

/-- How interning goes: it finds the canonical string, or publishes a new object, or runs out of
memory. -/
inductive Publishes (heap : Heap) (bytes : Bytes) : Except HeapError Handle × Heap → Prop
  | found {handle : Handle} :
      heap.interner.lookup bytes = some handle → Publishes heap bytes (.ok handle, heap)
  | published {handle : Handle} {middle : Heap} {address : Address} :
      heap.interner.lookup bytes = none →
        heap.Allocates middle
          { View.fresh Registry.stringClass bytes.length.toUInt32 with tail := bytes } handle →
        middle.Sound → middle.handles.find handle = .ok (address, 1) →
        Publishes heap bytes (.ok handle, { middle with
          interner := middle.interner.insert bytes handle
          handles := middle.handles.setSlot handle address 0 })
  | refused {size limit : Nat} {next : Heap} :
      heap.interner.lookup bytes = none → heap.Retains next none →
        Publishes heap bytes (.error (.outOfMemory size limit), next)

theorem Sound.publishes {heap : Heap} (sound : heap.Sound) (bytes : Bytes)
    (bounded : ((Heap.intern bytes).run heap).2.handles.slots < 2 ^ 32) :
    heap.Publishes bytes ((Heap.intern bytes).run heap) := by
  cases new : heap.interner.lookup bytes with
  | some handle =>
      rw [run_intern_of_some new]
      exact Publishes.found new
  | none =>
      have known : heap.classes.get .string = .ok Registry.stringClass := sound.get_builtin rfl
      have allocating := sound.allocating_bytes known rfl bytes
      have string : allocString bytes = allocateBytes .string bytes := rfl
      rw [run_intern_of_none new, HeapM.run_bind] at bounded ⊢
      rw [← string] at allocating
      rcases ran : (allocString bytes).run heap with ⟨error | handle, middle⟩
      · rw [ran] at bounded allocating
        cases allocating bounded with
        | refused retains => exact Publishes.refused new retains
      · rw [ran] at bounded allocating
        dsimp only at bounded ⊢
        have small := Nat.lt_of_le_of_lt (slots_le_publish bytes handle middle) bounded
        have tame : Tame (allocString bytes) := tame_allocateBytes .string bytes
        have middleSound := tame.sound sound (by rw [ran]; exact small)
        rw [ran] at middleSound
        cases allocating small with
        | placed allocates =>
            have held := allocates.held
            unfold Heap.holds HandleTable.holds at held
            rcases found : middle.handles.find handle with error | ⟨address, count⟩
            · rw [found] at held
              cases held
            · rw [found] at held
              cases held
              rw [run_publish found]
              exact Publishes.published new allocates middleSound found

/-- What has been published is the canonical string. -/
theorem Allocates.canonical {heap middle : Heap} {bytes : Bytes} {handle : Handle}
    {address : Address}
    (allocates : heap.Allocates middle
      { View.fresh Registry.stringClass bytes.length.toUInt32 with tail := bytes } handle)
    (found : middle.handles.find handle = .ok (address, 1)) :
    Canonical { middle with
      interner := middle.interner.insert bytes handle
      handles := middle.handles.setSlot handle address 0 } bytes handle := by
  have shows := Enclave.view?_publish bytes handle middle
  rw [run_publish found] at shows
  have seen := (congrFun shows handle).trans allocates.seen
  exact ⟨Interner.lookup_insert_self _ _ _, ⟨_, seen, rfl, rfl⟩,
    (holds_setSlot found 0 handle).trans (if_pos rfl)⟩

theorem Sound.interns {heap : Heap} (sound : heap.Sound) (bytes : Bytes)
    (bounded : ((Heap.intern bytes).run heap).2.handles.slots < 2 ^ 32) :
    heap.Interns bytes ((Heap.intern bytes).run heap) := by
  have publishes := sound.publishes bytes bounded
  generalize (Heap.intern bytes).run heap = result at publishes
  cases publishes with
  | found known => exact Interns.found known
  | refused new retains => exact Interns.refused new retains
  | @published handle middle address new allocates middleSound found =>
      have shows := Enclave.view?_publish bytes handle middle
      rw [run_publish found] at shows
      have fresh (other : Handle) (same : some other = some handle) :
          heap.isLive other = false := by
        cases same
        exact allocates.new
      refine Interns.added new allocates.new ?_ (allocates.canonical found) ?_
      · change middle.interner.insert bytes handle = _
        rw [allocates.rest.interner]
      · intro other old canonical
        have kept := canonical.of_retains allocates.rest sound middleSound fresh
        have different : old ≠ handle := by
          rintro rfl
          have stale := allocates.new
          rw [canonical.isLive] at stale
          cases stale
        have apart : bytes ≠ other := by
          rintro rfl
          rw [canonical.listed] at new
          cases new
        refine ⟨(middle.interner.lookup_insert_of_ne handle apart).trans kept.listed, ?_, ?_⟩
        · rw [shows]
          exact kept.shown
        · exact ((holds_setSlot found 0 old).trans (if_neg different)).trans kept.unheld

/-! ## The catalogue of interned strings -/

/-- The byte strings that have been interned, the latest first.  Each has its canonical string, and
the qualified names that are remembered are among them. -/
structure Catalogue (heap : Heap) (strings : List Bytes) : Prop where
  canonical : ∀ bytes handle, heap.interner.lookup bytes = some handle →
    heap.Canonical bytes handle
  distinct : strings.Nodup
  listed : heap.interner.latest.map some = strings.map heap.interner.lookup
  composed : ∀ composition ∈ heap.interner.compositions, ∃ scope name,
    heap.interner.lookup scope = some composition.scope ∧
      heap.interner.lookup name = some composition.name ∧
      heap.interner.lookup (scope ++ dot :: name) = some composition.qualified

section

variable {heap next : Heap} {strings : List Bytes}

/-- No two byte strings have the same canonical string. -/
theorem Catalogue.lookup_inj (catalogue : heap.Catalogue strings) {first second : Bytes}
    {handle : Handle} (one : heap.interner.lookup first = some handle)
    (other : heap.interner.lookup second = some handle) : first = second := by
  have here := (catalogue.canonical first handle one).string
  rw [(catalogue.canonical second handle other).string] at here
  exact (Except.ok.inj here).symm

/-- Just the catalogued byte strings have a canonical string. -/
theorem Catalogue.known_iff (catalogue : heap.Catalogue strings) (sound : heap.Sound)
    (bytes : Bytes) : (heap.interner.lookup bytes).isSome = true ↔ bytes ∈ strings := by
  constructor
  · intro known
    obtain ⟨handle, found⟩ := Option.isSome_iff_exists.mp known
    have member : some handle ∈ strings.map heap.interner.lookup := by
      rw [← catalogue.listed]
      exact List.mem_map_of_mem ((sound.listed handle).mpr ⟨bytes, found⟩)
    obtain ⟨other, listed, same⟩ := List.mem_map.mp member
    rw [catalogue.lookup_inj found same]
    exact listed
  · intro listed
    have member : heap.interner.lookup bytes ∈ heap.interner.latest.map some := by
      rw [catalogue.listed]
      exact List.mem_map_of_mem listed
    obtain ⟨handle, _, same⟩ := List.mem_map.mp member
    rw [← same]
    rfl

/-- A discreet program leaves the catalogue as it is. -/
theorem Catalogue.of_discreet (catalogue : heap.Catalogue strings) {α : Type} {program : HeapM α}
    (discreet : Discreet program) (sound : heap.Sound)
    (bounded : (program.run heap).2.handles.slots < 2 ^ 32) :
    (program.run heap).2.Catalogue strings := by
  have same := discreet.interner heap sound bounded
  constructor
  · intro bytes handle listed
    rw [same] at listed
    exact discreet.canonical heap bytes handle sound bounded
      (catalogue.canonical bytes handle listed)
  · exact catalogue.distinct
  · rw [same]
    exact catalogue.listed
  · rw [same]
    exact catalogue.composed

/-- Interning adds its byte string to the catalogue. -/
theorem Catalogue.of_interns (catalogue : heap.Catalogue strings) {bytes : Bytes} {handle : Handle}
    (sound : heap.Sound) (interns : heap.Interns bytes (.ok handle, next)) :
    next.Catalogue (strings.insert bytes) ∧ next.interner.lookup bytes = some handle := by
  cases interns with
  | found known =>
      have member := (catalogue.known_iff sound bytes).mp (by rw [known]; rfl)
      rw [List.insert_of_mem member]
      exact ⟨catalogue, known⟩
  | added new stale interner canonical kept =>
      have unlisted : bytes ∉ strings := by
        intro member
        have known := (catalogue.known_iff sound bytes).mpr member
        rw [new] at known
        cases known
      have older (other : Bytes) (different : bytes ≠ other) :
          next.interner.lookup other = heap.interner.lookup other := by
        rw [interner]
        exact heap.interner.lookup_insert_of_ne handle different
      have stays (other : Bytes) (old : Handle)
          (known : heap.interner.lookup other = some old) :
          next.interner.lookup other = some old :=
        (kept other old (catalogue.canonical other old known)).listed
      rw [List.insert_of_not_mem unlisted]
      refine ⟨⟨?_, List.nodup_cons.mpr ⟨unlisted, catalogue.distinct⟩, ?_, ?_⟩, canonical.listed⟩
      · intro other old listed
        by_cases same : bytes = other
        · subst same
          rw [canonical.listed] at listed
          cases listed
          exact canonical
        · rw [older other same] at listed
          exact kept other old (catalogue.canonical other old listed)
      · have rest : strings.map next.interner.lookup = strings.map heap.interner.lookup := by
          apply List.map_congr_left
          intro other member
          apply older other
          rintro rfl
          exact unlisted member
        rw [List.map_cons, canonical.listed, rest, ← catalogue.listed, interner]
        rfl
      · intro composition member
        rw [interner] at member
        obtain ⟨scope, name, first, second, both⟩ := catalogue.composed composition member
        exact ⟨scope, name, stays _ _ first, stays _ _ second, stays _ _ both⟩

/-- Interning that fails leaves the interner and the catalogue as they are. -/
theorem Catalogue.of_refused (catalogue : heap.Catalogue strings) {bytes : Bytes}
    {error : HeapError} (sound : heap.Sound) (nextSound : next.Sound)
    (interns : heap.Interns bytes (.error error, next)) :
    next.Catalogue strings ∧ next.interner = heap.interner := by
  cases interns with
  | refused _ retains =>
      refine ⟨⟨?_, catalogue.distinct, ?_, ?_⟩, retains.interner⟩
      · intro other old listed
        rw [retains.interner] at listed
        exact (catalogue.canonical other old listed).of_retains retains sound nextSound (by simp)
      · rw [retains.interner]
        exact catalogue.listed
      · rw [retains.interner]
        exact catalogue.composed

/-- Remembering a qualified name whose bytes are interned. -/
theorem Catalogue.compose (catalogue : heap.Catalogue strings) {scope name : Bytes}
    {scopeHandle nameHandle qualified : Handle}
    (first : heap.interner.lookup scope = some scopeHandle)
    (second : heap.interner.lookup name = some nameHandle)
    (both : heap.interner.lookup (scope ++ dot :: name) = some qualified) :
    Catalogue { heap with
      interner := heap.interner.insertQualified scopeHandle nameHandle qualified } strings := by
  constructor
  · intro bytes handle listed
    have canonical := catalogue.canonical bytes handle listed
    refine ⟨listed, ?_, canonical.unheld⟩
    rw [view?_of_space rfl fun _ => rfl]
    exact canonical.shown
  · exact catalogue.distinct
  · exact catalogue.listed
  · intro composition member
    rcases List.mem_cons.mp member with rfl | member
    · exact ⟨scope, name, first, second, both⟩
    · exact catalogue.composed composition member

/-- A handle that has the bytes of an interned string is the canonical one for them. -/
theorem internedBytes_eq_ok {handle : Handle} {bytes : Bytes}
    (read : heap.internedBytes handle = .ok bytes) :
    heap.string handle = .ok bytes ∧ heap.interner.lookup bytes = some handle := by
  unfold internedBytes at read
  cases shown : heap.string handle with
  | error error =>
      rw [shown] at read
      cases read
  | ok content =>
      rw [shown] at read
      dsimp only [bind, Except.bind] at read
      split at read
      · next listed =>
        cases read
        exact ⟨rfl, listed⟩
      · cases read

variable {scope name : Handle}

/-- A pair that is remembered was composed from interned names, to the interned name of their
bytes. -/
theorem Catalogue.qualified (catalogue : heap.Catalogue strings) {qualified : Handle}
    (remembered : heap.interner.qualified scope name = some qualified) :
    ∃ scopeBytes nameBytes, heap.interner.lookup scopeBytes = some scope ∧
      heap.interner.lookup nameBytes = some name ∧
      heap.interner.lookup (scopeBytes ++ dot :: nameBytes) = some qualified := by
  obtain ⟨composition, found, rfl⟩ := Option.map_eq_some_iff.mp remembered
  have agrees := List.find?_some found
  simp only [Bool.and_eq_true, decide_eq_true_eq] at agrees
  obtain ⟨rfl, rfl⟩ := agrees
  exact catalogue.composed composition (List.mem_of_find?_eq_some found)

theorem run_qualify_of_remembered {qualified : Handle}
    (remembered : heap.interner.qualified scope name = some qualified) :
    (qualify scope name).run heap = (.ok qualified, heap) := by
  unfold qualify
  rw [HeapM.run_bind, HeapM.run_get]
  dsimp only
  rw [remembered]
  rfl

/-- A pair that is not remembered is interned, and remembered if that succeeds. -/
theorem run_qualify_of_new {scopeBytes nameBytes : Bytes}
    (new : heap.interner.qualified scope name = none)
    (scopeRead : heap.internedBytes scope = .ok scopeBytes)
    (nameRead : heap.internedBytes name = .ok nameBytes) :
    (qualify scope name).run heap = (intern (scopeBytes ++ dot :: nameBytes) >>= fun qualified => do
      modify fun heap =>
        { heap with interner := heap.interner.insertQualified scope name qualified }
      return qualified).run heap := by
  unfold qualify
  rw [HeapM.run_bind, HeapM.run_get]
  dsimp only
  rw [new]
  dsimp only
  rw [HeapM.run_bind, HeapM.run_ask, scopeRead]
  dsimp only
  rw [HeapM.run_bind, HeapM.run_ask, nameRead]

/-- The namespace is looked at first, and then the name. -/
theorem run_qualify_of_error {error : HeapError}
    (new : heap.interner.qualified scope name = none)
    (fails : heap.internedBytes scope = .error error ∨
      ∃ scopeBytes, heap.internedBytes scope = .ok scopeBytes ∧
        heap.internedBytes name = .error error) :
    (qualify scope name).run heap = (.error error, heap) := by
  unfold qualify
  rw [HeapM.run_bind, HeapM.run_get]
  dsimp only
  rw [new]
  dsimp only
  rw [HeapM.run_bind, HeapM.run_ask]
  rcases fails with first | ⟨scopeBytes, first, second⟩
  · rw [first]
  · rw [first]
    dsimp only
    rw [HeapM.run_bind, HeapM.run_ask, second]

/-- What composing a qualified name does: both parts are interned, and so is the whole name
afterwards, or it fails. -/
inductive Qualifies (heap : Heap) (strings : List Bytes) (scope name : Handle) :
    Except HeapError Handle × Heap → Prop
  | composed {scopeBytes nameBytes : Bytes} {qualified : Handle} {next : Heap} :
      heap.interner.lookup scopeBytes = some scope → heap.interner.lookup nameBytes = some name →
        next.interner.lookup (scopeBytes ++ dot :: nameBytes) = some qualified →
        next.Catalogue (strings.insert (scopeBytes ++ dot :: nameBytes)) →
        Qualifies heap strings scope name (.ok qualified, next)
  | failed {error : HeapError} {next : Heap} : next.Catalogue strings →
      Qualifies heap strings scope name (.error error, next)

theorem Catalogue.qualifies (catalogue : heap.Catalogue strings) (sound : heap.Sound)
    (scope name : Handle) (bounded : ((qualify scope name).run heap).2.handles.slots < 2 ^ 32) :
    heap.Qualifies strings scope name ((qualify scope name).run heap) := by
  cases remembered : heap.interner.qualified scope name with
  | some qualified =>
      obtain ⟨scopeBytes, nameBytes, first, second, both⟩ := catalogue.qualified remembered
      have known := (catalogue.known_iff sound _).mp (by rw [both]; rfl)
      rw [run_qualify_of_remembered remembered]
      apply Qualifies.composed first second both
      rw [List.insert_of_mem known]
      exact catalogue
  | none =>
      cases readScope : heap.internedBytes scope with
      | error error =>
          rw [run_qualify_of_error remembered (Or.inl readScope)]
          exact Qualifies.failed catalogue
      | ok scopeBytes =>
          cases readName : heap.internedBytes name with
          | error error =>
              rw [run_qualify_of_error remembered (Or.inr ⟨scopeBytes, readScope, readName⟩)]
              exact Qualifies.failed catalogue
          | ok nameBytes =>
              rw [run_qualify_of_new remembered readScope readName, HeapM.run_bind] at bounded ⊢
              obtain ⟨_, first⟩ := internedBytes_eq_ok readScope
              obtain ⟨_, second⟩ := internedBytes_eq_ok readName
              have interns := sound.interns (scopeBytes ++ dot :: nameBytes)
              have tame := tame_intern (scopeBytes ++ dot :: nameBytes)
              rcases ran : (intern (scopeBytes ++ dot :: nameBytes)).run heap with
                ⟨error | qualified, middle⟩
              · rw [ran] at bounded interns
                have middleSound := tame.sound sound (by rw [ran]; exact bounded)
                rw [ran] at middleSound
                exact Qualifies.failed
                  (catalogue.of_refused sound middleSound (interns bounded)).1
              · rw [ran] at bounded interns
                dsimp only at bounded ⊢
                rw [HeapM.run_bind, HeapM.run_modify] at bounded ⊢
                obtain ⟨log, course⟩ := tame.course heap sound (by rw [ran]; exact bounded)
                rw [ran] at course
                obtain ⟨recorded, both⟩ := catalogue.of_interns sound (interns bounded)
                exact Qualifies.composed first second both
                  (recorded.compose (course.lookup sound bounded first)
                    (course.lookup sound bounded second) both)

end

end Heap

/-! ## Runs that intern -/

/-- The operations that intern strings. -/
inductive Interning : {α : Type} → HeapM α → Prop
  | intern (bytes : Bytes) : Interning (Heap.intern bytes)
  | qualify (scope name : Handle) : Interning (Heap.qualify scope name)
  | qualifyPath (segments : List Bytes) : Interning (Heap.qualifyPath segments)

/-- All other operations are discreet. -/
theorem Operation.discreet {α : Type} {operation : HeapM α} (offered : Operation operation)
    (plain : ¬ Interning operation) : Discreet operation := by
  cases offered with
  | ask question => exact Discreet.ask question
  | register name size align trace byteTail =>
      exact discreet_register name size align trace byteTail
  | allocate id extra => exact discreet_allocate id extra
  | allocateBytes id bytes => exact discreet_allocateBytes id bytes
  | allocInt value => exact discreet_allocScalar (by simp) _
  | allocFloat bits => exact discreet_allocScalar (by simp) bits
  | allocBool value => exact discreet_allocScalar (by simp) _
  | allocChar value => exact discreet_allocScalar (by simp) _
  | allocString bytes => exact discreet_allocateBytes .string bytes
  | allocVector length => exact discreet_allocate .vector length
  | cons car cdr => exact discreet_cons car cdr
  | setCar cell value => exact discreet_writePair cell 0 value
  | setCdr cell value => exact discreet_writePair cell wordBytes value
  | writeRef handle offset value => exact discreet_writeRef handle offset value
  | writeWord handle offset value => exact discreet_writeWord handle offset value
  | runSet handle index value => exact discreet_runSet handle index value
  | retain handle => exact discreet_retain handle
  | release handle => exact discreet_release handle
  | registerRoot source handle => exact discreet_registerRoot source handle
  | unregisterRoot source handle => exact discreet_unregisterRoot source handle
  | unregisterSource source =>
      exact Discreet.of_aside (tame_unregisterSource source) fun _ => ⟨rfl, rfl, rfl⟩
  | addScanner report =>
      exact Discreet.of_aside (tame_addScanner report) fun _ => ⟨rfl, rfl, rfl⟩
  | setReport id report =>
      exact Discreet.of_aside (tame_setReport id report) fun _ => ⟨rfl, rfl, rfl⟩
  | removeScanner id => exact discreet_removeScanner id
  | intern bytes => exact absurd (Interning.intern bytes) plain
  | qualify scope name => exact absurd (Interning.qualify scope name) plain
  | qualifyPath segments => exact absurd (Interning.qualifyPath segments) plain
  | collect => exact discreet_collect
  | newArray => exact RefArray.discreet_withCapacity 0
  | arrayWithCapacity capacity => exact RefArray.discreet_withCapacity capacity
  | filledArray length => exact RefArray.discreet_filled length
  | arraySet array index value => exact array.discreet_set index value
  | arrayPush array value => exact array.discreet_push value
  | arrayPop array => exact array.discreet_pop
  | arrayClear array => exact array.discreet_clear
  | newTable => exact Discreet.get.bind fun _ => RefTable.discreet_withCapacity _
  | tableWithCapacity capacity => exact RefTable.discreet_withCapacity capacity
  | tableInsert table key value hash => exact table.discreet_insert key value
  | tableRemove table key hash => exact table.discreet_remove key

namespace Heap

/-- The byte strings that have been interned by a run of operations from a new heap, the latest
first.  A path is qualified by interning its segments and composing names. -/
inductive Interned : Heap → List Bytes → Prop
  | created {system : MemorySystem} {config : Config} {heap : Heap} :
      Heap.new system config = .ok heap → Interned heap []
  | apart {α : Type} {operation : HeapM α} {heap : Heap} {strings : List Bytes} :
      Interned heap strings → Operation operation → ¬ Interning operation →
        (operation.run heap).2.handles.slots < 2 ^ 32 → Interned (operation.run heap).2 strings
  | interned {heap next : Heap} {strings : List Bytes} {bytes : Bytes} {handle : Handle} :
      Interned heap strings → (intern bytes).run heap = (.ok handle, next) →
        next.handles.slots < 2 ^ 32 → Interned next (strings.insert bytes)
  | unable {heap next : Heap} {strings : List Bytes} {bytes : Bytes} {error : HeapError} :
      Interned heap strings → (intern bytes).run heap = (.error error, next) →
        next.handles.slots < 2 ^ 32 → Interned next strings
  | qualified {heap next : Heap} {strings : List Bytes} {scope name handle : Handle}
      {scopeBytes nameBytes : Bytes} :
      Interned heap strings → heap.string scope = .ok scopeBytes →
      heap.string name = .ok nameBytes →
        (qualify scope name).run heap = (.ok handle, next) → next.handles.slots < 2 ^ 32 →
        Interned next (strings.insert (scopeBytes ++ dot :: nameBytes))
  | unqualified {heap next : Heap} {strings : List Bytes} {scope name : Handle}
      {error : HeapError} :
      Interned heap strings → (qualify scope name).run heap = (.error error, next) →
        next.handles.slots < 2 ^ 32 → Interned next strings

/-- The strings that qualifying a path behind a scope interns: each segment, and the name up to
it. -/
def pathFrom (scope : Bytes) : List Bytes → List Bytes
  | [] => []
  | segment :: rest =>
      segment :: (scope ++ dot :: segment) :: pathFrom (scope ++ dot :: segment) rest

/-- The strings that qualifying a path interns. -/
def pathStrings : List Bytes → List Bytes
  | [] => []
  | first :: rest => first :: pathFrom first rest

section

variable {heap next : Heap} {strings : List Bytes}

/-- An operation that has run leads from a reachable heap to a reachable one. -/
theorem Reachable.of_ran (reachable : heap.Reachable) {α : Type} {operation : HeapM α}
    (offered : Operation operation) {result : Except HeapError α}
    (ran : operation.run heap = (result, next)) (bounded : next.handles.slots < 2 ^ 32) :
    next.Reachable := by
  have reached := reachable.after offered
  rw [ran] at reached
  exact reached bounded

/-- A run that interns strings is one of operations. -/
theorem Interned.reachable (interned : heap.Interned strings) : heap.Reachable := by
  induction interned with
  | created created => exact Reachable.created created
  | apart _ offered _ bounded ih => exact ih.after offered bounded
  | interned _ ran bounded ih | unable _ ran bounded ih =>
      exact ih.of_ran (Operation.intern _) ran bounded
  | qualified _ _ _ ran bounded ih | unqualified _ ran bounded ih =>
      exact ih.of_ran (Operation.qualify _ _) ran bounded

/-- What has been interned is catalogued. -/
theorem Interned.catalogue (interned : heap.Interned strings) : heap.Catalogue strings := by
  induction interned with
  | created created =>
      obtain ⟨_, rfl⟩ := new_eq_ok_iff.mp created
      constructor
      · intro bytes handle listed
        simp [Interner.lookup, Interner.empty] at listed
      · exact List.nodup_nil
      · rfl
      · intro composition member
        cases member
  | apart before offered plain bounded ih =>
      exact ih.of_discreet (offered.discreet plain) before.reachable.sound bounded
  | @interned heap next strings bytes handle before ran bounded ih =>
      have interns := before.reachable.sound.interns bytes
      rw [ran] at interns
      exact (ih.of_interns before.reachable.sound (interns bounded)).1
  | @unable heap next strings bytes error before ran bounded ih =>
      have interns := before.reachable.sound.interns bytes
      rw [ran] at interns
      exact (ih.of_refused before.reachable.sound (before.unable ran bounded).reachable.sound
        (interns bounded)).1
  | @qualified heap next strings scope name handle scopeBytes nameBytes before scopeRead nameRead
      ran bounded ih =>
      have qualifies := ih.qualifies before.reachable.sound scope name
      rw [ran] at qualifies
      cases qualifies bounded with
      | composed first second _ recorded =>
          have sameScope := (ih.canonical _ _ first).string
          have sameName := (ih.canonical _ _ second).string
          rw [scopeRead] at sameScope
          rw [nameRead] at sameName
          cases sameScope
          cases sameName
          exact recorded
  | @unqualified heap next strings scope name error before ran bounded ih =>
      have qualifies := ih.qualifies before.reachable.sound scope name
      rw [ran] at qualifies
      cases qualifies bounded with
      | failed recorded => exact recorded

/-- Interning a string is a run that interns. -/
theorem Interned.intern (interned : heap.Interned strings) (bytes : Bytes)
    (bounded : ((Heap.intern bytes).run heap).2.handles.slots < 2 ^ 32) :
    (∃ error next, (Heap.intern bytes).run heap = (.error error, next) ∧
        next.Interned strings) ∨
      ∃ handle next, (Heap.intern bytes).run heap = (.ok handle, next) ∧
        next.interner.lookup bytes = some handle ∧ next.Interned (strings.insert bytes) := by
  have sound := interned.reachable.sound
  have interns := sound.interns bytes bounded
  rcases ran : (Heap.intern bytes).run heap with ⟨error | handle, next⟩
  · rw [ran] at bounded
    exact Or.inl ⟨error, next, rfl, Interned.unable interned ran bounded⟩
  · rw [ran] at bounded interns
    exact Or.inr ⟨handle, next, rfl, (interned.catalogue.of_interns sound interns).2,
      Interned.interned interned ran bounded⟩

/-- Composing a name is a run that interns. -/
theorem Interned.qualify (interned : heap.Interned strings) (scope name : Handle)
    (bounded : ((Heap.qualify scope name).run heap).2.handles.slots < 2 ^ 32) :
    (∃ error next, (Heap.qualify scope name).run heap = (.error error, next) ∧
        next.Interned strings) ∨
      ∃ scopeBytes nameBytes handle next,
        (Heap.qualify scope name).run heap = (.ok handle, next) ∧
        heap.interner.lookup scopeBytes = some scope ∧
        heap.interner.lookup nameBytes = some name ∧
        next.interner.lookup (scopeBytes ++ dot :: nameBytes) = some handle ∧
        next.Interned (strings.insert (scopeBytes ++ dot :: nameBytes)) := by
  have catalogue := interned.catalogue
  have qualifies := catalogue.qualifies interned.reachable.sound scope name bounded
  rcases ran : (Heap.qualify scope name).run heap with ⟨error | handle, next⟩
  · rw [ran] at bounded
    exact Or.inl ⟨error, next, rfl, Interned.unqualified interned ran bounded⟩
  · rw [ran] at bounded qualifies
    cases qualifies with
    | @composed scopeBytes nameBytes _ _ first second both _ =>
        have scopeRead := (catalogue.canonical _ _ first).string
        have nameRead := (catalogue.canonical _ _ second).string
        exact Or.inr ⟨scopeBytes, nameBytes, handle, next, rfl, first, second, both,
          Interned.qualified interned scopeRead nameRead ran bounded⟩

/-- Qualifying what is left of a path behind an interned scope is a run that interns.  If it
succeeds, the strings of the path have been interned in order. -/
theorem Interned.qualifyFrom (interned : heap.Interned strings) {scopeBytes : Bytes}
    {scope : Handle} (listed : heap.interner.lookup scopeBytes = some scope)
    (segments : List Bytes)
    (bounded : ((Heap.qualifyFrom scope segments).run heap).2.handles.slots < 2 ^ 32) :
    ∃ known, ((Heap.qualifyFrom scope segments).run heap).2.Interned known ∧
      ∀ handle, ((Heap.qualifyFrom scope segments).run heap).1 = .ok handle →
        known = (pathFrom scopeBytes segments).foldl (fun known name => known.insert name)
          strings := by
  -- Each segment is interned and composed with the scope that the segments before it have reached.
  induction segments generalizing heap strings scopeBytes scope with
  | nil => exact ⟨strings, interned, fun _ _ => rfl⟩
  | cons segment rest ih =>
      unfold Heap.qualifyFrom at bounded ⊢
      have small := Tame.slots_lt_first (fun name => (tame_qualify scope name).bind fun qualified =>
        tame_qualifyFrom qualified rest) bounded
      rw [HeapM.run_bind] at bounded ⊢
      rcases interned.intern segment small with
        ⟨error, middle, ran, reached⟩ | ⟨name, middle, ran, nameListed, reached⟩
      · rw [ran]
        exact ⟨strings, reached, fun _ done => by cases done⟩
      · obtain ⟨log, course⟩ := (tame_intern segment).course heap interned.reachable.sound small
        rw [ran] at bounded small course ⊢
        have scopeListed := course.lookup interned.reachable.sound small listed
        dsimp only at bounded ⊢
        have composing :=
          Tame.slots_lt_first (fun qualified => tame_qualifyFrom qualified rest) bounded
        rw [HeapM.run_bind] at bounded ⊢
        rcases reached.qualify scope name composing with
          ⟨error, finish, ran, ended⟩ |
            ⟨firstBytes, secondBytes, qualified, finish, ran, first, second, both, ended⟩
        · rw [ran]
          exact ⟨_, ended, fun _ done => by cases done⟩
        · rw [ran] at bounded ⊢
          have recorded := reached.catalogue
          obtain rfl := recorded.lookup_inj first scopeListed
          obtain rfl := recorded.lookup_inj second nameListed
          exact ih ended both bounded

/-- Qualifying a path is a run that interns.  If it succeeds, the strings of the path have been
interned in order. -/
theorem Interned.qualifyPath (interned : heap.Interned strings) (segments : List Bytes)
    (bounded : ((Heap.qualifyPath segments).run heap).2.handles.slots < 2 ^ 32) :
    ∃ known, ((Heap.qualifyPath segments).run heap).2.Interned known ∧
      ∀ handle, ((Heap.qualifyPath segments).run heap).1 = .ok handle →
        known = (pathStrings segments).foldl (fun known name => known.insert name) strings := by
  cases segments with
  | nil => exact ⟨strings, interned, fun _ done => by cases done⟩
  | cons first rest =>
      unfold Heap.qualifyPath at bounded ⊢
      have small := Tame.slots_lt_first (fun scope => tame_qualifyFrom scope rest) bounded
      rw [HeapM.run_bind] at bounded ⊢
      rcases interned.intern first small with
        ⟨error, middle, ran, reached⟩ | ⟨scope, middle, ran, listed, reached⟩
      · rw [ran]
        exact ⟨strings, reached, fun _ done => by cases done⟩
      · rw [ran] at bounded ⊢
        exact reached.qualifyFrom listed rest bounded

/-- Every reachable heap is reached by a run that interns some strings. -/
theorem Reachable.interned (reachable : heap.Reachable) : ∃ strings, heap.Interned strings := by
  induction reachable with
  | created created => exact ⟨[], Interned.created created⟩
  | @after α operation heap _ offered bounded ih =>
      obtain ⟨strings, interned⟩ := ih
      by_cases interning : Interning operation
      · cases interning with
        | intern bytes =>
            rcases interned.intern bytes bounded with
              ⟨error, next, ran, reached⟩ | ⟨handle, next, ran, _, reached⟩
            · rw [ran]
              exact ⟨strings, reached⟩
            · rw [ran]
              exact ⟨_, reached⟩
        | qualify scope name =>
            rcases interned.qualify scope name bounded with
              ⟨error, next, ran, reached⟩ | ⟨_, _, handle, next, ran, _, _, _, reached⟩
            · rw [ran]
              exact ⟨strings, reached⟩
            · rw [ran]
              exact ⟨_, reached⟩
        | qualifyPath segments =>
            obtain ⟨known, reached, _⟩ := interned.qualifyPath segments bounded
            exact ⟨known, reached⟩
      · exact ⟨strings, Interned.apart interned offered interning bounded⟩

end

end Heap

end CompactingHeap
