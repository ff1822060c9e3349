import CompactingHeap.Proofs.HoldBalance
import CompactingHeap.Proofs.Stores
import CompactingHeap.Proofs.Sturdiness

/-!
# Rewritten keys

The word of a number can be written while the number is a key of a table.  Two keys of the table
may then be equal, or a key may lie where no search for it comes by.  Whatever has been written
into the keys or into the storage of a table, an insertion leaves everything steady if it succeeds.
If it fails, the holds on all that was there are as before, but the new bucket array may be
stranded: the move of the entries stops, at a repeated key say, and the array stays held.  And a
key that the search has missed may appear once the table has grown, which is a fault; while the
table does not grow, no key appears.
-/

namespace CompactingHeap

open Heap RefTable

/-! ## What stays when contents are written -/

namespace Heap

/-- The handles with their holds, the roots, and which objects are interned and of which classes
they are.  That stays when the contents of objects are written. -/
structure Standing where
  handles : HandleTable Address
  roots : RootSet
  isInterned : Handle → Bool
  classOf : Handle → Except HeapError ClassId

/-- The standing of the objects of a heap. -/
def standing (heap : Heap) : Standing :=
  ⟨heap.handles, heap.roots, heap.isInterned, heap.classOf⟩

/-- A change of an object that keeps its outline shows in no outline. -/
theorem unseen_outline (other : Handle) :
    Unseen fun heap => (heap.objectOf other).map Object.outline := by
  intro heap handle f keeps
  unfold modifyObject
  cases heap.handles.resolve handle with
  | error _ => rfl
  | ok address =>
      unfold objectOf residentOf
      dsimp only
      cases heap.handles.resolve other with
      | error _ => rfl
      | ok place =>
          dsimp only
          by_cases same : address = place
          · subst same
            rw [Space.resident?_modify_self]
            cases heap.space.resident? address with
            | none => rfl
            | some resident => exact congrArg Except.ok (keeps resident.object)
          · rw [Space.resident?_modify_of_ne _ f same]

section

variable {heap next : Heap} {handle : Handle}
  (outlines : (next.objectOf handle).map Object.outline = (heap.objectOf handle).map Object.outline)

include outlines

theorem classOf_of_outlines : next.classOf handle = heap.classOf handle := by
  have ofOutline (heap : Heap) : heap.classOf handle =
      ((heap.objectOf handle).map Object.outline).map fun outline => outline.descriptor.id := by
    unfold Heap.classOf
    cases heap.objectOf handle <;> rfl
  rw [ofOutline, ofOutline, outlines]

theorem isInterned_of_outlines (classes : next.classes = heap.classes)
    (interner : next.interner = heap.interner) :
    next.isInterned handle = heap.isInterned handle := by
  have ofOutline (heap : Heap) : heap.string handle =
      ((heap.objectOf handle).map Object.outline) >>= fun outline =>
        if outline.descriptor.id = .string then pure outline.tail
        else heap.classes.get .string >>= fun expected =>
          throw (.wrongType expected.name outline.descriptor.name) := by
    unfold Heap.string expect
    cases heap.objectOf handle with
    | error _ => rfl
    | ok object =>
        by_cases plain : object.descriptor.id = .string
        · simp [Except.map, bind, Except.bind, pure, Except.pure, Object.outline, plain]
        · cases heap.classes.get .string with
          | error _ => simp [Except.map, bind, Except.bind, Object.outline, plain]
          | ok expected =>
              simp [Except.map, bind, Except.bind, throw, throwThe, MonadExceptOf.throw,
                Object.outline, plain]
  unfold isInterned
  rw [ofOutline, ofOutline heap, outlines, classes, interner]

end

theorem unseen_standing : Unseen standing := by
  intro heap handle f keeps
  have rest : heap.modifyObject handle f =
      { heap with space := (heap.modifyObject handle f).space } := by
    unfold modifyObject
    split <;> rfl
  have outlines (other : Handle) := unseen_outline other heap handle f keeps
  unfold standing
  congr 1
  · rw [rest]
  · rw [rest]
  · funext other
    exact isInterned_of_outlines (outlines other) (by rw [rest]) (by rw [rest])
  · funext other
    exact classOf_of_outlines (outlines other)

section

variable {heap next : Heap} (same : next.standing = heap.standing)

include same

theorem handles_of_standing : next.handles = heap.handles :=
  congrArg Standing.handles same

theorem holds_of_standing (handle : Handle) : next.holds handle = heap.holds handle := by
  unfold holds
  rw [handles_of_standing same]

theorem classOf_of_standing (handle : Handle) : next.classOf handle = heap.classOf handle :=
  congrFun (congrArg Standing.classOf same) handle

theorem Sound.steady_of_standing (sound : heap.Sound) : heap.Steady next [] where
  grasped handle _ grasped := by
    refine ⟨?_, congrFun (congrArg Standing.isInterned same) handle, holds_of_standing same handle⟩
    unfold isLive
    rw [handles_of_standing same]
    exact sound.isLive_of_kept grasped.kept
  unheld handle _ unheld := by
    unfold Unheld
    rw [holds_of_standing same]
    exact unheld
  roots := congrArg Standing.roots same

end

end Heap

/-! ## Writes into bucket arrays -/

section

variable {γ : Type} {part : Heap → γ} (unseen : Unseen part)

include unseen

theorem RefArray.fixes_set (array : RefArray) (index : Nat) (value : Option Handle) :
    Fixes part (array.set index value) :=
  (Fixes.ask _).bind fun backing => (Store.element backing index value).fixes unseen

namespace RefTable

theorem fixes_fillBucket (buckets : RefArray) (index : UInt64) (key value : Option Handle) :
    Fixes part (fillBucket buckets index key value) :=
  (buckets.fixes_set unseen (keyIndex index) key).bind fun _ =>
    buckets.fixes_set unseen (valueIndex index) value

theorem fixes_reinsertFrom (table : RefTable) (old grown : RefArray) (capacity index : UInt64)
    (count : Nat) (hash : Key → UInt64) :
    Fixes part (table.reinsertFrom old grown capacity index count hash) := by
  induction count generalizing index with
  | zero => exact Fixes.pure ()
  | succ count ih =>
      apply (Fixes.ask _).bind
      intro key
      cases key with
      | none => exact ih (index + 1)
      | some key =>
          apply (Fixes.ask _).bind
          intro value
          apply (Fixes.ask _).bind
          intro probed
          cases probed with
          | found _ => exact Fixes.throw _
          | vacant slot =>
              exact (fixes_fillBucket unseen grown slot (some key) value).bind
                fun _ => ih (index + 1)

theorem fixes_enter (table : RefTable) (count : UInt64) (key value : Handle) (hash : Key → UInt64) :
    Fixes part (table.enter count key value hash) := by
  apply (Fixes.ask _).bind
  intro buckets
  apply (Fixes.ask _).bind
  intro capacity
  apply (Fixes.ask _).bind
  intro probed
  cases probed with
  | found _ => exact Fixes.throw _
  | vacant slot =>
      apply (fixes_fillBucket unseen buckets slot (some key) (some value)).bind
      intro _
      exact ((Store.word table.handle countOffset (count + 1)).fixes unseen).bind fun _ =>
        Fixes.pure none

/-- Replacing a value changes nothing that writes leave unseen. -/
theorem fixes_replace (buckets : RefArray) (index : Nat) (value : Handle) :
    Fixes part (do
      let previous ← HeapM.ask fun heap => buckets.get heap index
      buckets.set index (some value)
      return previous) :=
  (Fixes.ask _).bind fun previous =>
    (buckets.fixes_set unseen index (some value)).bind fun _ => Fixes.pure previous

end RefTable

end

/-! ## Moving to a new bucket array -/

namespace Heap

/-- The program gives up an array that is held once, or it fails and leaves everything standing. -/
def Relinquishes {α : Type} (array : Handle) (program : HeapM α) : Prop :=
  ∀ heap : Heap, heap.Sound → heap.classOf array = .ok .array → heap.holds array = .ok 1 →
    heap.GivesUp (program.run heap).2 array ∨
      (∃ error, (program.run heap).1 = .error error) ∧ (program.run heap).2.standing = heap.standing

/-- What is written before an array is given up leaves it as it is. -/
theorem Relinquishes.after {α β : Type} {array : Handle} {first : HeapM α} {next : α → HeapM β}
    (fixes : Fixes standing first) (tame : Tame first)
    (rest : ∀ value, Relinquishes array (next value)) : Relinquishes array (first >>= next) := by
  intro heap sound known held
  have same := fixes heap
  have still := tame.sound sound
  rw [HeapM.run_bind]
  rcases ran : first.run heap with ⟨error | value, middle⟩
  all_goals rw [ran] at same still
  · exact Or.inr ⟨⟨error, rfl⟩, same⟩
  · have middleSound : middle.Sound := still (by
      rw [handles_of_standing same]
      exact sound.bounded)
    rcases rest value middle middleSound ((classOf_of_standing same array).trans known)
      ((holds_of_standing same array).trans held) with givesUp | ⟨failed, after⟩
    · exact Or.inl ((sound.steady_of_standing same).givesUp givesUp)
    · exact Or.inr ⟨failed, after.trans same⟩

end Heap

namespace RefTable

/-- The move of the entries gives up the new bucket array, that the table refers to from then on,
or it fails and leaves the array as it is. -/
theorem relinquishes_moveTo (table : RefTable) (oldCapacity capacity : UInt64) (hash : Key → UInt64)
    (grown : RefArray) :
    Relinquishes grown.handle (table.moveTo oldCapacity capacity hash grown) := by
  have unseen := unseen_standing
  apply Relinquishes.after (Fixes.ask _) (Tame.ask _)
  intro old
  apply Relinquishes.after (fixes_reinsertFrom unseen table old grown capacity 0 _ hash)
    (table.tame_reinsertFrom old grown capacity 0 _ hash)
  intro _
  apply Relinquishes.after
    ((Store.field table.handle bucketsOffset (some grown.handle)).fixes unseen)
    (tame_writeRef table.handle bucketsOffset (some grown.handle))
  intro _
  apply Relinquishes.after ((Store.word table.handle capacityOffset capacity).fixes unseen)
    (tame_writeWord table.handle capacityOffset capacity)
  intro _ heap sound known held
  obtain ⟨next, released, nextSound, _, givesUp⟩ :=
    sound.exists_release (isInterned_of_classOf known (by decide)) held
  rw [HeapM.run_bind, released]
  exact Or.inl (givesUp.trans (nextSound.steady_of_standing rfl))

end RefTable

/-! ## Stranded arrays -/

namespace Heap

/-- Everything is steady after a program, or it has failed and has stranded a new array: the array
is held once, and nobody has been told of it. -/
inductive Strands (heap : Heap) {α : Type} : Except HeapError α × Heap → Prop
  | steady {result : Except HeapError α} {next : Heap} :
      heap.Steady next [] → Strands heap (result, next)
  | stranded {error : HeapError} {array : Handle} {next : Heap} :
      heap.isLive array = false → next.classOf array = .ok .array → next.holds array = .ok 1 →
        heap.Steady next [array] → Strands heap (.error error, next)

section

variable {heap : Heap} {hash : Key → UInt64} {table : RefTable}

theorem Strands.refl {α : Type} (sound : heap.Sound) (result : Except HeapError α) :
    heap.Strands (result, heap) :=
  .steady (Steady.refl sound)

/-- A question that goes before a program strands nothing. -/
theorem Assured.strands_ask {α β : Type} {question : Heap → Except HeapError α} {rest : α → HeapM β}
    (assured : heap.Assured ((HeapM.ask question >>= rest).run heap).2 [])
    (goes : ∀ value, question heap = .ok value → heap.Assured ((rest value).run heap).2 [] →
      heap.Strands ((rest value).run heap)) :
    heap.Strands ((HeapM.ask question >>= rest).run heap) := by
  rw [HeapM.run_bind, HeapM.run_ask] at assured ⊢
  cases asked : question heap with
  | error error => exact Strands.refl assured.sound _
  | ok value =>
      rw [asked] at assured
      exact goes value asked assured

/-- A resize strands at most the new bucket array. -/
theorem Assured.resize {capacity : UInt64}
    (assured : heap.Assured ((table.resize capacity hash).run heap).2 []) :
    heap.Strands ((table.resize capacity hash).run heap) := by
  have sound := assured.sound
  rw [RefTable.resize_eq] at assured ⊢
  refine assured.strands_ask fun oldCapacity _ assured => ?_
  have stages := assured.stages (RefArray.tame_filled (2 * capacity).toNat)
    (table.tame_moveTo oldCapacity capacity hash)
  have filled : heap.Assured ((RefArray.filled (2 * capacity).toNat).run heap).2 [] → _ :=
    Assured.filled
  generalize (RefArray.filled (2 * capacity).toNat >>= _).run heap = result at stages ⊢
  cases stages with
  | stopped ran assuredFirst =>
      rw [ran] at filled
      cases filled assuredFirst with
      | refused undone _ => exact .steady undone.steady
  | @went array middle ran assuredFirst _ =>
      rw [ran] at filled
      cases filled assuredFirst with
      | made made =>
          have new := made.new array.handle List.mem_cons_self
          have known := made.lists.record.classOf
          rcases table.relinquishes_moveTo oldCapacity capacity hash array middle made.sound known
            made.held with givesUp | ⟨⟨error, failed⟩, same⟩
          · exact .steady (givesUp.settle made.steady sound new)
          · generalize (table.moveTo oldCapacity capacity hash array).run middle = result
              at failed same ⊢
            obtain ⟨_, next⟩ := result
            cases failed
            exact .stranded new ((classOf_of_standing same array.handle).trans known)
              ((holds_of_standing same array.handle).trans made.held)
              (made.steady.trans
                ((made.sound.steady_of_standing same).mono (List.nil_subset [array.handle])))

/-- A program does not run if one of the objects that it holds is stale. -/
theorem Sound.strands_stale {α : Type} (sound : heap.Sound) {handles : List Handle} {body : HeapM α}
    (tame : Tame body) (room : heap.Holdable handles)
    (bounded : ((withHeld handles body).run heap).2.handles.slots < 2 ^ 32) {stale : Handle}
    (member : stale ∈ handles) (dead : heap.isLive stale = false) :
    heap.Strands ((withHeld handles body).run heap) := by
  obtain ⟨handle, _, _, next, ran, same⟩ := withHeld_of_stale body member dead room
  have nextSound := (tame_withHeld handles tame).sound sound bounded
  rw [ran] at nextSound ⊢
  exact .steady (same.undone sound nextSound).steady

/-- What a program strands while objects are held is stranded when the holds have been given back,
and nothing else is. -/
theorem Sound.strands_withHeld {α : Type} (sound : heap.Sound) {handles : List Handle}
    {body : HeapM α} (tame : Tame body) (room : heap.Holdable handles)
    (bounded : ((withHeld handles body).run heap).2.handles.slots < 2 ^ 32)
    (strands : ∀ held, heap.Held held handles → held.Strands (body.run held)) :
    heap.Strands ((withHeld handles body).run heap) := by
  by_cases live : ∀ handle ∈ handles, heap.isLive handle = true
  · obtain ⟨held, took, holding⟩ := sound.exists_held live
    have unique {other : Heap} (also : heap.Held other handles) : other = held :=
      (Prod.mk.inj (also.took.symm.trans took)).2
    have stranded := strands held holding
    rcases runs : body.run held with ⟨result, after⟩
    rw [runs] at stranded
    cases stranded with
    | steady during =>
        obtain ⟨_, _, _, _, _, _, ran, _, whole⟩ :=
          sound.withHeld_steady (fun _ => []) live room bounded (by
            intro other _ _ also again _
            obtain rfl := unique also
            rw [runs] at again
            cases again
            exact ⟨during, by simp⟩)
        rw [ran]
        exact .steady whole
    | @stranded error array _ new known counted during =>
        obtain ⟨_, _, next, _, also, again, ran, drops, whole⟩ :=
          sound.withHeld_steady (fun _ => [array]) live room bounded (by
            intro other _ _ also again _
            obtain rfl := unique also
            rw [runs] at again
            cases again
            exact ⟨during, by simpa using new⟩)
        rw [unique also, runs] at again
        cases again
        have fresh : heap.isLive array = false :=
          (holding.adds.recounts.isLive array).symm.trans new
        have unlisted : array ∉ handles := fun listed => ne_of_new (live array listed) fresh rfl
        have still : next.classOf array = after.classOf array := by
          unfold Heap.classOf
          rw [drops.recounts.objectOf]
        rw [ran]
        refine .stranded fresh (still.trans known) ?_ whole
        rw [drops.holds_unlisted unlisted, counted]
  · push Not at live
    obtain ⟨stale, member, dead⟩ := live
    exact sound.strands_stale tame room bounded member (Bool.eq_false_iff.mpr dead)

section

variable {key value : Handle} (room : heap.Holdable [table.handle, key, value])

include room

theorem Assured.makeRoom {count : UInt64}
    (assured : heap.Assured ((table.makeRoom count key value hash).run heap).2 []) :
    heap.Strands ((table.makeRoom count key value hash).run heap) := by
  have sound := assured.sound
  unfold RefTable.makeRoom at assured ⊢
  refine assured.strands_ask fun capacity _ assured => ?_
  rw [HeapM.run_bind, HeapM.run_get] at assured ⊢
  dsimp only at assured ⊢
  split at assured
  · next heavy =>
    rw [if_pos heavy]
    split at assured
    · next large =>
      rw [if_pos large]
      exact Strands.refl sound _
    · next fits =>
      rw [if_neg fits]
      have tame := table.tame_resize (capacity * 2) hash
      apply sound.strands_withHeld tame room assured.bounded
      intro held holding
      exact (holding.assured tame assured rfl).resize
  · next light =>
    rw [if_neg light]
    exact Strands.refl sound _

/-- Entering a new key strands at most the new bucket array of the table. -/
theorem Assured.insertNew {count : UInt64}
    (assured : heap.Assured ((table.makeRoom count key value hash >>= fun _ =>
      table.enter count key value hash).run heap).2 []) :
    heap.Strands ((table.makeRoom count key value hash >>= fun _ =>
      table.enter count key value hash).run heap) := by
  have stages := assured.stages (table.tame_makeRoom count key value hash)
    fun _ => table.tame_enter count key value hash
  have makes : heap.Assured ((table.makeRoom count key value hash).run heap).2 [] → _ :=
    Assured.makeRoom room
  generalize (table.makeRoom count key value hash >>= fun _ =>
    table.enter count key value hash).run heap = outcome at stages ⊢
  cases stages with
  | stopped ran assuredFirst =>
      rw [ran] at makes
      cases makes assuredFirst with
      | steady steady => exact .steady steady
      | stranded new known held steady => exact .stranded new known held steady
  | @went _ middle ran assuredFirst assuredRest =>
      rw [ran] at makes
      cases makes assuredFirst with
      | steady steady =>
          have same := fixes_enter unseen_standing table count key value hash middle
          exact .steady (steady.trans (assuredRest.sound.steady_of_standing same))

/-- An insertion strands at most the new bucket array of the table. -/
theorem Assured.insert
    (assured : heap.Assured ((table.insert key value hash).run heap).2 []) :
    heap.Strands ((table.insert key value hash).run heap) := by
  unfold RefTable.insert at assured ⊢
  refine assured.strands_ask fun _ _ assured => assured.strands_ask fun found _ assured => ?_
  rcases found with _ | ⟨buckets, index⟩
  · exact assured.strands_ask fun count _ assured => Assured.insertNew room assured
  · have same := fixes_replace unseen_standing buckets (valueIndex index) value heap
    exact .steady (assured.sound.steady_of_standing same)

/-- Whatever the keys and the storage of a table hold, an insertion in a reachable heap leaves
everything steady, or it fails and strands one new array. -/
theorem Reachable.strands_insert (reachable : heap.Reachable)
    (bounded : ((table.insert key value hash).run heap).2.handles.slots < 2 ^ 32) :
    heap.Strands ((table.insert key value hash).run heap) :=
  (reachable.assured bounded).insert room

end

/-- The holds balance, but for the array that a program strands when it fails. -/
theorem Strands.balances_except {α : Type} {result : Except HeapError α} {next : Heap}
    (strands : heap.Strands (result, next)) :
    heap.Balances next [] ∨ (∃ error, result = .error error) ∧
      ∃ array, next.classOf array = .ok .array ∧ heap.Balances next [array] := by
  cases strands with
  | steady steady => exact Or.inl (steady.balances_asked (by simp))
  | @stranded error array _ new known held steady =>
      exact Or.inr ⟨⟨error, rfl⟩, array, known, steady.balances_asked (by simpa using ⟨new, held⟩)⟩

end

end Heap

/-! ## Keys that appear -/

/-- One more entry is too many for the buckets that the table has. -/
def RefTable.Overloaded (table : RefTable) (heap : Heap) : Prop :=
  ∃ count capacity, table.countWord heap = .ok count ∧ table.capacityWord heap = .ok capacity ∧
    heap.config.overloaded (count + 1).toNat capacity.toNat = true

namespace Heap

section

variable {heap : Heap} (sound : heap.Sound) {fault : Fault} {hash : Key → UInt64}

include sound

theorem Sound.noFault_key (handle : Handle) : NoFault (Key.ofHandle heap handle) := by
  unfold Key.ofHandle
  apply (sound.noFault_classOf handle).bind
  intro id
  repeat' split
  · exact ((sound.noFault_scalar handle (by simp)).map _).bind fun _ => NoFault.ok _
  · exact (sound.noFault_scalar handle (by simp)).bind fun _ => NoFault.ok _
  · exact ((sound.noFault_scalar handle (by simp)).map _).bind fun _ => NoFault.ok _
  · exact (sound.noFault_char handle).bind fun _ => NoFault.ok _
  · exact (sound.noFault_string handle).bind fun _ => NoFault.ok _
  · exact NoFault.ok _

theorem Sound.noFault_sameKey (first second : Handle) : NoFault (Key.same heap first second) := by
  unfold Key.same
  split
  · exact NoFault.ok _
  · apply (sound.noFault_classOf first).bind
    intro firstClass
    apply (sound.noFault_classOf second).bind
    intro secondClass
    split
    · exact (sound.noFault_key first).bind fun _ => (sound.noFault_key second).bind fun _ =>
        NoFault.ok _
    · exact NoFault.ok _

/-- The only fault that a search can meet is that it does not end. -/
theorem Sound.fault_probeFrom {buckets : RefArray} {mask index : UInt64} {key : Handle}
    {steps : Nat} (failed : probeFrom heap buckets mask key index steps = .error (.fault fault)) :
    fault = .endlessProbe := by
  induction steps generalizing index with
  | zero =>
      cases failed
      rfl
  | succ steps ih =>
      rcases bind_eq_error_iff.mp failed with missing | ⟨existing, _, failed⟩
      · exact absurd missing (RefArray.noFault_get sound buckets (keyIndex index) fault)
      · cases existing with
        | none => cases failed
        | some existing =>
            rcases bind_eq_error_iff.mp failed with unlike | ⟨same, _, failed⟩
            · exact absurd unlike (sound.noFault_sameKey existing key fault)
            · cases same with
              | true => cases failed
              | false => exact ih failed

theorem Sound.fault_find? {table : RefTable} {key : Handle}
    (failed : table.find? heap key hash = .error (.fault fault)) : fault = .endlessProbe := by
  rcases bind_eq_error_iff.mp failed with missing | ⟨buckets, _, failed⟩
  · exact absurd missing (noFault_buckets sound table fault)
  rcases bind_eq_error_iff.mp failed with missing | ⟨capacity, _, failed⟩
  · exact absurd missing (sound.noFault_readWord _ _ fault)
  rcases bind_eq_error_iff.mp failed with unfound | ⟨probed, _, failed⟩
  · rcases bind_eq_error_iff.mp unfound with homeless | ⟨start, _, unfound⟩
    · exact absurd homeless (((sound.noFault_key key).bind fun _ => NoFault.ok _) fault)
    · exact sound.fault_probeFrom unfound
  · cases probed <;> cases failed

omit sound in
/-- A search that misses a key ends at a vacant bucket. -/
theorem vacant_of_find? {table : RefTable} {key : Handle}
    (missed : table.find? heap key hash = .ok none) :
    ∃ buckets capacity index, table.buckets heap = .ok buckets ∧
      table.capacityWord heap = .ok capacity ∧
      probe heap buckets capacity key hash = .ok (.vacant index) := by
  obtain ⟨buckets, stored, missed⟩ := bind_eq_ok_iff.mp missed
  obtain ⟨capacity, sized, missed⟩ := bind_eq_ok_iff.mp missed
  obtain ⟨probed, ended, missed⟩ := bind_eq_ok_iff.mp missed
  cases probed with
  | found _ => cases missed
  | vacant index => exact ⟨buckets, capacity, index, stored, sized, ended⟩

omit sound in
/-- A table that is not overloaded has room already. -/
theorem run_makeRoom_of_light {table : RefTable} {count capacity : UInt64} (key value : Handle)
    (counted : table.countWord heap = .ok count) (sized : table.capacityWord heap = .ok capacity)
    (light : ¬ table.Overloaded heap) :
    (table.makeRoom count key value hash).run heap = (.ok (), heap) := by
  have roomy : ¬ heap.config.overloaded (count + 1).toNat capacity.toNat = true :=
    fun heavy => light ⟨count, capacity, counted, sized, heavy⟩
  unfold makeRoom
  rw [HeapM.run_bind, HeapM.run_ask, sized]
  dsimp only
  rw [HeapM.run_bind, HeapM.run_get]
  dsimp only
  rw [if_neg roomy]
  rfl

/-- A key that the search has missed can appear only after the table has grown. -/
theorem Sound.overloaded_of_keyAppeared {table : RefTable} {key value owner : Handle} {next : Heap}
    (ran : (table.insert key value hash).run heap = (.error (.fault (.keyAppeared owner)), next))
    (bounded : next.handles.slots < 2 ^ 32) : table.Overloaded heap := by
  -- what writes the entry meets no fault
  have sure {α : Type} {program : HeapM α} (sturdy : Sturdy program)
      (failed : program.run heap = (.error (.fault (.keyAppeared owner)), next)) : False := by
    have noFault := sturdy.sure heap sound
    rw [failed] at noFault
    exact noFault bounded _ rfl
  rcases HeapM.run_ask_bind_eq_error ran with classless | ⟨_, _, ran⟩
  · exact absurd classless (sound.noFault_classOf value _)
  rcases HeapM.run_ask_bind_eq_error ran with unsearched | ⟨found, searched, ran⟩
  · cases sound.fault_find? unsearched
  rcases found with _ | ⟨buckets, index⟩
  · rcases HeapM.run_ask_bind_eq_error ran with uncounted | ⟨count, counted, ran⟩
    · exact absurd uncounted (sound.noFault_readWord _ _ _)
    obtain ⟨buckets, capacity, index, stored, sized, ended⟩ := vacant_of_find? searched
    by_contra light
    -- the table stays as it is, so the second search ends where the first one did
    change (table.makeRoom count key value hash >>= fun _ =>
      table.enter count key value hash).run heap = _ at ran
    rw [HeapM.run_bind, run_makeRoom_of_light key value counted sized light] at ran
    dsimp only at ran
    unfold enter at ran
    rw [HeapM.run_bind, HeapM.run_ask, stored] at ran
    dsimp only at ran
    rw [HeapM.run_bind, HeapM.run_ask, sized] at ran
    dsimp only at ran
    rw [HeapM.run_bind, HeapM.run_ask, ended] at ran
    exact sure (((RefArray.sturdy_set _ _ _).bind fun _ => RefArray.sturdy_set _ _ _).bind fun _ =>
      (sturdy_writeWord _ _ _).bind fun _ => Sturdy.pure none) ran
  · rcases HeapM.run_ask_bind_eq_error ran with unread | ⟨previous, _, ran⟩
    · exact absurd unread (RefArray.noFault_get sound buckets _ _)
    · exact (sure ((RefArray.sturdy_set _ _ _).bind fun _ => Sturdy.pure previous) ran).elim

end

section

variable {heap : Heap} {hash : Key → UInt64} {table : RefTable} {key value : Handle}

/-- A question that goes before a program changes no standing. -/
theorem standing_ask {α β : Type} {question : Heap → Except HeapError α} {rest : α → HeapM β}
    (goes : ∀ answer, question heap = .ok answer →
      ((rest answer).run heap).2.standing = heap.standing) :
    ((HeapM.ask question >>= rest).run heap).2.standing = heap.standing := by
  rw [HeapM.run_bind, HeapM.run_ask]
  cases asked : question heap with
  | error error => rfl
  | ok answer => exact goes answer asked

/-- An insertion changes no standing while the table does not grow. -/
theorem standing_insert_of_light (light : ¬ table.Overloaded heap) :
    ((table.insert key value hash).run heap).2.standing = heap.standing := by
  unfold RefTable.insert
  refine standing_ask fun _ _ => standing_ask fun found _ => ?_
  rcases found with _ | ⟨buckets, index⟩
  · refine standing_ask fun count counted => ?_
    change ((table.makeRoom count key value hash >>= fun _ =>
      table.enter count key value hash).run heap).2.standing = _
    rw [HeapM.run_bind]
    cases sized : table.capacityWord heap with
    | error error =>
        unfold RefTable.makeRoom
        rw [HeapM.run_bind, HeapM.run_ask, sized]
    | ok capacity =>
        rw [run_makeRoom_of_light key value counted sized light]
        exact fixes_enter unseen_standing table count key value hash heap
  · exact fixes_replace unseen_standing buckets (valueIndex index) value heap

/-- How an insertion withstands what has been written into the keys and the storage of a table.
While the table does not grow the holds balance, and no key appears that the search has missed.  In
any case the holds balance but for one array, which is stranded if the insertion fails. -/
structure Withstands (heap : Heap) (table : RefTable)
    (outcome : Except HeapError (Option Handle) × Heap) : Prop where
  light : ¬ table.Overloaded heap → heap.Balances outcome.2 [] ∧
    ∀ owner, outcome.1 ≠ .error (.fault (.keyAppeared owner))
  except : heap.Balances outcome.2 [] ∨ (∃ error, outcome.1 = .error error) ∧
    ∃ array, outcome.2.classOf array = .ok .array ∧ heap.Balances outcome.2 [array]

/-- In every reachable heap an insertion withstands what has been written, if there is room for the
holds that it takes. -/
theorem Reachable.withstands_insert (reachable : heap.Reachable)
    (room : heap.Holdable [table.handle, key, value])
    (bounded : ((table.insert key value hash).run heap).2.handles.slots < 2 ^ 32) :
    heap.Withstands table ((table.insert key value hash).run heap) where
  light light := by
    have same : ((table.insert key value hash).run heap).2.standing = heap.standing :=
      standing_insert_of_light light
    have steady := reachable.sound.steady_of_standing same
    refine ⟨steady.balances_asked (by simp), fun owner appeared => light ?_⟩
    exact reachable.sound.overloaded_of_keyAppeared (Prod.ext appeared rfl) bounded
  except := (reachable.strands_insert room bounded).balances_except

end

/-! ## Rewritten keys of a small table -/

/-- A table of four buckets whose keys are the integers one, two and three. -/
def tabled : Heap :=
  let table : RefTable := ⟨⟨0, 0⟩⟩
  let made := ((RefTable.withCapacity 4).run (blank {})).2
  let first := ((allocInt 1).run made).2
  let second := ((allocInt 2).run first).2
  let third := ((allocInt 3).run second).2
  let one := ((table.insert ⟨3, 0⟩ ⟨3, 0⟩).run third).2
  let two := ((table.insert ⟨4, 0⟩ ⟨4, 0⟩).run one).2
  ((table.insert ⟨5, 0⟩ ⟨5, 0⟩).run two).2

theorem reachable_tabled : tabled.Reachable := by
  have start : (blank {}).Reachable := reachable_blank (by decide +kernel)
  have made := start.after (Operation.tableWithCapacity 4) (by decide +kernel)
  have first := made.after (Operation.allocInt 1) (by decide +kernel)
  have second := first.after (Operation.allocInt 2) (by decide +kernel)
  have third := second.after (Operation.allocInt 3) (by decide +kernel)
  have one :=
    third.after (Operation.tableInsert ⟨⟨0, 0⟩⟩ ⟨3, 0⟩ ⟨3, 0⟩ Key.hash) (by decide +kernel)
  have two := one.after (Operation.tableInsert ⟨⟨0, 0⟩⟩ ⟨4, 0⟩ ⟨4, 0⟩ Key.hash) (by decide +kernel)
  exact two.after (Operation.tableInsert ⟨⟨0, 0⟩⟩ ⟨5, 0⟩ ⟨5, 0⟩ Key.hash) (by decide +kernel)

/-- The word of a key is rewritten, and another integer is allocated. -/
def rewritten (key : Handle) (word : UInt64) (other : Int64) : Heap :=
  ((allocInt other).run ((writeWord key 0 word).run tabled).2).2

theorem reachable_repeated : (rewritten ⟨4, 0⟩ 1 4).Reachable := by
  have written := reachable_tabled.after (Operation.writeWord ⟨4, 0⟩ 0 1) (by decide +kernel)
  exact written.after (Operation.allocInt 4) (by decide +kernel)

theorem reachable_appearing : (rewritten ⟨3, 0⟩ 0 0).Reachable := by
  have written := reachable_tabled.after (Operation.writeWord ⟨3, 0⟩ 0 0) (by decide +kernel)
  exact written.after (Operation.allocInt 0) (by decide +kernel)

/-- The second key is made equal to the first one.  The next insertion finds that out while it
grows the table, and the holds balance but for the new bucket array. -/
theorem withstands_repeated :
    let heap := rewritten ⟨4, 0⟩ 1 4
    let outcome := ((⟨⟨0, 0⟩⟩ : RefTable).insert ⟨6, 0⟩ ⟨6, 0⟩).run heap
    heap.Reachable ∧ heap.Holdable [⟨0, 0⟩, ⟨6, 0⟩, ⟨6, 0⟩] ∧ outcome.2.handles.slots < 2 ^ 32 ∧
      RefTable.Overloaded ⟨⟨0, 0⟩⟩ heap ∧ heap.Withstands ⟨⟨0, 0⟩⟩ outcome := by
  have room : (rewritten ⟨4, 0⟩ 1 4).Holdable [⟨0, 0⟩, ⟨6, 0⟩, ⟨6, 0⟩] := by
    apply holdable_of_listed
    intro handle listed
    refine ⟨1, ?_, ?_⟩
    · revert handle
      decide +kernel
    · revert handle
      decide +kernel
  have bounded : (((⟨⟨0, 0⟩⟩ : RefTable).insert ⟨6, 0⟩ ⟨6, 0⟩).run
      (rewritten ⟨4, 0⟩ 1 4)).2.handles.slots < 2 ^ 32 := by
    decide +kernel
  exact ⟨reachable_repeated, room, bounded, ⟨3, 4, by decide +kernel⟩,
    Reachable.withstands_insert reachable_repeated room bounded⟩

/-- The second key is made equal to the first one, and the next insertion fails and leaves the new
bucket array held.  Or the first key is made zero, in a bucket where a search for zero does not
come by, and the next insertion of a zero finds it once it has grown the table. -/
theorem insert_amiss :
    let repeated := rewritten ⟨4, 0⟩ 1 4
    let stranding := ((⟨⟨0, 0⟩⟩ : RefTable).insert ⟨6, 0⟩ ⟨6, 0⟩).run repeated
    let appearing := rewritten ⟨3, 0⟩ 0 0
    repeated.Reachable ∧ stranding.1 = .error (.corrupt (.repeatedKey ⟨0, 0⟩)) ∧
      repeated.isLive ⟨7, 0⟩ = false ∧ stranding.2.holds ⟨7, 0⟩ = .ok 1 ∧
      appearing.Reachable ∧ (((⟨⟨0, 0⟩⟩ : RefTable).insert ⟨6, 0⟩ ⟨6, 0⟩).run appearing).1 =
        .error (.fault (.keyAppeared ⟨0, 0⟩)) :=
  ⟨reachable_repeated, by decide +kernel, by decide +kernel, by decide +kernel,
    reachable_appearing, by decide +kernel⟩

end Heap

end CompactingHeap
