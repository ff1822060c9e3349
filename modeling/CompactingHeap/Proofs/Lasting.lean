import CompactingHeap.Proofs.Classes
import CompactingHeap.Proofs.Generations
import CompactingHeap.Proofs.Programs

/-!
# Handles that last

Only a collection ends the life of a handle, so a handle lasts from one heap to another if it is
live after every collection in between.  A handle that has died is not live again before its slot
has been through all generations.  So if it is live at the end, and there were not that many
collections, then it has lasted.
-/

namespace CompactingHeap

namespace HandleTable

variable {α : Type}

/-- The slot is of a generation that is at most `count` later. -/
def Passes (count : Nat) (before after : Option (Entry α)) : Prop :=
  ∀ entry, before = some entry → ∃ passed ≤ count, ∃ slot,
    after = some ⟨entry.generation + passed.toUInt32, slot⟩

theorem Passes.of_same {before after : Option (Entry α)}
    (same : ∀ entry, before = some entry → ∃ slot, after = some ⟨entry.generation, slot⟩) :
    Passes 0 before after := by
  intro entry here
  obtain ⟨slot, there⟩ := same entry here
  exact ⟨0, Nat.le_refl _, slot, by rw [there]; simp⟩

theorem Passes.refl (entry : Option (Entry α)) : Passes 0 entry entry :=
  Passes.of_same fun occupant here => ⟨occupant.slot, here⟩

theorem Passes.trans {first second : Nat} {before middle after : Option (Entry α)}
    (one : Passes first before middle) (other : Passes second middle after) :
    Passes (first + second) before after := by
  intro entry here
  obtain ⟨passed, within, slot, there⟩ := one entry here
  obtain ⟨more, alsoWithin, last, finished⟩ := other _ there
  refine ⟨passed + more, Nat.add_le_add within alsoWithin, last, ?_⟩
  rw [finished, Nat.toUInt32_eq, Nat.toUInt32_eq, Nat.toUInt32_eq, UInt32.ofNat_add,
    UInt32.add_assoc]

/-- A slot that ages passes on to the next generation at most. -/
theorem Ages.passes {before after : Option (Entry α)} (ages : Ages before after) :
    Passes 1 before after := by
  cases ages with
  | kept =>
      intro entry here
      exact ⟨0, Nat.zero_le _, entry.slot, by rw [here]; simp⟩
  | @moved generation old new holds =>
      intro entry here
      cases here
      exact ⟨0, Nat.zero_le _, .live new holds, by simp⟩
  | @vacated generation old holds next =>
      intro entry here
      cases here
      exact ⟨1, Nat.le_refl _, .vacant next, rfl⟩

/-- Minting a handle does not change the generation of a slot. -/
theorem passes_mint {table next : HandleTable α} {address : α} {handle : Handle}
    (mints : table.mint address = (.ok handle, next)) (position : Nat) :
    Passes 0 table.entries[position]? next.entries[position]? := by
  apply Passes.of_same
  intro entry here
  have inside := (Array.getElem?_eq_some_iff.mp here).1
  unfold mint at mints
  split at mints
  · cases mints
    refine ⟨entry.slot, ?_⟩
    rw [Array.getElem?_push, if_neg (Nat.ne_of_lt inside), here]
  · next index _ =>
    split at mints
    · next generation chain found =>
      cases mints
      by_cases same : index.toNat = position
      · subst same
        rw [found] at here
        cases here
        exact ⟨_, Array.getElem?_setIfInBounds_self_of_lt inside⟩
      · exact ⟨entry.slot, (Array.getElem?_setIfInBounds_ne same).trans here⟩
    · cases mints

/-- Counting holds does not change the generation of a slot. -/
theorem passes_setSlot {table : HandleTable α} {handle : Handle} {address : α} {holds : UInt32}
    (found : table.find handle = .ok (address, holds)) (count : UInt32) (position : Nat) :
    Passes 0 table.entries[position]? (table.setSlot handle address count).entries[position]? := by
  apply Passes.of_same
  intro entry here
  have inside := (Array.getElem?_eq_some_iff.mp here).1
  unfold setSlot
  by_cases same : handle.index.toNat = position
  · subst same
    rw [find_eq_ok_iff.mp found] at here
    cases here
    exact ⟨_, Array.getElem?_setIfInBounds_self_of_lt inside⟩
  · exact ⟨entry.slot, (Array.getElem?_setIfInBounds_ne same).trans here⟩

end HandleTable

namespace Heap

open HandleTable

/-- A quiet step does not change the generation of a slot. -/
theorem Quiet.passes {heap next : Heap} (quiet : Quiet heap next) (sound : heap.Sound)
    (position : Nat) :
    Passes 0 heap.handles.entries[position]? next.handles.entries[position]? := by
  cases quiet with
  | @allocated descriptor extra layout laidOut place roomy _ handle finds ran =>
      rw [run_settle, finds.handles] at ran
      split at ran
      · next name handles mints =>
        cases ran
        exact passes_mint mints position
      · cases ran
  | refused laidOut ran =>
      obtain ⟨_, _, rfl⟩ := run_grow_eq_error ran
      exact Passes.refl _
  | abandoned ran =>
      obtain ⟨_, _, _, rfl, _⟩ := sound.collectNow_error ran
      exact Passes.refl _
  | retained ran =>
      obtain ⟨address, holds, found, rfl⟩ := HandleTable.retain_eq_ok ran
      exact passes_setSlot found _ position
  | released ran =>
      obtain ⟨address, holds, found, _, rfl⟩ := HandleTable.release_eq_ok ran
      exact passes_setSlot found _ position
  | _ => exact Passes.refl _

/-- A slot passes on to the next generation once in a collection at most. -/
theorem Course.passes {heap last : Heap} {log : List (Heap × Heap)} (course : Course heap log last)
    (sound : heap.Sound) (bounded : last.handles.slots < 2 ^ 32) (position : Nat) :
    Passes log.length heap.handles.entries[position]? last.handles.entries[position]? := by
  induction course with
  | done heap => exact Passes.refl _
  | @quiet heap next last log step rest ih =>
      have calm := step.calm sound (Nat.lt_of_le_of_lt rest.slots_le bounded)
      have both := (step.passes sound position).trans (ih calm.sound bounded)
      rwa [Nat.zero_add] at both
  | @collected heap next last log ran rest ih =>
      obtain ⟨live, compacts⟩ := sound.compacts ran
      have ages := heap.ages_collectNow position
      rw [ran] at ages
      have both := ages.passes.trans (ih (compacts.sound sound) bounded)
      rwa [Nat.add_comm] at both

/-- Along a course a live handle lasts, or its slot passes on to a later generation. -/
theorem Course.lasts_or_passes {heap last : Heap} {log : List (Heap × Heap)}
    (course : Course heap log last) (sound : heap.Sound)
    (bounded : last.handles.slots < 2 ^ 32) {handle : Handle} (live : heap.isLive handle = true) :
    (∀ start finish, (start, finish) ∈ log → finish.isLive handle = true) ∨
      ∃ passed slot, passed < log.length ∧ last.handles.entries[handle.index.toNat]? =
        some ⟨handle.generation + 1 + passed.toUInt32, slot⟩ := by
  induction course with
  | done heap => exact Or.inl fun _ _ member => by cases member
  | @quiet heap next last log step rest ih =>
      have calm := step.calm sound (Nat.lt_of_le_of_lt rest.slots_le bounded)
      exact ih calm.sound bounded (calm.keeps handle live)
  | @collected heap next last log ran rest ih =>
      obtain ⟨living, compacts⟩ := sound.compacts ran
      have nextSound := compacts.sound sound
      have ages := heap.ages_collectNow handle.index.toNat
      rw [ran] at ages
      obtain ⟨address, holds, found⟩ := HandleTable.isLive_iff.mp live
      rcases ages.cases_of_find found with ⟨moved, still⟩ | ⟨chain, vacant⟩
      · have alive : next.isLive handle = true := HandleTable.isLive_iff.mpr ⟨moved, holds, still⟩
        rcases ih nextSound bounded alive with lasts | ⟨passed, slot, within, there⟩
        · left
          intro start finish member
          rcases List.mem_cons.mp member with same | member
          · cases same
            exact alive
          · exact lasts start finish member
        · exact Or.inr ⟨passed, slot, Nat.lt_succ_of_lt within, there⟩
      · obtain ⟨passed, within, slot, there⟩ :=
          rest.passes nextSound bounded handle.index.toNat _ vacant
        exact Or.inr ⟨passed, slot, Nat.lt_succ_of_le within, there⟩

/-- A handle that is live at both ends of a course has lasted, unless there were `2 ^ 32`
collections. -/
theorem Course.lasts {heap last : Heap} {log : List (Heap × Heap)} (course : Course heap log last)
    (sound : heap.Sound) (bounded : last.handles.slots < 2 ^ 32) {handle : Handle}
    (live : heap.isLive handle = true) (still : last.isLive handle = true)
    (few : log.length < 2 ^ 32) :
    ∀ start finish, (start, finish) ∈ log → finish.isLive handle = true := by
  rcases course.lasts_or_passes sound bounded live with lasts | ⟨passed, slot, within, there⟩
  · exact lasts
  · obtain ⟨address, holds, found⟩ := HandleTable.isLive_iff.mp still
    rw [find_eq_ok_iff.mp found] at there
    have same := congrArg (fun entry => (Entry.generation entry).toNat) (Option.some.inj there)
    have bound := handle.generation.toNat_lt
    simp only [UInt32.toNat_add, Nat.toUInt32_eq, UInt32.toNat_ofNat', UInt32.reduceToNat] at same
    omega

/-- The handles last from one heap to another: after every collection on the way they are live. -/
def Lasting (heap next : Heap) (handles : List Handle) : Prop :=
  ∀ log, Course heap log next → ∀ start finish, (start, finish) ∈ log →
    ∀ handle ∈ handles, finish.isLive handle = true

section

variable {heap middle next : Heap} {handles : List Handle} {log : List (Heap × Heap)}

/-- What lasts over two courses lasts over the first one. -/
theorem Lasting.left (lasting : heap.Lasting next handles) (course : Course middle log next) :
    heap.Lasting middle handles := by
  intro before first start finish member
  exact lasting _ (first.trans course) start finish (List.mem_append_left _ member)

/-- What lasts over two courses lasts over the second one. -/
theorem Lasting.right (lasting : heap.Lasting next handles) (course : Course heap log middle) :
    middle.Lasting next handles := by
  intro after second start finish member
  exact lasting _ (course.trans second) start finish (List.mem_append_right _ member)

/-- A live handle that lasts is live at the end. -/
theorem Lasting.isLive (lasting : heap.Lasting next handles) (course : Course heap log next)
    (sound : heap.Sound) (bounded : next.handles.slots < 2 ^ 32) {handle : Handle}
    (listed : handle ∈ handles) (live : heap.isLive handle = true) : next.isLive handle = true := by
  have alive : ∀ start finish, (start, finish) ∈ log → finish.isLive handle = true :=
    fun start finish member => lasting log course start finish member handle listed
  clear lasting
  induction course with
  | done heap => exact live
  | @quiet heap next last log step rest ih =>
      have calm := step.calm sound (Nat.lt_of_le_of_lt rest.slots_le bounded)
      exact ih calm.sound bounded (calm.keeps handle live) alive
  | @collected heap next last log ran rest ih =>
      obtain ⟨living, compacts⟩ := sound.compacts ran
      apply ih (compacts.sound sound) bounded (alive _ _ List.mem_cons_self)
      intro start finish member
      exact alive start finish (List.mem_cons_of_mem _ member)

theorem lasting_nil (heap next : Heap) : heap.Lasting next [] :=
  fun _ _ _ _ _ _ member => absurd member List.not_mem_nil

/-- Handles that are live at both ends have lasted, unless there were `2 ^ 32` collections. -/
theorem lasting_of_isLive (sound : heap.Sound) (bounded : next.handles.slots < 2 ^ 32)
    (few : next.counters.collections < heap.counters.collections + 2 ^ 32)
    (live : ∀ handle ∈ handles, heap.isLive handle = true)
    (still : ∀ handle ∈ handles, next.isLive handle = true) : heap.Lasting next handles := by
  intro log course start finish member handle listed
  have counted := (course.traced sound bounded).collections
  exact course.lasts sound bounded (live handle listed) (still handle listed) (by omega)
    start finish member

/-- Without collections everything lasts. -/
theorem lasting_of_counter (sound : heap.Sound) (bounded : next.handles.slots < 2 ^ 32)
    (none : next.counters.collections = heap.counters.collections) :
    heap.Lasting next handles := by
  intro log course start finish member
  have counted := (course.traced sound bounded).collections
  have empty : log = [] := List.length_eq_zero_iff.mp (by omega)
  rw [empty] at member
  cases member

end

/-! ## Runs during which handles last -/

/-- What is assumed of a run: it starts in a sound heap with numbered classes, it stays within the
bound on handle slots, and the given handles last. -/
structure Assured (heap next : Heap) (handles : List Handle) : Prop where
  sound : heap.Sound
  numbered : heap.classes.Numbered
  bounded : next.handles.slots < 2 ^ 32
  lasting : heap.Lasting next handles

/-- Of a run in a reachable heap nothing more is assumed than the bound. -/
theorem Reachable.assured {heap next : Heap} (reachable : heap.Reachable)
    (bounded : next.handles.slots < 2 ^ 32) : heap.Assured next [] :=
  ⟨reachable.sound, reachable.settings.2, bounded, lasting_nil heap next⟩

/-- Fewer handles may be said to last. -/
theorem Assured.mono {heap next : Heap} {handles fewer : List Handle}
    (assured : heap.Assured next handles) (within : fewer ⊆ handles) :
    heap.Assured next fewer where
  sound := assured.sound
  numbered := assured.numbered
  bounded := assured.bounded
  lasting log course start finish member handle listed :=
    assured.lasting log course start finish member handle (within listed)

section

variable {α β : Type} {heap next : Heap} {handles : List Handle}

/-- A program leaves a heap that later runs may start in. -/
theorem Assured.after {program : HeapM α} (assured : heap.Assured (program.run heap).2 handles)
    (tame : Tame program) :
    (program.run heap).2.Sound ∧ (program.run heap).2.classes.Numbered := by
  obtain ⟨log, course⟩ := tame.course heap assured.sound assured.bounded
  exact ⟨(course.traced assured.sound assured.bounded).sound,
    (course.settings assured.sound assured.bounded).2 assured.numbered⟩

/-- The handles that last are live after the run of a program. -/
theorem Assured.isLive {program : HeapM α} (assured : heap.Assured (program.run heap).2 handles)
    (tame : Tame program) {handle : Handle} (listed : handle ∈ handles)
    (live : heap.isLive handle = true) : (program.run heap).2.isLive handle = true := by
  obtain ⟨log, course⟩ := tame.course heap assured.sound assured.bounded
  exact assured.lasting.isLive course assured.sound assured.bounded listed live

/-- A run of one program after another stops in the first one, or goes on with the second one.
What is assumed of the whole run holds of the parts. -/
inductive Stages (heap : Heap) (handles : List Handle) (first : HeapM α) (rest : α → HeapM β) :
    Except HeapError β × Heap → Prop
  | stopped {error : HeapError} {middle : Heap} :
      first.run heap = (.error error, middle) → heap.Assured middle handles →
        Stages heap handles first rest (.error error, middle)
  | went {value : α} {middle : Heap} :
      first.run heap = (.ok value, middle) → heap.Assured middle handles →
        middle.Assured ((rest value).run middle).2 handles →
        Stages heap handles first rest ((rest value).run middle)

theorem Assured.stages {first : HeapM α} {rest : α → HeapM β}
    (assured : heap.Assured ((first >>= rest).run heap).2 handles) (tame : Tame first)
    (tameRest : ∀ value, Tame (rest value)) :
    Stages heap handles first rest ((first >>= rest).run heap) := by
  rw [HeapM.run_bind] at assured ⊢
  rcases ran : first.run heap with ⟨error | value, middle⟩
  · rw [ran] at assured
    exact Stages.stopped ran assured
  · rw [ran] at assured
    dsimp only at assured ⊢
    have small := Nat.lt_of_le_of_lt ((tameRest value).grows middle) assured.bounded
    have begins := tame.course heap assured.sound (by rw [ran]; exact small)
    rw [ran] at begins
    obtain ⟨log, before⟩ := begins
    have middleSound := (before.traced assured.sound small).sound
    have numbered := (before.settings assured.sound small).2 assured.numbered
    obtain ⟨later, after⟩ := (tameRest value).course middle middleSound assured.bounded
    exact Stages.went ran
      ⟨assured.sound, assured.numbered, small, assured.lasting.left after⟩
      ⟨middleSound, numbered, assured.bounded, assured.lasting.right before⟩

end

end Heap

end CompactingHeap
