import CompactingHeap.Proofs.Interning
import CompactingHeap.Proofs.Tending

/-!
# Holds balance

A program that makes or writes containers holds its operands and what it has made so far while it
allocates.  Whether it succeeds or fails, it gives all these holds back: what was there before is
held as before, what the caller asked for is held once, and nothing else that is new is held.  What
a failed program leaves behind goes with the next collection that completes.
-/

namespace CompactingHeap

open Heap

namespace Heap

/-! ## Balances -/

/-- How the holds after a program compare with those before it, where the caller has asked for some
of the new objects. -/
structure Balances (heap next : Heap) (asked : List Handle) : Prop where
  old : ∀ handle, heap.isLive handle = true → next.isLive handle = true →
    next.holds handle = heap.holds handle
  given : ∀ handle ∈ asked, heap.isLive handle = false ∧ next.holds handle = .ok 1
  internal : ∀ handle, handle ∉ asked → heap.isLive handle = false → next.isLive handle = true →
    next.holds handle = .ok 0

/-- A scanner reports the object, or it can be reached from one that a scanner reports. -/
inductive Scanned (heap : Heap) : Handle → Prop
  | reported {scanner : Scanner} {handle : Handle} :
      scanner ∈ heap.roots.scanners → handle ∈ scanner.report → Scanned heap handle
  | field {handle target : Handle} {offset : Nat} :
      Scanned heap handle → heap.readRef handle offset = .ok (some target) → Scanned heap target
  | element {handle target : Handle} {index : Nat} :
      Scanned heap handle → heap.runGet handle index = .ok (some target) → Scanned heap target

/-- A program that fails gives its holds back.  What is new then is interned, or scanned, or
reclaimed by a collection. -/
structure GivesBack (heap next : Heap) : Prop extends Balances heap next [] where
  reclaims : ∀ finish, collect.run next = (.ok (), finish) → ∀ handle,
    heap.isLive handle = false → next.isLive handle = true → next.isInterned handle = false →
      ¬ next.Scanned handle → finish.isLive handle = false

/-- The holds balance, whether the program has succeeded or failed. -/
inductive HoldsBalance (heap : Heap) {α : Type} (asked : α → List Handle) :
    Except HeapError α × Heap → Prop
  | succeeded {value : α} {next : Heap} :
      heap.Balances next (asked value) → HoldsBalance heap asked (.ok value, next)
  | failed {error : HeapError} {next : Heap} :
      heap.GivesBack next → HoldsBalance heap asked (.error error, next)

section

variable {heap next : Heap}

/-- A live object that is not held has no holds. -/
theorem Unheld.holds {handle : Handle} (unheld : heap.Unheld handle)
    (live : heap.isLive handle = true) : heap.holds handle = .ok 0 := by
  obtain ⟨address, count, found⟩ := HandleTable.isLive_iff.mp live
  have counted := holds_of_find found
  rw [counted, unheld count counted]

/-- What leaves everything steady but the objects asked for has balanced holds. -/
theorem Steady.balances_asked {asked : List Handle} (steady : heap.Steady next asked)
    (new : ∀ handle ∈ asked, heap.isLive handle = false ∧ next.holds handle = .ok 1) :
    heap.Balances next asked where
  old handle live still := by
    have unlisted : handle ∉ asked := by
      intro listed
      have dead := (new handle listed).1
      rw [live] at dead
      cases dead
    by_cases grasped : heap.Grasped handle
    · exact (steady.grasped handle unlisted grasped).2.2
    · have unheld : heap.Unheld handle := by
        intro count counted
        by_contra positive
        exact grasped (Or.inr ⟨count, counted, UInt32.pos_iff_ne_zero.mpr positive⟩)
      rw [unheld.holds live, (steady.unheld handle unlisted unheld).holds still]
  given := new
  internal handle unlisted stale live :=
    (steady.unheld handle unlisted (unheld_of_stale stale)).holds live

theorem refers_of_readRef {handle target : Handle} {view : View} {offset : Nat}
    (seen : heap.view? handle = some view) (read : heap.readRef handle offset = .ok (some target)) :
    view.Refers target := by
  rw [readRef_of_view seen] at read
  split at read
  · exact Or.inl ⟨offset, Except.ok.inj read⟩
  · cases read

theorem refers_of_runGet {handle target : Handle} {view : View} {index : Nat}
    (seen : heap.view? handle = some view) (read : heap.runGet handle index = .ok (some target)) :
    view.Refers target := by
  rw [runGet_of_view seen] at read
  split at read
  · split at read
    · next element found =>
      cases read
      exact Or.inr (List.mem_of_getElem? found)
    · cases read
  · cases read

/-- Where everything has been undone, an object that was there refers only to objects that were. -/
theorem Undone.isLive_of_refers (undone : heap.Undone next) {handle target : Handle} {view : View}
    (live : heap.isLive handle = true) (seen : next.view? handle = some view)
    (refers : view.Refers target) : heap.isLive target = true := by
  obtain ⟨new, fresh, leaves⟩ := undone.leaves
  have still := isLive_of_view seen
  have old : handle ∉ new := by
    intro listed
    have stale := fresh handle listed still
    rw [live] at stale
    cases stale
  have before := leaves.views handle old List.not_mem_nil still
  exact Heap.isLive_of_refers (before.symm.trans seen) refers

/-- Where everything has been undone, only what is scanned can be both new and kept. -/
theorem Undone.isLive_or_scanned (undone : heap.Undone next) (sound : heap.Sound)
    (nextSound : next.Sound) {handle : Handle} (kept : next.Kept handle) :
    heap.isLive handle = true ∨ next.Scanned handle := by
  induction kept with
  | registered member =>
      rw [undone.steady.roots] at member
      exact Or.inl (sound.isLive_of_kept (Kept.registered member))
  | reported member reported live => exact Or.inr (Scanned.reported member reported)
  | @held handle count counted positive =>
      left
      rw [← Bool.not_eq_false]
      intro stale
      have unheld := undone.steady.unheld handle List.not_mem_nil (unheld_of_stale stale)
      rw [unheld count counted] at positive
      exact absurd positive (by decide)
  | @interned bytes handle listed =>
      obtain ⟨new, fresh, leaves⟩ := undone.leaves
      unfold lookupInterned at listed
      rw [leaves.interner] at listed
      exact Or.inl (sound.isLive_of_kept (Kept.interned listed))
  | field kept read ih =>
      rcases ih with live | scanned
      · obtain ⟨view, seen⟩ := nextSound.isLive_iff.mp (nextSound.isLive_of_kept kept)
        exact Or.inl (undone.isLive_of_refers live seen (refers_of_readRef seen read))
      · exact Or.inr (scanned.field read)
  | element kept read ih =>
      rcases ih with live | scanned
      · obtain ⟨view, seen⟩ := nextSound.isLive_iff.mp (nextSound.isLive_of_kept kept)
        exact Or.inl (undone.isLive_of_refers live seen (refers_of_runGet seen read))
      · exact Or.inr (scanned.element read)

/-- What undoes everything gives its holds back. -/
theorem Undone.givesBack (undone : heap.Undone next) (sound : heap.Sound) (nextSound : next.Sound) :
    heap.GivesBack next where
  toBalances := undone.steady.balances_asked (by simp)
  reclaims finish collected handle stale _ _ unscanned := by
    obtain ⟨live, compacts⟩ := nextSound.compacts collected
    rw [← Bool.not_eq_true, (compacts.reclaims_of_sound nextSound).survives]
    intro kept
    rcases undone.isLive_or_scanned sound nextSound kept with alive | scanned
    · rw [stale] at alive
      cases alive
    · exact unscanned scanned

/-- A program that leaves the heap alone gives all its holds back. -/
theorem Sound.givesBack_refl (sound : heap.Sound) : heap.GivesBack heap :=
  (Undone.refl sound).givesBack sound sound

end

section

variable {heap : Heap} {α : Type} {asked : α → List Handle}

/-- Giving an answer does not change the heap. -/
theorem snd_run_return {β : Type} (program : HeapM α) (answer : β) :
    ((program >>= fun _ => pure answer).run heap).2 = (program.run heap).2 := by
  rw [HeapM.run_bind]
  rcases program.run heap with ⟨_ | _, _⟩ <;> rfl

/-- The holds of a program balance if those of the program balance that goes on to give an
answer. -/
theorem HoldsBalance.of_return {β : Type} {program : HeapM α} {answer : β}
    (balance : heap.HoldsBalance (fun _ : β => []) ((program >>= fun _ => pure answer).run heap)) :
    heap.HoldsBalance (fun _ : α => []) (program.run heap) := by
  rw [HeapM.run_bind] at balance
  generalize program.run heap = result at balance ⊢
  rcases result with ⟨error | value, next⟩
  · cases balance with
    | failed givesBack => exact .failed givesBack
  · cases balance with
    | succeeded balances => exact .succeeded balances

/-- An allocation that keeps its operands balances its holds. -/
theorem Allocating.holdsBalance {view : View} {program : HeapM Handle}
    (allocating : heap.Allocating view (program.run heap)) (tame : Tame program)
    (sound : heap.Sound) (bounded : (program.run heap).2.handles.slots < 2 ^ 32) :
    heap.HoldsBalance (fun handle => [handle]) (program.run heap) := by
  have nextSound := tame.sound sound bounded
  generalize program.run heap = result at allocating nextSound
  cases allocating with
  | placed allocates =>
      apply HoldsBalance.succeeded
      apply (allocates.steady sound nextSound).balances_asked
      simpa using ⟨allocates.new, allocates.held⟩
  | refused retains => exact .failed ((retains.undone sound nextSound).givesBack sound nextSound)

/-- A question takes no holds. -/
theorem holdsBalance_ask (sound : heap.Sound) (question : Heap → Except HeapError α) :
    heap.HoldsBalance (fun _ => []) ((HeapM.ask question).run heap) := by
  rw [HeapM.run_ask]
  cases question heap with
  | error error => exact .failed sound.givesBack_refl
  | ok value => exact .succeeded sound.givesBack_refl.toBalances

/-! ## Pairs -/

/-- Making a pair balances its holds. -/
theorem Sound.holdsBalance_cons (sound : heap.Sound) {car cdr : Option Handle}
    (room : heap.Holdable (car.toList ++ cdr.toList))
    (bounded : ((cons car cdr).run heap).2.handles.slots < 2 ^ 32) :
    heap.HoldsBalance (fun cell => [cell]) ((cons car cdr).run heap) := by
  by_cases live : ∀ handle ∈ car.toList ++ cdr.toList, heap.isLive handle = true
  · refine Allocating.holdsBalance (sound.allocating_cons ?_ ?_ room bounded) (tame_cons car cdr)
      sound bounded
    · exact fun handle here => live handle (by simp [here])
    · exact fun handle here => live handle (by simp [here])
  · push Not at live
    obtain ⟨stale, member, dead⟩ := live
    obtain ⟨handle, _, _, next, ran, same⟩ :=
      withHeld_of_stale (allocate .cons 0) member (Bool.eq_false_iff.mpr dead) room
    have nextSound := (tame_withHeld _ (tame_allocate .cons 0)).sound sound
      (by rw [ran, same.recounts.slots]; exact sound.bounded)
    rw [run_cons, HeapM.run_bind, ran]
    rw [ran] at nextSound
    exact .failed ((same.undone sound nextSound).givesBack sound nextSound)

end

end Heap

/-! ## Containers -/

namespace Heap

section

variable {heap : Heap} {elements : List (Option Handle)} {capacity : Nat}

/-- Making an array balances its holds. -/
theorem Makes.holdsBalance {result : Except HeapError RefArray × Heap}
    (makes : heap.Makes elements capacity result) (sound : heap.Sound)
    (nextSound : result.2.Sound) :
    heap.HoldsBalance (fun array => [array.handle]) result := by
  cases makes with
  | @made array storage next made =>
      apply HoldsBalance.succeeded
      apply made.steady.balances_asked
      simpa using ⟨made.new array.handle List.mem_cons_self, made.held⟩
  | refused undone _ => exact .failed (undone.givesBack sound nextSound)

/-- A change of an array balances its holds. -/
theorem Changes.holdsBalance {array : RefArray} {change : RefArray.Change}
    {result : Except HeapError (Option Handle) × Heap}
    (changes : heap.Changes array elements capacity change result)
    (room : heap.Holdable (change.held array)) (sound : heap.Sound) (nextSound : result.2.Sound) :
    heap.HoldsBalance (fun _ => []) result := by
  cases changes with
  | refused _ => exact .failed sound.givesBack_refl
  | done _ _ _ steady => exact .succeeded ((steady room).balances_asked (by simp))
  | failed _ _ _ undone => exact .failed ((undone room).givesBack sound nextSound)

end

end Heap

namespace RefArray

variable {heap : Heap} {array : RefArray}

/-- A change of a usable array balances its holds. -/
theorem Usable.holdsBalance (usable : array.Usable heap) (change : Change)
    (room : heap.Holdable (change.held array))
    (bounded : ((change.program array).run heap).2.handles.slots < 2 ^ 32) :
    heap.HoldsBalance (fun _ => []) ((change.program array).run heap) := by
  rcases usable with tended | ⟨derived, stale⟩
  · obtain ⟨derived, elements, capacity, storage, owns⟩ := tended.owns
    have changes := owns.change change (Or.inl room)
      (derived.assured bounded (lasting_nil heap _))
    exact changes.holdsBalance room derived.sound
      ((change.tame_program array).sound derived.sound bounded)
  · obtain ⟨error, failed⟩ := change_stale derived.sound stale change
    rw [failed]
    exact .failed derived.sound.givesBack_refl

end RefArray

namespace Heap

section

variable {heap : Heap} {hash : Key → UInt64}

/-- Making a table balances its holds. -/
theorem MakesTable.holdsBalance {capacity : Nat} {result : Except HeapError RefTable × Heap}
    (makes : heap.MakesTable hash capacity result) (sound : heap.Sound)
    (nextSound : result.2.Sound) :
    heap.HoldsBalance (fun table => [table.handle]) result := by
  cases makes with
  | made _ made =>
      apply HoldsBalance.succeeded
      apply made.steady.balances_asked
      simpa using ⟨made.new, made.held⟩
  | refused undone => exact .failed (undone.givesBack sound nextSound)

/-- A change of a table balances its holds. -/
theorem ChangesBins.holdsBalance {table : RefTable} {bins : RefTable.Bins}
    {change : RefTable.Change} {result : Except HeapError (Option Handle) × Heap}
    (changes : heap.ChangesBins hash table bins change result)
    (room : heap.Holdable (change.held table)) (sound : heap.Sound) (nextSound : result.2.Sound) :
    heap.HoldsBalance (fun _ => []) result := by
  cases changes with
  | refused _ _ => exact .failed sound.givesBack_refl
  | done _ _ _ _ _ steady => exact .succeeded ((steady room).balances_asked (by simp))
  | failed _ _ _ undone => exact .failed ((undone room).givesBack sound nextSound)

end

end Heap

namespace RefTable

variable {heap : Heap} {table : RefTable} {hash : Key → UInt64}

/-- A change of a usable table balances its holds. -/
theorem Usable.holdsBalance (usable : table.Usable hash heap) (change : Change)
    (room : heap.Holdable (change.held table))
    (bounded : ((change.program table hash).run heap).2.handles.slots < 2 ^ 32) :
    heap.HoldsBalance (fun _ => []) ((change.program table hash).run heap) := by
  have untouched (derived : heap.Derived) {error : HeapError}
      (failed : (change.program table hash).run heap = (.error error, heap)) :
      heap.HoldsBalance (fun _ => []) ((change.program table hash).run heap) := by
    rw [failed]
    exact .failed derived.sound.givesBack_refl
  rcases usable with tended | ⟨derived, stale⟩
  · obtain ⟨derived, inOrder⟩ := tended.inOrder
    cases inOrder with
    | owned loadable owns =>
        have changes := owns.change loadable change (Or.inl room)
          (derived.assured bounded (lasting_nil heap _))
        exact changes.holdsBalance room derived.sound
          ((change.tame_program table hash).sound derived.sound bounded)
    | bare bare =>
        obtain ⟨error, failed⟩ := bare.change change hash
        exact untouched derived failed
  · obtain ⟨error, failed⟩ := change_stale derived.sound stale change hash
    exact untouched derived failed

end RefTable

/-! ## Interned strings -/

namespace Heap

/-- A run that interns strings leaves everything else steady, and what is new is interned. -/
structure Coins (heap next : Heap) : Prop where
  steady : heap.Steady next []
  new : ∀ handle, heap.isLive handle = false → next.isLive handle = true →
    next.isInterned handle = true

theorem Coins.trans {heap middle next : Heap} (first : heap.Coins middle)
    (second : middle.Coins next) : heap.Coins next where
  steady := first.steady.trans second.steady
  new handle stale live := by
    cases between : middle.isLive handle with
    | false => exact second.new handle between live
    | true =>
        have interned := first.new handle stale between
        rw [(second.steady.grasped handle List.not_mem_nil (Or.inl interned)).2.1]
        exact interned

/-- An object that is held once becomes the canonical string for some bytes, and is not held any
more.  That is steady apart from the object. -/
theorem steady_publish {heap next : Heap} {bytes : Bytes} {handle : Handle} {address : Address}
    (sound : heap.Sound) (fresh : heap.interner.lookup bytes = none)
    (found : heap.handles.find handle = .ok (address, 1))
    (published : next = { heap with
      interner := heap.interner.insert bytes handle
      handles := heap.handles.setSlot handle address 0 }) :
    heap.Steady next [handle] := by
  have recounts := recounts_setSlot found 0
  have live (other : Handle) : next.isLive other = heap.isLive other := by
    rw [published]
    exact recounts.isLive other
  have holds (other : Handle) (unlisted : other ∉ [handle]) :
      next.holds other = heap.holds other := by
    rw [published]
    exact (holds_setSlot found 0 other).trans (if_neg fun same => unlisted (by simp [same]))
  have strings (other : Handle) : next.string other = heap.string other := by
    have objects : next.objectOf other = heap.objectOf other := by
      rw [published]
      exact recounts.objectOf other
    have classes : next.classes = heap.classes := by rw [published]
    unfold Heap.string expect
    rw [objects, classes]
  have interned (other : Handle) (unlisted : other ∉ [handle]) :
      next.isInterned other = heap.isInterned other := by
    have interner : next.interner = heap.interner.insert bytes handle := by rw [published]
    unfold Heap.isInterned
    rw [strings, interner]
    cases heap.string other with
    | error error => rfl
    | ok content =>
        dsimp only
        by_cases same : bytes = content
        · subst same
          have different : handle ≠ other := fun same => unlisted (by simp [same])
          rw [Interner.lookup_insert_self, fresh]
          simp [different]
        · rw [heap.interner.lookup_insert_of_ne handle same]
  constructor
  · intro other unlisted grasped
    exact ⟨(live other).trans (sound.isLive_of_kept grasped.kept), interned other unlisted,
      holds other unlisted⟩
  · intro other unlisted unheld
    unfold Unheld
    rw [holds other unlisted]
    exact unheld
  · rw [published]

/-- Where everything is steady and nothing is new, nothing need be interned. -/
theorem Steady.coins {heap next : Heap} (steady : heap.Steady next [])
    (old : ∀ handle, next.isLive handle = true → heap.isLive handle = true) : heap.Coins next where
  steady := steady
  new handle stale live := by
    rw [old handle live] at stale
    cases stale

/-- Interning a string makes it canonical, if it is new. -/
theorem Publishes.coins {heap : Heap} {bytes : Bytes} {result : Except HeapError Handle × Heap}
    (publishes : heap.Publishes bytes result) (sound : heap.Sound) (nextSound : result.2.Sound) :
    heap.Coins result.2 := by
  cases publishes with
  | found _ => exact (Steady.refl sound).coins fun _ => id
  | refused _ retains =>
      exact (retains.steady sound nextSound (by simp)).coins fun handle =>
        retains.live handle (by simp)
  | @published handle middle address fresh allocates middleSound found =>
      rw [← allocates.rest.interner] at fresh
      have publishing := steady_publish middleSound fresh found rfl
      have counted (other : Handle) := holds_setSlot found 0 other
      refine ⟨((allocates.steady sound middleSound).trans publishing).settle sound ?_, ?_⟩
      · intro other listed
        cases List.mem_singleton.mp listed
        refine ⟨allocates.new, ?_⟩
        intro count held
        have zero := (counted handle).trans (if_pos rfl)
        exact Except.ok.inj (held.symm.trans zero)
      · intro other stale live
        by_cases same : other = handle
        · subst same
          exact (allocates.canonical found).isInterned
        · have before : middle.isLive other = true :=
            ((recounts_setSlot found 0).isLive other).symm.trans live
          rw [allocates.rest.live other (by simpa using same) before] at stale
          cases stale

/-- Every run of the program interns at most. -/
structure Coining {α : Type} (program : HeapM α) : Prop where
  tame : Tame program
  coins : ∀ heap, heap.Sound → (program.run heap).2.handles.slots < 2 ^ 32 →
    heap.Coins (program.run heap).2

namespace Coining

variable {α β : Type}

/-- A program that leaves the heap alone interns nothing. -/
theorem of_unchanged {program : HeapM α} (unchanged : ∀ heap, (program.run heap).2 = heap) :
    Coining program where
  tame := Tame.of_unchanged unchanged
  coins heap sound _ := by
    rw [unchanged]
    exact (Steady.refl sound).coins fun _ => id

protected theorem pure (value : α) : Coining (pure value : HeapM α) :=
  of_unchanged fun _ => rfl

protected theorem ask (question : Heap → Except HeapError α) : Coining (HeapM.ask question) :=
  of_unchanged fun heap => by rw [HeapM.run_ask]

/-- Such programs may run one after the other. -/
protected theorem bind {first : HeapM α} {next : α → HeapM β} (coining : Coining first)
    (rest : ∀ value, Coining (next value)) : Coining (first >>= next) where
  tame := coining.tame.bind fun value => (rest value).tame
  coins heap sound bounded := by
    have before := coining.coins heap sound
    have middleSound := coining.tame.sound sound
    rw [HeapM.run_bind] at bounded ⊢
    rcases ran : first.run heap with ⟨error | value, middle⟩
    · rw [ran] at before bounded
      exact before bounded
    · rw [ran] at before bounded middleSound
      have small := Nat.lt_of_le_of_lt ((rest value).tame.grows middle) bounded
      exact (before small).trans ((rest value).coins middle (middleSound small) bounded)

theorem intern (bytes : Bytes) : Coining (Heap.intern bytes) where
  tame := tame_intern bytes
  coins _ sound bounded :=
    (sound.publishes bytes bounded).coins sound ((tame_intern bytes).sound sound bounded)

theorem qualify (scope name : Handle) : Coining (Heap.qualify scope name) := by
  unfold Heap.qualify
  apply Coining.bind (of_unchanged fun _ => rfl)
  intro heap
  split
  · exact Coining.pure _
  · apply (Coining.ask _).bind
    intro scopeBytes
    apply (Coining.ask _).bind
    intro nameBytes
    apply (intern _).bind
    intro qualified
    refine Coining.bind ⟨tame_compose scope name qualified, ?_⟩ fun _ => Coining.pure qualified
    intro heap sound _
    exact ⟨⟨fun handle _ grasped => ⟨sound.isLive_of_kept grasped.kept, rfl, rfl⟩,
      fun _ _ => id, rfl⟩, fun handle stale live => absurd (stale.symm.trans live) (by decide)⟩

theorem qualifyFrom (scope : Handle) (segments : List Bytes) :
    Coining (Heap.qualifyFrom scope segments) := by
  induction segments generalizing scope with
  | nil => exact Coining.pure scope
  | cons segment rest ih =>
      unfold Heap.qualifyFrom
      apply (intern segment).bind
      intro name
      apply (qualify scope name).bind
      intro qualified
      exact ih qualified

theorem qualifyPath (segments : List Bytes) : Coining (Heap.qualifyPath segments) := by
  cases segments with
  | nil => exact of_unchanged fun _ => rfl
  | cons first rest =>
      unfold Heap.qualifyPath
      apply (intern first).bind
      intro scope
      exact qualifyFrom scope rest

/-- A program that interns at most balances its holds: what it leaves behind is interned. -/
theorem holdsBalance {program : HeapM α} (coining : Coining program) {heap : Heap}
    (sound : heap.Sound) (bounded : (program.run heap).2.handles.slots < 2 ^ 32) :
    heap.HoldsBalance (fun _ => []) (program.run heap) := by
  have coins := coining.coins heap sound bounded
  have balances := coins.steady.balances_asked (by simp)
  generalize program.run heap = result at coins balances
  rcases result with ⟨error | value, next⟩
  · refine .failed { balances with reclaims := ?_ }
    intro finish _ handle stale live plain
    rw [coins.new handle stale live] at plain
    cases plain
  · exact .succeeded balances

end Coining

/-! ## Holding several objects -/

/-- How several objects are held while a program runs.  If one of them is stale, the program does
not run, and every hold that has been taken is given back.  If all are live, it runs while each of
them is held once more for each time it is listed, and if it leaves them held as they are then, all
these holds are given back. -/
structure HoldsAll (heap : Heap) (handles : List Handle) : Prop where
  refuses : ∀ stale ∈ handles, heap.isLive stale = false →
    ∃ handle ∈ handles, heap.isLive handle = false ∧ ∃ next,
      (∀ (α : Type) (body : HeapM α),
        (withHeld handles body).run heap = (.error (.staleHandle handle), next)) ∧
      (∀ other, next.holds other = heap.holds other) ∧ heap.Undone next
  runs : (∀ handle ∈ handles, heap.isLive handle = true) → ∃ held : Heap,
    (∀ other, held.holds other = (heap.holds other).map (· + heap.charge handles other)) ∧
    held.view? = heap.view? ∧
    ∀ (α : Type) (body : HeapM α) (result : Except HeapError α) (after : Heap),
      body.run held = (result, after) →
      (∀ handle ∈ handles, after.isInterned handle = held.isInterned handle ∧
        after.holds handle = held.holds handle) →
      ∃ next, (withHeld handles body).run heap = (result, next) ∧ next.view? = after.view? ∧
        ∀ other, after.isInterned other = held.isInterned other →
          after.holds other = held.holds other → next.holds other = heap.holds other

/-- As long as no count comes to its bound, all holds are given back. -/
theorem Sound.holdsAll {heap : Heap} (sound : heap.Sound) {handles : List Handle}
    (room : heap.Holdable handles) : heap.HoldsAll handles where
  refuses stale member dead := by
    obtain ⟨error, next, ran, recounts, balanced⟩ := run_retainAfter_stale [] member dead
    obtain ⟨same, handle, listed, gone, named⟩ := balanced (fun _ member => nomatch member) room
    have holds (other : Handle) : next.holds other = heap.holds other :=
      same.of_neutral fun count => by rw [charge_nil, UInt32.sub_zero]
    have tame : Tame (retainAfter [] handles) := tame_retainAfter [] handles
    have nextSound := tame.sound sound (by rw [ran, recounts.slots]; exact sound.bounded)
    rw [ran] at nextSound
    refine ⟨handle, listed, gone, next, ?_, holds, ?_⟩
    · intro α body
      unfold withHeld retainAll
      rw [HeapM.run_bind, ran, named]
    · have neutral : heap.Holds next fun _ count => count :=
        ⟨recounts, fun other => by
          rw [holds other]
          cases heap.holds other <;> rfl⟩
      exact neutral.undone sound nextSound
  runs live := by
    obtain ⟨held, took, holding⟩ := sound.exists_held live
    refine ⟨held, holding.adds.holds, holding.adds.recounts.view?, ?_⟩
    intro α body result after ran same
    obtain ⟨next, released⟩ := holding.exists_released room same
    obtain ⟨_, drops⟩ := releaseAll_eq_ok released
    exact ⟨next, run_withHeld_of_released took ran released, drops.recounts.view?,
      fun other => holding.restored drops⟩

/-! ## Every operation -/

/-- The operations on pairs, strings, arrays and tables with the objects that they hold while they
allocate, and those among the new objects that the caller asks for.  Each is about a heap that
programs have led to, and about containers in use. -/
inductive Balancing (heap : Heap) :
    {α : Type} → HeapM α → List Handle → (α → List Handle) → Prop
  | ask {α : Type} (question : Heap → Except HeapError α) : heap.Derived →
      Balancing heap (HeapM.ask question) [] fun _ => []
  | cons (car cdr : Option Handle) : heap.Derived →
      Balancing heap (Heap.cons car cdr) (car.toList ++ cdr.toList) fun cell => [cell]
  | intern (bytes : Bytes) : heap.Derived → Balancing heap (Heap.intern bytes) [] fun _ => []
  | qualify (scope name : Handle) : heap.Derived →
      Balancing heap (Heap.qualify scope name) [] fun _ => []
  | qualifyPath (segments : List Bytes) : heap.Derived →
      Balancing heap (Heap.qualifyPath segments) [] fun _ => []
  | newArray : heap.Derived → Balancing heap RefArray.new [] fun array => [array.handle]
  | arrayWithCapacity (capacity : Nat) : heap.Derived →
      Balancing heap (RefArray.withCapacity capacity) [] fun array => [array.handle]
  | filledArray (length : Nat) : heap.Derived →
      Balancing heap (RefArray.filled length) [] fun array => [array.handle]
  | arrayPush {array : RefArray} (value : Option Handle) : array.Usable heap →
      Balancing heap (array.push value) (array.handle :: value.toList) fun _ => []
  | arrayPop {array : RefArray} : array.Usable heap → Balancing heap array.pop [] fun _ => []
  | arraySet {array : RefArray} (index : Nat) (value : Option Handle) : array.Usable heap →
      Balancing heap (array.set index value) [] fun _ => []
  | arrayClear {array : RefArray} : array.Usable heap → Balancing heap array.clear [] fun _ => []
  | newTable : heap.Derived → Balancing heap RefTable.new [] fun table => [table.handle]
  | tableWithCapacity (capacity : Nat) : heap.Derived →
      Balancing heap (RefTable.withCapacity capacity) [] fun table => [table.handle]
  | tableInsert {hash : Key → UInt64} {table : RefTable} (key value : Handle) :
      table.Usable hash heap →
        Balancing heap (table.insert key value hash) [table.handle, key, value] fun _ => []
  | tableRemove {hash : Key → UInt64} {table : RefTable} (key : Handle) : table.Usable hash heap →
      Balancing heap (table.remove key hash) [] fun _ => []

section

variable {heap : Heap}

theorem Derived.holdsBalance_withCapacity (derived : heap.Derived) (capacity : Nat)
    (bounded : ((RefArray.withCapacity capacity).run heap).2.handles.slots < 2 ^ 32) :
    heap.HoldsBalance (fun array => [array.handle]) ((RefArray.withCapacity capacity).run heap) :=
  (derived.assured bounded (lasting_nil heap _)).withCapacity.holdsBalance derived.sound
    ((RefArray.tame_withCapacity capacity).sound derived.sound bounded)

theorem Derived.holdsBalance_tableWithCapacity (derived : heap.Derived) (capacity : Nat)
    (bounded : ((RefTable.withCapacity capacity).run heap).2.handles.slots < 2 ^ 32) :
    heap.HoldsBalance (fun table => [table.handle])
      ((RefTable.withCapacity capacity).run heap) := by
  have makes : heap.MakesTable Key.hash capacity ((RefTable.withCapacity capacity).run heap) :=
    (derived.assured bounded (lasting_nil heap _)).madeTable
  exact makes.holdsBalance derived.sound
    ((RefTable.tame_withCapacity capacity).sound derived.sound bounded)

/-- The holds of an operation balance as long as no count of its operands comes to its bound. -/
theorem Balancing.holdsBalance {α : Type} {operation : HeapM α} {held : List Handle}
    {asked : α → List Handle} (balancing : heap.Balancing operation held asked)
    (room : heap.Holdable held) (bounded : (operation.run heap).2.handles.slots < 2 ^ 32) :
    heap.HoldsBalance asked (operation.run heap) := by
  cases balancing with
  | ask question derived => exact holdsBalance_ask derived.sound question
  | cons car cdr derived => exact derived.sound.holdsBalance_cons room bounded
  | intern bytes derived => exact (Coining.intern bytes).holdsBalance derived.sound bounded
  | qualify scope name derived =>
      exact (Coining.qualify scope name).holdsBalance derived.sound bounded
  | qualifyPath segments derived =>
      exact (Coining.qualifyPath segments).holdsBalance derived.sound bounded
  | newArray derived => exact derived.holdsBalance_withCapacity 0 bounded
  | arrayWithCapacity capacity derived => exact derived.holdsBalance_withCapacity capacity bounded
  | filledArray length derived =>
      exact (derived.assured bounded (lasting_nil heap _)).filled.holdsBalance derived.sound
        ((RefArray.tame_filled length).sound derived.sound bounded)
  | arrayPush value usable =>
      rw [← snd_run_return _ (none : Option Handle)] at bounded
      exact (usable.holdsBalance (.push value) room bounded).of_return
  | arrayPop usable => exact usable.holdsBalance .pop room bounded
  | arraySet index value usable =>
      rw [← snd_run_return _ (none : Option Handle)] at bounded
      exact (usable.holdsBalance (.set index value) room bounded).of_return
  | arrayClear usable =>
      rw [← snd_run_return _ (none : Option Handle)] at bounded
      exact (usable.holdsBalance .clear room bounded).of_return
  | newTable derived =>
      unfold RefTable.new at bounded ⊢
      rw [HeapM.run_bind, HeapM.run_get] at bounded ⊢
      exact derived.holdsBalance_tableWithCapacity _ bounded
  | tableWithCapacity capacity derived =>
      exact derived.holdsBalance_tableWithCapacity capacity bounded
  | tableInsert key value usable => exact usable.holdsBalance (.insert key value) room bounded
  | tableRemove key usable => exact usable.holdsBalance (.remove key) room bounded

/-- What is promised of holds: every operation balances them, and several objects can be held and
given back together, as long as no count comes to its bound. -/
structure BalancesHolds (heap : Heap) : Prop where
  operations : ∀ (α : Type) (operation : HeapM α) (held : List Handle) (asked : α → List Handle),
    heap.Balancing operation held asked → heap.Holdable held →
      (operation.run heap).2.handles.slots < 2 ^ 32 → heap.HoldsBalance asked (operation.run heap)
  holding : ∀ handles, heap.Holdable handles → heap.HoldsAll handles

/-- Holds balance in every heap that programs have led to. -/
theorem Derived.balancesHolds (derived : heap.Derived) : heap.BalancesHolds where
  operations _ _ _ _ balancing := balancing.holdsBalance
  holding _ := derived.sound.holdsAll

end

/-- Pushing an integer onto an array once more. -/
theorem balancesHolds_pushed :
    RefArray.pushed.Derived ∧ RefArray.pushed.BalancesHolds ∧
      RefArray.pushed.HoldsBalance (fun _ => [])
        ((RefArray.push ⟨⟨0, 0⟩⟩ (some ⟨1, 0⟩)).run RefArray.pushed) := by
  have tended := RefArray.history_pushed.tended
  have promise := Derived.balancesHolds tended.owns.1
  refine ⟨tended.owns.1, promise, ?_⟩
  apply promise.operations _ _ _ _ (.arrayPush _ (Or.inl tended)) _ (by decide +kernel)
  apply holdable_of_listed
  intro handle listed
  refine ⟨1, ?_, ?_⟩
  · revert handle
    decide +kernel
  · revert handle
    decide +kernel

/-! ## Full counts and foretold handles -/

/-- An object that is held can be held again and again. -/
theorem Reachable.retained {heap : Heap} (reachable : heap.Reachable) {handle : Handle}
    {address : Address} {count : UInt32} (plain : heap.isInterned handle = false)
    (found : heap.handles.find handle = .ok (address, count)) (more : Nat) :
    Reachable { heap with
      handles := heap.handles.setSlot handle address (count + (more + 1).toUInt32) } := by
  have retain {middle : Heap} {holds : UInt32} (before : middle.Reachable)
      (uninterned : middle.isInterned handle = false)
      (there : middle.handles.find handle = .ok (address, holds)) :
      Reachable { middle with handles := middle.handles.setSlot handle address (holds + 1) } := by
    have ran : (Heap.retain handle).run middle =
        (.ok (), { middle with handles := middle.handles.setSlot handle address (holds + 1) }) := by
      unfold Heap.retain
      rw [HeapM.run_bind, HeapM.run_get]
      dsimp only
      rw [uninterned, if_neg (by decide), run_onHandles]
      unfold HandleTable.retain
      rw [there]
    have after := before.after (Operation.retain handle)
    rw [ran] at after
    exact after (by rw [HandleTable.slots_setSlot]; exact before.sound.bounded)
  induction more with
  | zero => exact retain reachable plain found
  | succ more ih =>
      have recounts := recounts_setSlot found (count + (more + 1).toUInt32)
      have again := retain ih ((recounts.isInterned handle).trans plain)
        ((HandleTable.find_setSlot found _ _ _).trans (if_pos rfl))
      have sum : count + (more + 1).toUInt32 + 1 = count + (more + 1 + 1).toUInt32 := by
        rw [UInt32.add_assoc]
        congr 1
        exact (UInt32.ofNat_add (more + 1) 1).symm
      rw [sum] at again
      unfold HandleTable.setSlot at again ⊢
      rwa [Array.setIfInBounds_setIfInBounds] at again

/-- A heap with an integer that is held as often as can be counted. -/
def brimful : Heap :=
  let heap := ((allocInt 5).run (blank {})).2
  { heap with handles := heap.handles.setSlot ⟨0, 0⟩ ⟨0, 0⟩ (1 + (4294967293 + 1).toUInt32) }

theorem reachable_brimful : brimful.Reachable :=
  ((reachable_blank (by decide +kernel)).after (.allocInt 5) (by decide +kernel)).retained
    (by decide +kernel) (by decide +kernel) 4294967293

/-- A heap with a scanner that reports a handle that names nothing yet. -/
def foretold : Heap :=
  ((addScanner [⟨0, 0⟩]).run (blank { slabBytes := 4096, maxHeapBytes := 8192 })).2

theorem reachable_foretold : foretold.Reachable :=
  (reachable_blank (by decide +kernel)).after (.addScanner _) (by decide +kernel)

/-- Making an array fails for want of memory, but the array object that is left survives a
collection, because a scanner reports its handle.  Making a pair fails because one part is stale,
but the other part, which is held as often as can be counted, loses all its holds. -/
theorem holds_lost :
    (foretold.Reachable ∧
      ∃ error next finish, (RefArray.withCapacity 1000).run foretold = (.error error, next) ∧
        collect.run next = (.ok (), finish) ∧ foretold.isLive ⟨0, 0⟩ = false ∧
        next.isLive ⟨0, 0⟩ = true ∧ next.isInterned ⟨0, 0⟩ = false ∧
        finish.isLive ⟨0, 0⟩ = true) ∧
      brimful.Reachable ∧
      ∃ error next, (cons (some ⟨0, 0⟩) (some ⟨9, 9⟩)).run brimful = (.error error, next) ∧
        brimful.isLive ⟨0, 0⟩ = true ∧ next.isLive ⟨0, 0⟩ = true ∧
        brimful.holds ⟨0, 0⟩ = .ok 4294967295 ∧ next.holds ⟨0, 0⟩ = .ok 0 := by
  have ended {α : Type} {outcome : Except HeapError α × Heap} {result : Except HeapError α}
      (same : outcome.1 = result) : outcome = (result, outcome.2) := by
    rw [← same]
  refine ⟨⟨reachable_foretold, _, _, _, ended (?_ : _ = Except.error (.outOfMemory 8192 8192)),
    ended ?_, ?_, ?_, ?_, ?_⟩, reachable_brimful, _, _,
    ended (?_ : _ = Except.error (.notRooted ⟨0, 0⟩)), ?_, ?_, ?_, ?_⟩
  all_goals decide +kernel

end Heap

end CompactingHeap
