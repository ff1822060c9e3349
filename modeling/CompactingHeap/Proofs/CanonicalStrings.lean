import CompactingHeap.Proofs.Interning
import CompactingHeap.Proofs.Lasting

/-!
# Canonical strings

Interning the same bytes again gives the same handle, and interning other bytes another one,
whatever operations lie in between.  What it gives stays a live string of these bytes that nothing
holds.  An ordinary string stays ordinary as long as it lasts, because only new objects become
canonical.
-/

namespace CompactingHeap

open Heap

namespace Heap

/-! ## Ordinary objects -/

/-- The object is the canonical string for no bytes. -/
def Ordinary (heap : Heap) (handle : Handle) : Prop :=
  ∀ bytes, heap.interner.lookup bytes ≠ some handle

/-- A live object that is ordinary when the program starts stays ordinary as long as it lasts. -/
structure Reticent (handle : Handle) {α : Type} (program : HeapM α) : Prop where
  tame : Tame program
  ordinary : ∀ heap : Heap, heap.Assured (program.run heap).2 [handle] →
    heap.isLive handle = true → heap.Ordinary handle → (program.run heap).2.Ordinary handle

namespace Reticent

variable {handle : Handle} {α β : Type}

/-- A discreet program makes nothing canonical. -/
theorem of_discreet {program : HeapM α} (discreet : Discreet program) :
    Reticent handle program where
  tame := discreet.tame
  ordinary heap assured _ ordinary bytes := by
    rw [discreet.interner heap assured.sound assured.bounded]
    exact ordinary bytes

/-- Such programs may run one after the other. -/
protected theorem bind {first : HeapM α} {next : α → HeapM β} (reticent : Reticent handle first)
    (rest : ∀ value, Reticent handle (next value)) : Reticent handle (first >>= next) where
  tame := reticent.tame.bind fun value => (rest value).tame
  ordinary heap assured live ordinary := by
    have stages := assured.stages reticent.tame fun value => (rest value).tame
    generalize (first >>= next).run heap = outcome at stages ⊢
    cases stages with
    | stopped ran whole =>
        have kept := reticent.ordinary heap (by rw [ran]; exact whole) live ordinary
        rw [ran] at kept
        exact kept
    | @went value middle ran before after =>
        have kept := reticent.ordinary heap (by rw [ran]; exact before) live ordinary
        have alive := Assured.isLive (by rw [ran]; exact before) reticent.tame
          (List.mem_singleton_self handle) live
        rw [ran] at kept alive
        exact (rest value).ordinary middle after alive kept

/-- Interning makes a new object canonical, if any. -/
theorem intern (bytes : Bytes) : Reticent handle (Heap.intern bytes) where
  tame := tame_intern bytes
  ordinary heap assured live ordinary := by
    have interns := assured.sound.interns bytes assured.bounded
    generalize (Heap.intern bytes).run heap = outcome at interns ⊢
    cases interns with
    | found _ => exact ordinary
    | @added new next _ stale interner _ _ =>
        intro other
        dsimp only
        rw [interner]
        by_cases same : bytes = other
        · subst same
          rw [Interner.lookup_insert_self]
          intro canonical
          cases canonical
          rw [live] at stale
          cases stale
        · rw [heap.interner.lookup_insert_of_ne new same]
          exact ordinary other
    | refused _ retains =>
        intro other
        dsimp only
        rw [retains.interner]
        exact ordinary other

theorem qualify (scope name : Handle) : Reticent handle (Heap.qualify scope name) := by
  unfold Heap.qualify
  apply (of_discreet Discreet.get).bind
  intro heap
  split
  · exact of_discreet (Discreet.pure _)
  · apply (of_discreet (Discreet.ask _)).bind
    intro scopeBytes
    apply (of_discreet (Discreet.ask _)).bind
    intro nameBytes
    apply (intern _).bind
    intro qualified
    refine Reticent.bind ⟨?_, ?_⟩ fun _ => of_discreet (Discreet.pure qualified)
    · exact Heap.tame_compose scope name qualified
    · intro heap _ _ ordinary
      exact ordinary

theorem qualifyFrom (scope : Handle) (segments : List Bytes) :
    Reticent handle (Heap.qualifyFrom scope segments) := by
  induction segments generalizing scope with
  | nil => exact of_discreet (Discreet.pure scope)
  | cons segment rest ih =>
      unfold Heap.qualifyFrom
      apply (intern segment).bind
      intro name
      apply (qualify scope name).bind
      intro qualified
      exact ih qualified

theorem qualifyPath (segments : List Bytes) : Reticent handle (Heap.qualifyPath segments) := by
  cases segments with
  | nil => exact of_discreet (Discreet.throw _)
  | cons first rest =>
      unfold Heap.qualifyPath
      apply (intern first).bind
      intro scope
      exact qualifyFrom scope rest

end Reticent

end Heap

/-- No operation makes an ordinary object canonical. -/
theorem Operation.reticent {handle : Handle} {α : Type} {operation : HeapM α}
    (offered : Operation operation) : Reticent handle operation := by
  by_cases interning : Interning operation
  · cases interning with
    | intern bytes => exact Reticent.intern bytes
    | qualify scope name => exact Reticent.qualify scope name
    | qualifyPath segments => exact Reticent.qualifyPath segments
  · exact Reticent.of_discreet (offered.discreet interning)

namespace Heap

/-! ## Later heaps -/

/-- The heaps that operations lead to from the given one while the given handles last. -/
inductive LeadsTo (heap : Heap) (handles : List Handle) : Heap → Prop
  | here : LeadsTo heap handles heap
  | after {α : Type} {operation : HeapM α} {later : Heap} :
      LeadsTo heap handles later → Operation operation →
        (operation.run later).2.handles.slots < 2 ^ 32 →
        later.Lasting (operation.run later).2 handles →
        LeadsTo heap handles (operation.run later).2

section

variable {heap later : Heap} {handles : List Handle}

theorem LeadsTo.reachable (leads : heap.LeadsTo handles later) (reachable : heap.Reachable) :
    later.Reachable := by
  induction leads with
  | here => exact reachable
  | after _ offered bounded _ ih => exact ih.after offered bounded

/-- A canonical string stays listed. -/
theorem LeadsTo.lookup (leads : heap.LeadsTo handles later) (reachable : heap.Reachable)
    {bytes : Bytes} {handle : Handle} (listed : heap.interner.lookup bytes = some handle) :
    later.interner.lookup bytes = some handle := by
  induction leads with
  | here => exact listed
  | @after α operation later before offered bounded _ ih =>
      have sound := (before.reachable reachable).sound
      obtain ⟨log, course⟩ := offered.tame.course later sound bounded
      exact course.lookup sound bounded ih

/-- A live object that lasts stays ordinary. -/
theorem LeadsTo.ordinary {handle : Handle} (leads : heap.LeadsTo [handle] later)
    (reachable : heap.Reachable) (live : heap.isLive handle = true)
    (ordinary : heap.Ordinary handle) : later.isLive handle = true ∧ later.Ordinary handle := by
  induction leads with
  | here => exact ⟨live, ordinary⟩
  | @after α operation later before offered bounded lasting ih =>
      have reached := before.reachable reachable
      have assured : later.Assured (operation.run later).2 [handle] :=
        ⟨reached.sound, reached.settings.2, bounded, lasting⟩
      exact ⟨assured.isLive offered.tame (List.mem_singleton_self handle) ih.1,
        offered.reticent.ordinary later assured ih.1 ih.2⟩

/-- An ordinary object is not an interned string. -/
theorem Ordinary.isInterned {handle : Handle} (ordinary : heap.Ordinary handle) :
    heap.isInterned handle = false := by
  cases interned : heap.isInterned handle with
  | false => rfl
  | true =>
      obtain ⟨bytes, known⟩ := lookupInterned_of_isInterned interned
      exact absurd known (ordinary bytes)

end

/-! ## Interning is canonical and permanent -/

/-- The handle is live, it is the interned string of the bytes and shows them, and its count of
holds is zero and is not changed by holding it or giving it up. -/
structure Permanent (heap : Heap) (bytes : Bytes) (handle : Handle) : Prop where
  known : heap.lookupInterned bytes = some handle
  live : heap.isLive handle = true
  interned : heap.isInterned handle = true
  string : heap.string handle = .ok bytes
  unheld : heap.holds handle = .ok 0
  retain : (retain handle).run heap = (.ok (), heap)
  release : (release handle).run heap = (.ok (), heap)

/-- What interning promises in a heap in whose run the given byte strings have been interned. -/
structure InternsCanonically (heap : Heap) (strings : List Bytes) : Prop where
  known : ∀ bytes, (heap.lookupInterned bytes).isSome = true ↔ bytes ∈ strings
  counted : strings.Nodup ∧ heap.internedCount = strings.length
  permanent : ∀ bytes handle, heap.lookupInterned bytes = some handle →
    ∀ later, heap.LeadsTo [] later → later.Permanent bytes handle
  interned : ∀ bytes handle next, (intern bytes).run heap = (.ok handle, next) →
    next.handles.slots < 2 ^ 32 →
      next.lookupInterned = Function.update heap.lookupInterned bytes (some handle)
  failed : ∀ bytes error next, (intern bytes).run heap = (.error error, next) →
    next.handles.slots < 2 ^ 32 → error.IsOutOfMemory ∧ next.interner = heap.interner
  same : ∀ bytes handle next, (intern bytes).run heap = (.ok handle, next) →
    next.handles.slots < 2 ^ 32 → ∀ later, next.LeadsTo [] later →
      ∀ others other last, (intern others).run later = (.ok other, last) →
        last.handles.slots < 2 ^ 32 → (handle = other ↔ bytes = others)
  path : ∀ segments handle next, (qualifyPath segments).run heap = (.ok handle, next) →
    next.handles.slots < 2 ^ 32 →
      next.Interned ((pathStrings segments).foldl (fun known name => known.insert name) strings)
  ordinary : ∀ bytes handle next, (allocString bytes).run heap = (.ok handle, next) →
    next.handles.slots < 2 ^ 32 → ∀ later, next.LeadsTo [handle] later →
      later.isInterned handle = false

section

variable {heap next : Heap} {strings : List Bytes} {bytes : Bytes} {handle : Handle}

theorem Canonical.permanent (canonical : heap.Canonical bytes handle) :
    heap.Permanent bytes handle where
  known := canonical.listed
  live := canonical.isLive
  interned := canonical.isInterned
  string := canonical.string
  unheld := canonical.unheld
  retain := by
    unfold Heap.retain
    rw [HeapM.run_bind, HeapM.run_get]
    dsimp only
    rw [if_pos canonical.isInterned]
    rfl
  release := by
    unfold Heap.release
    rw [HeapM.run_bind, HeapM.run_get]
    dsimp only
    rw [if_pos canonical.isInterned]
    rfl

/-- What is canonical is permanent from then on. -/
theorem LeadsTo.permanent {handles : List Handle} {later : Heap}
    (leads : heap.LeadsTo handles later) (reachable : heap.Reachable)
    (listed : heap.interner.lookup bytes = some handle) : later.Permanent bytes handle := by
  obtain ⟨known, interned⟩ := (leads.reachable reachable).interned
  have stays := leads.lookup reachable listed
  exact (interned.catalogue.canonical bytes handle stays).permanent

/-- Interning adds one canonical string. -/
theorem Interns.lookupInterned (interns : heap.Interns bytes (.ok handle, next)) :
    next.lookupInterned = Function.update heap.lookupInterned bytes (some handle) := by
  cases interns with
  | found known => exact (Function.update_eq_self_iff.mpr known.symm).symm
  | added _ _ interner _ _ =>
      funext other
      unfold Heap.lookupInterned
      rw [interner]
      by_cases same : bytes = other
      · subst same
        rw [Function.update_self]
        exact Interner.lookup_insert_self _ _ _
      · rw [Function.update_of_ne (Ne.symm same)]
        exact heap.interner.lookup_insert_of_ne handle same

/-- Two byte strings are interned to one handle just if they are the same, however far apart. -/
theorem Interned.intern_inj (interned : heap.Interned strings)
    (ran : (Heap.intern bytes).run heap = (.ok handle, next))
    (bounded : next.handles.slots < 2 ^ 32) {later last : Heap} (leads : next.LeadsTo [] later)
    {others : Bytes} {other : Handle} (again : (Heap.intern others).run later = (.ok other, last))
    (bound : last.handles.slots < 2 ^ 32) : handle = other ↔ bytes = others := by
  have reachable := interned.reachable
  have first := reachable.sound.interns bytes
  rw [ran] at first
  have between := reachable.of_ran (Operation.intern bytes) ran bounded
  have listed := (interned.catalogue.of_interns reachable.sound (first bounded)).2
  have reached := leads.reachable between
  obtain ⟨known, run⟩ := reached.interned
  have second := reached.sound.interns others
  obtain ⟨log, course⟩ :=
    (tame_intern others).course later reached.sound (by rw [again]; exact bound)
  rw [again] at second course
  obtain ⟨catalogue, otherListed⟩ := run.catalogue.of_interns reached.sound (second bound)
  have stays := course.lookup reached.sound bound (leads.lookup between listed)
  constructor
  · rintro rfl
    exact catalogue.lookup_inj stays otherListed
  · rintro rfl
    rw [stays] at otherListed
    exact Option.some.inj otherListed

/-- A string that is allocated, whatever it shows, is not interned as long as it lasts. -/
theorem Reachable.allocString_ordinary (reachable : heap.Reachable)
    (ran : (allocString bytes).run heap = (.ok handle, next))
    (bounded : next.handles.slots < 2 ^ 32)
    {later : Heap} (leads : next.LeadsTo [handle] later) : later.isInterned handle = false := by
  have known : heap.classes.get .string = .ok Registry.stringClass :=
    reachable.sound.get_builtin rfl
  have string : allocString bytes = allocateBytes .string bytes := rfl
  have allocating := reachable.sound.allocating_bytes known rfl bytes
  have between := reachable.of_ran (Operation.allocString bytes) ran bounded
  rw [← string, ran] at allocating
  cases allocating bounded with
  | placed allocates =>
      have ordinary : next.Ordinary handle := by
        intro other listed
        rw [allocates.rest.interner] at listed
        have alive := reachable.sound.interned handle
          ((reachable.sound.listed handle).mpr ⟨other, listed⟩)
        have stale : heap.handles.isLive handle = false := allocates.new
        rw [stale] at alive
        cases alive
      exact (leads.ordinary between (isLive_of_view allocates.seen) ordinary).2.isInterned

end

/-- Interning is canonical and permanent in every run. -/
theorem Reachable.internsCanonically {heap : Heap} (reachable : heap.Reachable) :
    (∃ strings, heap.Interned strings) ∧
      ∀ strings, heap.Interned strings → heap.InternsCanonically strings := by
  refine ⟨reachable.interned, ?_⟩
  intro strings interned
  have sound := reachable.sound
  have catalogue := interned.catalogue
  constructor
  · exact catalogue.known_iff sound
  · refine ⟨catalogue.distinct, ?_⟩
    have lengths := congrArg List.length catalogue.listed
    rw [List.length_map, List.length_map] at lengths
    exact lengths
  · intro bytes handle listed later leads
    exact leads.permanent reachable listed
  · intro bytes handle next ran bounded
    have interns := sound.interns bytes
    rw [ran] at interns
    exact (interns bounded).lookupInterned
  · intro bytes error next ran bounded
    have interns := sound.interns bytes
    rw [ran] at interns
    cases interns bounded with
    | refused _ retains => exact ⟨⟨_, _, rfl⟩, retains.interner⟩
  · intro bytes handle next ran bounded later leads others other last again bound
    exact interned.intern_inj ran bounded leads again bound
  · intro segments handle next ran bounded
    obtain ⟨known, reached, path⟩ := interned.qualifyPath segments (by rw [ran]; exact bounded)
    rw [ran] at reached path
    rw [← path handle rfl]
    exact reached
  · intro bytes handle next ran bounded later leads
    exact reachable.allocString_ordinary ran bounded leads

/-! ## A heap with interned strings -/

/-- A string has been interned. -/
def christened : Heap :=
  ((intern [104, 105]).run (blank {})).2

/-- Another string has been interned after it. -/
def surnamed : Heap :=
  ((intern [104, 111]).run christened).2

theorem run_intern_christened : (intern [104, 105]).run (blank {}) = (.ok ⟨0, 0⟩, christened) :=
  Prod.ext (by decide +kernel) (by rw [christened])

theorem run_intern_surnamed : (intern [104, 111]).run christened = (.ok ⟨1, 0⟩, surnamed) :=
  Prod.ext (by decide +kernel) (by rw [surnamed])

theorem interned_surnamed : surnamed.Interned [[104, 111], [104, 105]] :=
  ((Interned.created (new_blank (by decide +kernel))).interned run_intern_christened
    (by decide +kernel)).interned run_intern_surnamed (by decide +kernel)

theorem internsCanonically_surnamed : surnamed.InternsCanonically [[104, 111], [104, 105]] ∧
    surnamed.lookupInterned [104, 105] = some ⟨0, 0⟩ :=
  ⟨(Reachable.internsCanonically interned_surnamed.reachable).2 _ interned_surnamed,
    by decide +kernel⟩

end Heap

end CompactingHeap
