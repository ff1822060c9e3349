import CompactingHeap.Proofs.Enclaves
import CompactingHeap.Proofs.Freshness
import CompactingHeap.Proofs.ContainerPrograms

/-!
# Programs that spare an enclave

A program spares an enclave if the enclave stays guarded in every run during which its roots last.
What a program may rely on is a list of facts about handles, and what it learns about its result is
such a list as well.  Facts stay true while an enclave is spared, so the programs compose.
-/

namespace CompactingHeap

open Heap

namespace Enclave

/-- What a program may know about a handle: it names no part, it names no vector of the enclave, or
it is clear of the parts of a class. -/
inductive Fact where
  | outside (handle : Handle)
  | bare (handle : Handle)
  | clear (id : ClassId) (handle : Handle)

variable (enclave : Enclave)

/-- The fact is true in a heap. -/
def Holds (heap : Heap) : Fact → Prop
  | .outside handle => enclave.Outside handle
  | .bare handle => ¬ enclave.Has handle .vector
  | .clear id handle => enclave.Clear heap id handle

/-- All the facts are true in a heap. -/
def Knows (heap : Heap) (facts : List Fact) : Prop :=
  ∀ fact ∈ facts, enclave.Holds heap fact

/-- What is assumed of the heaps before and after a run: the roots last, and the enclave is
guarded. -/
structure Ready (heap next : Heap) : Prop extends heap.Assured next enclave.roots where
  guarded : enclave.Guarded heap

/-- The program spares the enclave, and its result has the given properties. -/
structure Gives {α : Type} (known : List Fact) (program : HeapM α) (learns : α → List Fact) :
    Prop where
  tame : Tame program
  spares : ∀ heap, enclave.Ready heap (program.run heap).2 → enclave.Knows heap known →
    enclave.Spared heap (program.run heap).2 ∧
      ∀ value, (program.run heap).1 = .ok value →
        enclave.Knows (program.run heap).2 (learns value)

/-- The program spares the enclave. -/
abbrev Spares {α : Type} (known : List Fact) (program : HeapM α) : Prop :=
  enclave.Gives known program fun _ => []

variable {enclave}

/-! ## Facts -/

/-- Facts stay true. -/
theorem Spared.holds {heap next : Heap} (spared : enclave.Spared heap next) {fact : Fact}
    (holds : enclave.Holds heap fact) : enclave.Holds next fact := by
  cases fact with
  | outside handle => exact holds
  | bare handle => exact holds
  | clear id handle => exact spared.clear id handle holds

theorem Spared.knows {heap next : Heap} (spared : enclave.Spared heap next) {facts : List Fact}
    (knows : enclave.Knows heap facts) : enclave.Knows next facts :=
  fun fact member => spared.holds (knows fact member)

theorem knows_nil (heap : Heap) : enclave.Knows heap [] :=
  fun _ member => by cases member

theorem Knows.append {heap : Heap} {first second : List Fact} (knows : enclave.Knows heap first)
    (others : enclave.Knows heap second) : enclave.Knows heap (first ++ second) := by
  intro fact member
  rcases List.mem_append.mp member with here | there
  · exact knows fact here
  · exact others fact there

/-- A guarded enclave is spared by what does nothing. -/
theorem Guarded.spared_refl {heap : Heap} (guarded : enclave.Guarded heap) :
    enclave.Spared heap heap :=
  ⟨guarded, fun _ _ clear => clear⟩

/-- The roots are live after a tame run. -/
theorem Ready.isLive_root {α : Type} {program : HeapM α} (tame : Tame program) {heap : Heap}
    (ready : enclave.Ready heap (program.run heap).2) :
    ∀ handle ∈ enclave.roots, (program.run heap).2.isLive handle = true := by
  intro handle root
  exact ready.toAssured.isLive tame root (ready.guarded.isLive_root root)

/-! ## Rules -/

namespace Gives

variable {α β : Type} {known : List Fact}

/-- A program may rely on more, and tell less. -/
theorem mono {more : List Fact} {program : HeapM α} {learns tells : α → List Fact}
    (gives : enclave.Gives known program learns)
    (relies : ∀ heap, enclave.Knows heap more → enclave.Knows heap known)
    (told : ∀ heap value, enclave.Knows heap more → enclave.Knows heap (learns value) →
      enclave.Knows heap (tells value)) :
    enclave.Gives more program tells where
  tame := gives.tame
  spares heap ready knows := by
    obtain ⟨spared, learnt⟩ := gives.spares heap ready (relies heap knows)
    exact ⟨spared, fun value returned => told _ value (spared.knows knows) (learnt value returned)⟩

/-- A program may rely on facts that it does not need. -/
theorem more {others : List Fact} {program : HeapM α} {learns : α → List Fact}
    (gives : enclave.Gives known program learns) (within : known ⊆ others) :
    enclave.Gives others program learns :=
  gives.mono (fun _ knows fact member => knows fact (within member)) fun _ _ _ learnt => learnt

/-- What a program learns may be forgotten. -/
theorem forget {program : HeapM α} {learns : α → List Fact}
    (gives : enclave.Gives known program learns) : enclave.Spares known program :=
  gives.mono (fun _ knows => knows) fun heap _ _ _ => knows_nil heap

/-- A program that changes no view spares every enclave. -/
theorem of_views {program : HeapM α} (tame : Tame program)
    (same : ∀ heap, (program.run heap).2.view? = heap.view?) : enclave.Spares known program where
  tame := tame
  spares heap ready _ :=
    ⟨spared_of_views ready.guarded (same heap), fun _ _ => knows_nil _⟩

/-- A program that leaves the heap alone tells what its result says. -/
theorem of_unchanged {program : HeapM α} {learns : α → List Fact}
    (unchanged : ∀ heap, (program.run heap).2 = heap)
    (learnt : ∀ heap value, heap.Sound → enclave.Guarded heap → enclave.Knows heap known →
      (program.run heap).1 = .ok value → enclave.Knows heap (learns value)) :
    enclave.Gives known program learns where
  tame := Tame.of_unchanged unchanged
  spares heap ready knows := by
    rw [unchanged]
    exact ⟨ready.guarded.spared_refl,
      fun value returned => learnt heap value ready.sound ready.guarded knows returned⟩

protected theorem pure {value : α} {learns : α → List Fact}
    (learnt : ∀ heap, enclave.Knows heap known → enclave.Knows heap (learns value)) :
    enclave.Gives known (pure value) learns := by
  apply of_unchanged fun _ => rfl
  intro heap other _ _ knows returned
  cases returned
  exact learnt heap knows

protected theorem throw (error : HeapError) {learns : α → List Fact} :
    enclave.Gives known (throw error : HeapM α) learns := by
  apply of_unchanged fun _ => rfl
  intro heap value _ _ _ returned
  cases returned

protected theorem get : enclave.Spares known (get : HeapM Heap) :=
  of_unchanged (fun _ => rfl) fun heap _ _ _ _ _ => knows_nil heap

/-- The answer to a question may tell something. -/
protected theorem ask {question : Heap → Except HeapError α} {learns : α → List Fact}
    (learnt : ∀ heap value, heap.Sound → enclave.Guarded heap → enclave.Knows heap known →
      question heap = .ok value → enclave.Knows heap (learns value)) :
    enclave.Gives known (HeapM.ask question) learns := by
  apply of_unchanged fun heap => by rw [HeapM.run_ask]
  intro heap value sound guarded knows returned
  rw [HeapM.run_ask] at returned
  exact learnt heap value sound guarded knows returned

/-- A question may be asked without regard to the answer. -/
theorem asking (question : Heap → Except HeapError α) :
    enclave.Spares known (HeapM.ask question) :=
  Gives.ask fun heap _ _ _ _ _ => knows_nil heap

/-- Programs that spare an enclave may run one after the other. -/
protected theorem bind {first : HeapM α} {next : α → HeapM β} {learns : α → List Fact}
    {tells : β → List Fact} (gives : enclave.Gives known first learns)
    (rest : ∀ value, enclave.Gives (learns value ++ known) (next value) tells) :
    enclave.Gives known (first >>= next) tells where
  tame := gives.tame.bind fun value => (rest value).tame
  spares heap ready knows := by
    have starts := gives.spares heap
    have stages := ready.toAssured.stages gives.tame fun value => (rest value).tame
    generalize (first >>= next).run heap = result at stages
    cases stages with
    | stopped ran assured =>
        rw [ran] at starts
        refine ⟨(starts ⟨assured, ready.guarded⟩ knows).1, ?_⟩
        intro value returned
        cases returned
    | @went value middle ran assured assuredRest =>
        rw [ran] at starts
        obtain ⟨spared, learnt⟩ := starts ⟨assured, ready.guarded⟩ knows
        have known := (learnt value rfl).append (spared.knows knows)
        obtain ⟨sparedToo, told⟩ :=
          (rest value).spares middle ⟨assuredRest, spared.guarded⟩ known
        exact ⟨spared.trans sparedToo, told⟩

/-- What an attempt tells if it succeeds. -/
def onSuccess (learns : α → List Fact) : Except HeapError α → List Fact
  | .ok value => learns value
  | .error _ => []

protected theorem attempt {program : HeapM α} {learns : α → List Fact}
    (gives : enclave.Gives known program learns) :
    enclave.Gives known (HeapM.attempt program) (onSuccess learns) where
  tame := gives.tame.attempt
  spares heap ready knows := by
    rw [HeapM.run_attempt] at ready ⊢
    obtain ⟨spared, learnt⟩ := gives.spares heap ready knows
    refine ⟨spared, ?_⟩
    intro outcome returned
    cases returned
    dsimp only
    cases result : (program.run heap).1 with
    | ok value => exact learnt value result
    | error error => exact knows_nil _

protected theorem ite {condition : Prop} [Decidable condition] {first second : HeapM α}
    {learns : α → List Fact} (whenTrue : enclave.Gives known first learns)
    (whenFalse : enclave.Gives known second learns) :
    enclave.Gives known (if condition then first else second) learns := by
  by_cases holds : condition
  · rw [if_pos holds]
    exact whenTrue
  · rw [if_neg holds]
    exact whenFalse

end Gives

/-! ## Holds -/

variable {known : List Fact}

theorem spares_retain (handle : Handle) : enclave.Spares known (retain handle) := by
  apply Gives.of_views (tame_retain handle)
  intro heap
  rcases run_retain heap handle with ⟨_, next, ran, adds⟩ | ⟨_, ran⟩
  · rw [ran]
    exact adds.recounts.view?
  · rw [ran]

theorem spares_release (handle : Handle) : enclave.Spares known (release handle) := by
  apply Gives.of_views (tame_release handle)
  intro heap
  rcases run_release heap handle with ⟨_, next, ran, drops⟩ | ⟨_, _, error, _, ran⟩
  · rw [ran]
    exact drops.recounts.view?
  · rw [ran]

theorem spares_releaseAll (handles : List Handle) :
    enclave.Spares known (releaseAll handles) :=
  Gives.of_views (tame_releaseAll handles) fun heap => (recounts_releaseAll handles heap).view?

theorem spares_retainAfter (taken handles : List Handle) :
    enclave.Spares known (retainAfter taken handles) := by
  induction handles generalizing taken with
  | nil => exact Gives.pure fun heap _ => knows_nil heap
  | cons handle rest ih =>
      unfold retainAfter
      apply (spares_retain handle).attempt.bind
      intro outcome
      cases outcome with
      | ok value => exact (ih (taken ++ [handle])).more (List.subset_append_right _ _)
      | error error => exact (spares_releaseAll taken).bind fun _ => Gives.throw error

/-- What follows the holding of objects, or the release of one, tells what the program told. -/
theorem gives_afterwards {α : Type} {learns : α → List Fact} {close : HeapM Unit}
    (spares : ∀ known, enclave.Spares known close) (value : α) :
    enclave.Gives (learns value ++ known) (do close; return value) learns := by
  apply (spares _).bind
  intro _
  apply Gives.pure
  intro heap knows fact member
  exact knows fact (List.mem_append_right _ (List.mem_append_left _ member))

theorem gives_withHeld {α : Type} (handles : List Handle) {body : HeapM α}
    {learns : α → List Fact} (gives : enclave.Gives known body learns) :
    enclave.Gives known (withHeld handles body) learns := by
  unfold withHeld
  apply (spares_retainAfter [] handles).bind
  intro _
  apply gives.attempt.bind
  intro outcome
  cases outcome with
  | ok value => exact gives_afterwards (fun _ => spares_releaseAll handles) value
  | error error => exact (spares_releaseAll handles).bind fun _ => Gives.throw error

theorem gives_orRelease {α : Type} (handle : Handle) {rest : HeapM α} {learns : α → List Fact}
    (gives : enclave.Gives known rest learns) :
    enclave.Gives known (RefArray.orRelease handle rest) learns := by
  unfold RefArray.orRelease
  apply gives.attempt.bind
  intro outcome
  cases outcome with
  | ok value =>
      apply Gives.pure
      intro heap knows fact member
      exact knows fact (List.mem_append_left _ member)
  | error error => exact (spares_release handle).bind fun _ => Gives.throw error

/-! ## Allocations -/

/-- What is known of the handle of a new object. -/
def newFacts (handle : Handle) : List Fact :=
  [.outside handle, .clear .vector handle, .clear .array handle]

section

variable {heap next : Heap} {view : View} {handle : Handle} (ready : enclave.Ready heap next)
  (allocates : heap.Allocates next view handle)

include ready allocates

/-- A new object is no part. -/
theorem Ready.outside_new : enclave.Outside handle := by
  cases part : enclave.part? handle with
  | none => exact part
  | some shown =>
      have unseen := ready.sound.isLive_eq_false_iff.mp allocates.new
      rw [ready.guarded.parts handle shown part] at unseen
      cases unseen

/-- A new object without references changes nothing of an enclave. -/
theorem Ready.changes_new (sane : view.Sane) (unbacked : view.ref storageOffset = none) :
    enclave.Changes heap next fun _ target => enclave.Outside target := by
  apply changes_of_retains allocates.rest
  rintro other same
  cases same
  refine ⟨ready.sound.isLive_eq_false_iff.mp allocates.new, ready.outside_new allocates, ?_⟩
  intro shown seen
  rw [allocates.seen] at seen
  cases seen
  exact ⟨sane, unbacked⟩

/-- What is known of a new object without references. -/
theorem Ready.knows_new (unbacked : view.ref storageOffset = none) :
    enclave.Knows next (newFacts handle) := by
  have outside := ready.outside_new allocates
  have clear : ∀ id, enclave.Clear next id handle := by
    intro id
    refine ⟨outside, ?_⟩
    intro shown target seen refers
    rw [allocates.seen] at seen
    cases seen
    rw [unbacked] at refers
    cases refers
  intro fact member
  simp only [newFacts, List.mem_cons, List.not_mem_nil, or_false] at member
  rcases member with rfl | rfl | rfl
  · exact outside
  · exact clear .vector
  · exact clear .array

end

/-- A program that allocates an object without references spares every enclave. -/
theorem gives_of_allocating {program : HeapM Handle} (tame : Tame program)
    (allocating : ∀ heap : Heap, heap.Sound → heap.classes.Numbered →
      (program.run heap).2.handles.slots < 2 ^ 32 →
      (∃ error, program.run heap = (.error error, heap)) ∨
        ∃ view, heap.Allocating view (program.run heap) ∧ view.Sane ∧
          view.ref storageOffset = none) :
    enclave.Gives known program newFacts where
  tame := tame
  spares heap ready _ := by
    have live := ready.isLive_root tame
    have nextSound := tame.sound ready.sound ready.bounded
    rcases allocating heap ready.sound ready.numbered ready.bounded with
      ⟨error, ran⟩ | ⟨view, allocates, sane, unbacked⟩
    · rw [ran]
      refine ⟨ready.guarded.spared_refl, ?_⟩
      intro value returned
      cases returned
    · generalize program.run heap = result at allocates live nextSound ready
      cases allocates with
      | placed allocates =>
          have changes := ready.changes_new allocates sane unbacked
          refine ⟨ready.guarded.spared changes nextSound live, ?_⟩
          intro value returned
          cases returned
          exact ready.knows_new allocates unbacked
      | @refused _ _ next retains =>
          have changes : enclave.Changes heap next fun _ target => enclave.Outside target :=
            changes_of_retains retains (by simp)
          refine ⟨ready.guarded.spared changes nextSound live, ?_⟩
          intro value returned
          cases returned

/-- A class with the number of one that every heap offers is that class. -/
theorem builtin_of_get {heap : Heap} (sound : heap.Sound) (numbered : heap.classes.Numbered)
    {id : ClassId} {descriptor : Descriptor} (known : heap.classes.get id = .ok descriptor)
    {offered : Descriptor} (found : Registry.initial.classes[descriptor.id.index]? = some offered) :
    descriptor = offered := by
  have same := numbered.id_of_get known
  have builtin := sound.get_builtin found
  rw [same, known] at builtin
  exact Except.ok.inj builtin

/-- A blank object is sane. -/
theorem sane_fresh {heap : Heap} (sound : heap.Sound) (numbered : heap.classes.Numbered)
    {id : ClassId} {descriptor : Descriptor} (registered : heap.classes.get id = .ok descriptor)
    (extra : UInt32) : (View.fresh descriptor extra).Sane := by
  refine ⟨fun offered found => builtin_of_get sound numbered registered found, ?_⟩
  intro char
  have same : descriptor = Registry.charClass :=
    builtin_of_get sound numbered registered (by rw [show descriptor.id = .char from char]; rfl)
  subst same
  change (0 : UInt64).toUInt32.isValidChar
  decide

theorem gives_allocate (id : ClassId) (extra : Nat) :
    enclave.Gives known (allocate id extra) newFacts := by
  apply gives_of_allocating (tame_allocate id extra)
  intro heap sound numbered bounded
  cases registered : heap.classes.get id with
  | error error => exact Or.inl ⟨error, run_allocate_unknown registered extra⟩
  | ok descriptor =>
      exact Or.inr ⟨_, sound.allocating registered extra bounded,
        sane_fresh sound numbered registered _, rfl⟩

theorem gives_allocateBytes (id : ClassId) (bytes : Bytes) :
    enclave.Gives known (allocateBytes id bytes) newFacts := by
  apply gives_of_allocating (tame_allocateBytes id bytes)
  intro heap sound numbered bounded
  cases registered : heap.classes.get id with
  | error error =>
      exact Or.inl ⟨error, run_allocateBytes_unknown registered bytes⟩
  | ok descriptor =>
      by_cases tail : descriptor.tail = .bytes
      · exact Or.inr ⟨_, sound.allocating_bytes registered tail bytes bounded,
          (sane_fresh sound numbered registered _).congr rfl rfl, rfl⟩
      · left
        rw [run_allocateBytes registered, if_neg tail]
        exact ⟨_, rfl⟩

theorem gives_allocScalar {id : ClassId}
    (scalar : id ∈ [ClassId.int, ClassId.float, ClassId.bool, ClassId.char]) (word : UInt64)
    (valid : id = .char → word.toUInt32.isValidChar) :
    enclave.Gives known (allocScalar id word) newFacts := by
  apply gives_of_allocating (tame_allocScalar scalar word)
  intro heap sound numbered bounded
  obtain ⟨descriptor, registered, identity, allocating⟩ :=
    sound.allocating_scalar scalar word bounded
  refine Or.inr ⟨_, allocating, ?_, rfl⟩
  exact ⟨fun offered found => builtin_of_get sound numbered registered found,
    fun char => valid (identity.symm.trans char)⟩

theorem spares_collect : enclave.Spares known collect where
  tame := tame_collect
  spares heap ready _ := by
    have live := ready.isLive_root tame_collect
    have nextSound := tame_collect.sound ready.sound ready.bounded
    have retains : heap.Retains (collect.run heap).2 none := by
      change heap.Retains heap.collectNow.2 none
      rcases ran : heap.collectNow with ⟨error | _, next⟩
      · exact (Clears.abandoned ran).retains ready.sound
      · exact (Clears.collected ran).retains ready.sound
    have changes : enclave.Changes heap (collect.run heap).2
        fun _ target => enclave.Outside target :=
      changes_of_retains retains (by simp)
    exact ⟨ready.guarded.spared changes nextSound live, fun _ _ => knows_nil _⟩

/-! ## Writes -/

/-- Where a checked write changes an object outside the enclave, and makes no part back it, the
enclave is spared. -/
theorem Guarded.spared_of_writing {heap : Heap} (guarded : enclave.Guarded heap) {handle : Handle}
    {allowed : View → Prop} {change : View → View} {result : Except HeapError PUnit × Heap}
    (writing : heap.Writing handle allowed change result) (nextSound : result.2.Sound)
    (live : ∀ root ∈ enclave.roots, result.2.isLive root = true)
    (fine : ∀ view, heap.view? handle = some view → allowed view →
      enclave.Outside handle ∧ view.descriptor.id = (change view).descriptor.id ∧
        (change view).Sane ∧ ∀ target, (change view).ref storageOffset = some target →
          enclave.Outside target ∨ view.ref storageOffset = some target) :
    enclave.Spared heap result.2 := by
  cases writing with
  | @written view next seen allows rewrites =>
      obtain ⟨outside, sameClass, sane, backed⟩ := fine view seen allows
      exact guarded.spared (changes_of_rewrites rewrites seen outside sameClass sane backed)
        nextSound live
  | refused _ => exact guarded.spared_refl

/-- A write of a reference spares the enclave if it is to another object, and makes no part back
it. -/
theorem spares_writeRef {handle : Handle} {offset : Nat} {value : Option Handle}
    (outside : ∀ heap, enclave.Knows heap known → enclave.Outside handle)
    (backed : offset = storageOffset → ∀ target, value = some target →
      ∀ heap, enclave.Knows heap known → enclave.Outside target) :
    enclave.Spares known (writeRef handle offset value) where
  tame := tame_writeRef handle offset value
  spares heap ready knows := by
    refine ⟨?_, fun _ _ => knows_nil _⟩
    apply ready.guarded.spared_of_writing (ready.sound.writing_ref handle offset value)
      ((tame_writeRef handle offset value).sound ready.sound ready.bounded)
      (ready.isLive_root (tame_writeRef handle offset value))
    intro view seen _
    refine ⟨outside heap knows, rfl, (ready.guarded.sane handle view seen).congr rfl rfl, ?_⟩
    intro target refers
    change Function.update view.ref offset value storageOffset = some target at refers
    by_cases storage : storageOffset = offset
    · subst storage
      rw [Function.update_self] at refers
      exact Or.inl (backed rfl target refers heap knows)
    · rw [Function.update_of_ne storage] at refers
      exact Or.inr refers

/-- Characters have no plain word. -/
theorem isDataWord_charClass (offset : Nat) : Registry.charClass.isDataWord offset = false := by
  have size : ¬ offset + wordBytes ≤ Registry.charClass.size := by
    simp [Registry.charClass, wordBytes]
  simp [Descriptor.isDataWord, size]

theorem spares_writeWord {handle : Handle} {offset : Nat} {value : UInt64}
    (outside : ∀ heap, enclave.Knows heap known → enclave.Outside handle) :
    enclave.Spares known (Heap.writeWord handle offset value) where
  tame := tame_writeWord handle offset value
  spares heap ready knows := by
    refine ⟨?_, fun _ _ => knows_nil _⟩
    apply ready.guarded.spared_of_writing (ready.sound.writing_word handle offset value)
      ((tame_writeWord handle offset value).sound ready.sound ready.bounded)
      (ready.isLive_root (tame_writeWord handle offset value))
    intro view seen plain
    refine ⟨outside heap knows, rfl, ?_, fun target refers => Or.inr refers⟩
    have sane := ready.guarded.sane handle view seen
    refine ⟨sane.builtin, ?_⟩
    intro char
    have same : view.descriptor = Registry.charClass :=
      sane.builtin _ (by rw [show view.descriptor.id = .char from char]; rfl)
    rw [same, isDataWord_charClass] at plain
    cases plain

/-- An object with a run that is no vector of the enclave is no part of it. -/
theorem Guarded.outside_of_run {heap : Heap} (guarded : enclave.Guarded heap) {handle : Handle}
    {view : View} (seen : heap.view? handle = some view)
    (run : view.descriptor.runOffset?.isSome = true) (bare : ¬ enclave.Has handle .vector) :
    enclave.Outside handle := by
  cases part : enclave.part? handle with
  | none => exact part
  | some shown =>
      have same := guarded.parts handle shown part
      rw [seen] at same
      cases same
      exact absurd ⟨_, part, enclave.vectors handle _ part run⟩ bare

theorem spares_runSet {handle : Handle} {index : Nat} {value : Option Handle}
    (bare : ∀ heap, enclave.Knows heap known → ¬ enclave.Has handle .vector) :
    enclave.Spares known (runSet handle index value) where
  tame := tame_runSet handle index value
  spares heap ready knows := by
    refine ⟨?_, fun _ _ => knows_nil _⟩
    apply ready.guarded.spared_of_writing (ready.sound.writing_element handle index value)
      ((tame_runSet handle index value).sound ready.sound ready.bounded)
      (ready.isLive_root (tame_runSet handle index value))
    intro view seen allowed
    exact ⟨ready.guarded.outside_of_run seen allowed.1 (bare heap knows), rfl,
      (ready.guarded.sane handle view seen).congr rfl rfl, fun target refers => Or.inr refers⟩

theorem spares_copyRun {source target : Handle} {count : Nat}
    (bare : ∀ heap, enclave.Knows heap known → ¬ enclave.Has target .vector) :
    enclave.Spares known (copyRun source target count) where
  tame := tame_copyRun source target count
  spares heap ready knows := by
    refine ⟨?_, fun _ _ => knows_nil _⟩
    apply ready.guarded.spared_of_writing (ready.sound.writing_copy source target count)
      ((tame_copyRun source target count).sound ready.sound ready.bounded)
      (ready.isLive_root (tame_copyRun source target count))
    intro view seen allowed
    exact ⟨ready.guarded.outside_of_run seen allowed.2.1 (bare heap knows), rfl,
      (ready.guarded.sane target view seen).congr rfl rfl, fun other refers => Or.inr refers⟩

end Enclave

end CompactingHeap
