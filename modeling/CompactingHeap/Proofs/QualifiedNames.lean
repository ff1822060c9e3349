import CompactingHeap.Proofs.CanonicalStrings

/-!
# Qualified names

Composing two interned names is interning their bytes with a dot between them.  The composed pairs
are remembered, but what is remembered agrees with interning in every run, so the same bytes have
the same qualified name however they are split, and a path has the name of its segments joined with
dots.  The components of a qualified name are the pair that it was composed from first, and stay
so.
-/

namespace CompactingHeap

open Heap

namespace Heap

section

variable {heap next : Heap} {strings : List Bytes} {scope name : Handle}

/-! ## Handles that are no interned strings -/

/-- Why a handle is not taken for an interned string. -/
inductive Rejects (heap : Heap) (handle : Handle) : HeapError → Prop
  | stale : heap.isLive handle = false → Rejects heap handle (.staleHandle handle)
  | otherClass {descriptor : Descriptor} : heap.descriptorOf handle = .ok descriptor →
      descriptor.id ≠ .string → Rejects heap handle (.wrongType "core.String" descriptor.name)
  | ordinary {bytes : Bytes} : heap.string handle = .ok bytes → heap.isInterned handle = false →
      Rejects heap handle (.wrongType "interned core.String" "uninterned core.String")

/-- An interned string shows the bytes that it is the canonical string for. -/
theorem internedBytes_of_isInterned {handle : Handle} (interned : heap.isInterned handle = true) :
    ∃ bytes, heap.internedBytes handle = .ok bytes := by
  unfold isInterned at interned
  split at interned
  · next bytes read =>
    have listed := of_decide_eq_true interned
    refine ⟨bytes, ?_⟩
    unfold internedBytes
    rw [read]
    exact if_pos listed
  · cases interned

theorem internedBytes_of_lookup (catalogue : heap.Catalogue strings) {handle : Handle}
    {bytes : Bytes} (listed : heap.interner.lookup bytes = some handle) :
    heap.internedBytes handle = .ok bytes := by
  unfold internedBytes
  rw [(catalogue.canonical bytes handle listed).string]
  exact if_pos listed

/-- A handle that is no interned string is rejected for its reason. -/
theorem Sound.rejects (sound : heap.Sound) {handle : Handle}
    (ordinary : heap.isInterned handle = false) :
    ∃ error, heap.internedBytes handle = .error error ∧ heap.Rejects handle error := by
  unfold internedBytes
  cases seen : heap.view? handle with
  | none =>
      refine ⟨.staleHandle handle, ?_, Rejects.stale (sound.isLive_eq_false_iff.mpr seen)⟩
      unfold Heap.string expect
      rw [sound.objectOf_stale seen]
      rfl
  | some view =>
      have read := string_of_view seen
      have known : heap.classes.get .string = .ok Registry.stringClass := sound.get_builtin rfl
      by_cases string : view.descriptor.id = .string
      · rw [if_pos string] at read
        refine ⟨_, ?_, Rejects.ordinary read ordinary⟩
        unfold isInterned at ordinary
        rw [read] at ordinary ⊢
        exact if_neg (of_decide_eq_false ordinary)
      · rw [if_neg string, known] at read
        refine ⟨_, ?_, Rejects.otherClass (descriptorOf_of_view seen) string⟩
        rw [read]
        rfl

/-! ## Composing two names -/

/-- Composing two interned names has the outcome of interning their bytes with a dot between
them. -/
theorem Catalogue.outcome_qualify (catalogue : heap.Catalogue strings)
    {scopeBytes nameBytes : Bytes} (first : heap.interner.lookup scopeBytes = some scope)
    (second : heap.interner.lookup nameBytes = some name) :
    ((qualify scope name).run heap).1 = ((intern (scopeBytes ++ dot :: nameBytes)).run heap).1 := by
  cases remembered : heap.interner.qualified scope name with
  | some qualified =>
      obtain ⟨otherScope, otherName, one, other, both⟩ := catalogue.qualified remembered
      obtain rfl := catalogue.lookup_inj one first
      obtain rfl := catalogue.lookup_inj other second
      rw [run_qualify_of_remembered remembered, run_intern_of_some both]
  | none =>
      rw [run_qualify_of_new remembered (internedBytes_of_lookup catalogue first)
        (internedBytes_of_lookup catalogue second), HeapM.run_bind]
      rcases (intern (scopeBytes ++ dot :: nameBytes)).run heap with ⟨error | qualified, middle⟩
      · rfl
      · rfl

/-- A handle that is no interned string is refused, and nothing changes. -/
theorem Catalogue.qualify_refused (catalogue : heap.Catalogue strings) (sound : heap.Sound) :
    (heap.isInterned scope = false →
      ∃ error, heap.Rejects scope error ∧ (qualify scope name).run heap = (.error error, heap)) ∧
    (heap.isInterned scope = true → heap.isInterned name = false →
      ∃ error, heap.Rejects name error ∧ (qualify scope name).run heap = (.error error, heap)) := by
  have interned {handle : Handle} {bytes : Bytes}
      (listed : heap.interner.lookup bytes = some handle) : heap.isInterned handle = true :=
    (catalogue.canonical bytes handle listed).isInterned
  have new (ordinary : heap.isInterned scope = false ∨ heap.isInterned name = false) :
      heap.interner.qualified scope name = none := by
    cases remembered : heap.interner.qualified scope name with
    | none => rfl
    | some qualified =>
        obtain ⟨_, _, first, second, _⟩ := catalogue.qualified remembered
        rw [interned first, interned second] at ordinary
        simp at ordinary
  constructor
  · intro ordinary
    obtain ⟨error, fails, rejects⟩ := sound.rejects ordinary
    exact ⟨error, rejects, run_qualify_of_error (new (Or.inl ordinary)) (Or.inl fails)⟩
  · intro scopeInterned ordinary
    obtain ⟨scopeBytes, read⟩ := internedBytes_of_isInterned scopeInterned
    obtain ⟨error, fails, rejects⟩ := sound.rejects ordinary
    exact ⟨error, rejects,
      run_qualify_of_error (new (Or.inr ordinary)) (Or.inr ⟨scopeBytes, read, fails⟩)⟩

/-! ## Names for later -/

/-- What is interned is interned again to the same handle, which changes nothing. -/
theorem LeadsTo.run_intern {handles : List Handle} {later : Heap}
    (leads : heap.LeadsTo handles later) (reachable : heap.Reachable) {bytes : Bytes}
    {handle : Handle} (listed : heap.interner.lookup bytes = some handle) :
    (intern bytes).run later = (.ok handle, later) :=
  run_intern_of_some (leads.lookup reachable listed)

/-- A name that has been composed is that of the bytes of its parts. -/
theorem Interned.qualify_ok (interned : heap.Interned strings) {qualified : Handle}
    (ran : (Heap.qualify scope name).run heap = (.ok qualified, next))
    (bounded : next.handles.slots < 2 ^ 32) :
    ∃ scopeBytes nameBytes, heap.internedBytes scope = .ok scopeBytes ∧
      heap.internedBytes name = .ok nameBytes ∧
      next.interner.lookup (scopeBytes ++ dot :: nameBytes) = some qualified := by
  have qualifies := interned.catalogue.qualifies interned.reachable.sound scope name
  rw [ran] at qualifies
  cases qualifies bounded with
  | composed first second both _ =>
      exact ⟨_, _, internedBytes_of_lookup interned.catalogue first,
        internedBytes_of_lookup interned.catalogue second, both⟩

/-- Two names composed in one run are the same just if their bytes are, however they are split. -/
theorem Interned.qualify_inj (interned : heap.Interned strings) {qualified : Handle}
    (ran : (Heap.qualify scope name).run heap = (.ok qualified, next))
    (bounded : next.handles.slots < 2 ^ 32) {later last : Heap} (leads : next.LeadsTo [] later)
    {otherScope otherName other : Handle}
    (again : (Heap.qualify otherScope otherName).run later = (.ok other, last))
    (bound : last.handles.slots < 2 ^ 32)
    {scopeBytes nameBytes otherScopeBytes otherNameBytes : Bytes}
    (scopeRead : heap.string scope = .ok scopeBytes) (nameRead : heap.string name = .ok nameBytes)
    (otherScopeRead : later.string otherScope = .ok otherScopeBytes)
    (otherNameRead : later.string otherName = .ok otherNameBytes) :
    qualified = other ↔
      scopeBytes ++ dot :: nameBytes = otherScopeBytes ++ dot :: otherNameBytes := by
  have between := interned.reachable.of_ran (Operation.qualify scope name) ran bounded
  have reached := leads.reachable between
  obtain ⟨known, run⟩ := reached.interned
  obtain ⟨_, _, first, second, both⟩ := interned.qualify_ok ran bounded
  obtain ⟨_, _, third, fourth, together⟩ := run.qualify_ok again bound
  cases scopeRead.symm.trans (internedBytes_eq_ok first).1
  cases nameRead.symm.trans (internedBytes_eq_ok second).1
  cases otherScopeRead.symm.trans (internedBytes_eq_ok third).1
  cases otherNameRead.symm.trans (internedBytes_eq_ok fourth).1
  have after := reached.of_ran (Operation.qualify otherScope otherName) again bound
  obtain ⟨recorded, finished⟩ := after.interned
  obtain ⟨log, course⟩ := (tame_qualify otherScope otherName).course later reached.sound
    (by rw [again]; exact bound)
  rw [again] at course
  have stays := course.lookup reached.sound bound (leads.lookup between both)
  constructor
  · rintro rfl
    exact finished.catalogue.lookup_inj stays together
  · intro same
    rw [same, together] at stays
    exact (Option.some.inj stays).symm

/-! ## Paths -/

/-- The bytes of a path behind a scope. -/
def pathBytes (scope : Bytes) (segments : List Bytes) : Bytes :=
  segments.foldl (fun path segment => path ++ dot :: segment) scope

/-- A path is its segments joined with dots. -/
theorem pathBytes_eq_intercalate (first : Bytes) (rest : List Bytes) :
    pathBytes first rest = [dot].intercalate (first :: rest) := by
  induction rest generalizing first with
  | nil => simp [pathBytes, List.intercalate]
  | cons second rest ih =>
      have step : pathBytes first (second :: rest) = pathBytes (first ++ dot :: second) rest := rfl
      rw [step, ih]
      cases rest <;> simp [List.intercalate]

/-- What is left of a path behind an interned scope is qualified to the name of the whole path. -/
theorem Interned.lookup_qualifyFrom (interned : heap.Interned strings) {scopeBytes : Bytes}
    (listed : heap.interner.lookup scopeBytes = some scope) (segments : List Bytes)
    {qualified : Handle} (ran : (Heap.qualifyFrom scope segments).run heap = (.ok qualified, next))
    (bounded : next.handles.slots < 2 ^ 32) :
    next.interner.lookup (pathBytes scopeBytes segments) = some qualified := by
  -- As the segments are interned, the scope grows by one segment after the other.
  induction segments generalizing heap strings scopeBytes scope with
  | nil =>
      cases ran
      exact listed
  | cons segment rest ih =>
      unfold Heap.qualifyFrom at ran
      obtain ⟨name, middle, interns, composing⟩ := HeapM.run_bind_eq_ok ran
      obtain ⟨qualified, finish, composes, going⟩ := HeapM.run_bind_eq_ok composing
      have finishBounded : finish.handles.slots < 2 ^ 32 := by
        have grows := (tame_qualifyFrom qualified rest).grows finish
        rw [going] at grows
        exact Nat.lt_of_le_of_lt grows bounded
      have middleBounded : middle.handles.slots < 2 ^ 32 := by
        have grows := (tame_qualify scope name).grows middle
        rw [composes] at grows
        exact Nat.lt_of_le_of_lt grows finishBounded
      have reached := interned.interned interns middleBounded
      obtain ⟨log, course⟩ := (tame_intern segment).course heap interned.reachable.sound
        (by rw [interns]; exact middleBounded)
      rw [interns] at course
      have scopeListed := course.lookup interned.reachable.sound middleBounded listed
      have nameInterns := interned.reachable.sound.interns segment
      rw [interns] at nameInterns
      have nameListed := (interned.catalogue.of_interns interned.reachable.sound
        (nameInterns middleBounded)).2
      obtain ⟨_, _, first, second, both⟩ := reached.qualify_ok composes finishBounded
      obtain rfl := reached.catalogue.lookup_inj (internedBytes_eq_ok first).2 scopeListed
      obtain rfl := reached.catalogue.lookup_inj (internedBytes_eq_ok second).2 nameListed
      have done := Interned.qualified reached (internedBytes_eq_ok first).1
        (internedBytes_eq_ok second).1 composes finishBounded
      exact ih done both going

/-- A path is qualified to the name of its segments joined with dots. -/
theorem Interned.lookup_qualifyPath (interned : heap.Interned strings) {segments : List Bytes}
    {qualified : Handle} (ran : (Heap.qualifyPath segments).run heap = (.ok qualified, next))
    (bounded : next.handles.slots < 2 ^ 32) :
    next.interner.lookup ([dot].intercalate segments) = some qualified := by
  cases segments with
  | nil => cases ran
  | cons first rest =>
      unfold Heap.qualifyPath at ran
      obtain ⟨scope, middle, interns, ran⟩ := HeapM.run_bind_eq_ok ran
      have middleBounded : middle.handles.slots < 2 ^ 32 := by
        have grows := (tame_qualifyFrom scope rest).grows middle
        rw [ran] at grows
        exact Nat.lt_of_le_of_lt grows bounded
      have reached := interned.interned interns middleBounded
      have scopeInterns := interned.reachable.sound.interns first
      rw [interns] at scopeInterns
      have listed := (interned.catalogue.of_interns interned.reachable.sound
        (scopeInterns middleBounded)).2
      rw [← pathBytes_eq_intercalate]
      exact reached.lookup_qualifyFrom listed rest ran bounded

/-! ## Components -/

/-- The namespace and the name of the first composition of a qualified name, the latest being listed
first. -/
def firstPair (record : List Composition) (qualified : Handle) : Option (Handle × Handle) :=
  (record.findRev? (·.qualified = qualified)).map fun c => (c.scope, c.name)

theorem firstPair_cons (composition : Composition) (record : List Composition)
    (qualified : Handle) :
    firstPair (composition :: record) qualified = (firstPair record qualified).or
      (if composition.qualified = qualified then some (composition.scope, composition.name)
        else none) := by
  unfold firstPair
  rw [List.findRev?_eq_find?_reverse, List.findRev?_eq_find?_reverse, List.reverse_cons,
    List.find?_append]
  cases record.reverse.find? (·.qualified = qualified) with
  | some first => simp
  | none =>
      by_cases same : composition.qualified = qualified
      · simp [same]
      · simp [same]

/-- What has been composed has a first pair. -/
theorem exists_firstPair {record : List Composition} {composition : Composition}
    (member : composition ∈ record) :
    ∃ pair, firstPair record composition.qualified = some pair := by
  unfold firstPair
  rw [List.findRev?_eq_find?_reverse]
  cases found : record.reverse.find? (·.qualified = composition.qualified) with
  | some first => exact ⟨_, rfl⟩
  | none =>
      have missing := List.find?_eq_none.mp found composition (List.mem_reverse.mpr member)
      simp at missing

/-- What has been composed first stays first. -/
theorem firstPair_append {record : List Composition} {qualified : Handle} {pair : Handle × Handle}
    (first : firstPair record qualified = some pair) (more : List Composition) :
    firstPair (more ++ record) qualified = some pair := by
  induction more with
  | nil => exact first
  | cons composition more ih => rw [List.cons_append, firstPair_cons, ih, Option.some_or]

theorem components_eq (qualified : Handle) :
    heap.components qualified = firstPair heap.interner.compositions qualified :=
  rfl

/-- Interning a string remembers no pair. -/
theorem Sound.compositions_intern (sound : heap.Sound) (bytes : Bytes)
    (bounded : ((Heap.intern bytes).run heap).2.handles.slots < 2 ^ 32) :
    ((Heap.intern bytes).run heap).2.interner.compositions = heap.interner.compositions := by
  have interns := sound.interns bytes bounded
  generalize (Heap.intern bytes).run heap = result at interns ⊢
  cases interns with
  | found _ => rfl
  | added _ _ interner _ _ =>
      dsimp only
      rw [interner]
      rfl
  | refused _ retains => exact congrArg Interner.compositions retains.interner

/-- What composing a name remembers: the pair, if it succeeds and the pair is not remembered yet. -/
inductive Remembers (heap : Heap) (scope name : Handle) : Except HeapError Handle × Heap → Prop
  | known {qualified : Handle} : heap.interner.qualified scope name = some qualified →
      Remembers heap scope name (.ok qualified, heap)
  | added {qualified : Handle} {next : Heap} :
      next.interner.compositions = ⟨scope, name, qualified⟩ :: heap.interner.compositions →
        Remembers heap scope name (.ok qualified, next)
  | failed {error : HeapError} {next : Heap} :
      next.interner.compositions = heap.interner.compositions →
        Remembers heap scope name (.error error, next)

theorem Sound.remembers (sound : heap.Sound) (scope name : Handle)
    (bounded : ((Heap.qualify scope name).run heap).2.handles.slots < 2 ^ 32) :
    heap.Remembers scope name ((Heap.qualify scope name).run heap) := by
  cases remembered : heap.interner.qualified scope name with
  | some qualified =>
      rw [run_qualify_of_remembered remembered]
      exact Remembers.known remembered
  | none =>
      cases scopeRead : heap.internedBytes scope with
      | error error =>
          rw [run_qualify_of_error remembered (Or.inl scopeRead)]
          exact Remembers.failed rfl
      | ok scopeBytes =>
          cases nameRead : heap.internedBytes name with
          | error error =>
              rw [run_qualify_of_error remembered (Or.inr ⟨scopeBytes, scopeRead, nameRead⟩)]
              exact Remembers.failed rfl
          | ok nameBytes =>
              rw [run_qualify_of_new remembered scopeRead nameRead, HeapM.run_bind] at bounded ⊢
              have same := sound.compositions_intern (scopeBytes ++ dot :: nameBytes)
              rcases interns : (Heap.intern (scopeBytes ++ dot :: nameBytes)).run heap with
                ⟨error | qualified, middle⟩
              · rw [interns] at bounded same
                exact Remembers.failed (same bounded)
              · rw [interns] at bounded same
                exact Remembers.added (congrArg (List.cons _) (same bounded))

end

/-- The names that have been composed by a run of operations from a new heap, the latest first.  A
path is qualified by interning its segments and composing names. -/
inductive Composed : Heap → List Composition → Prop
  | created {system : MemorySystem} {config : Config} {heap : Heap} :
      Heap.new system config = .ok heap → Composed heap []
  | apart {α : Type} {operation : HeapM α} {heap : Heap} {record : List Composition} :
      Composed heap record → Operation operation → ¬ Interning operation →
        (operation.run heap).2.handles.slots < 2 ^ 32 → Composed (operation.run heap).2 record
  | interned {heap next : Heap} {record : List Composition} {bytes : Bytes}
      {outcome : Except HeapError Handle} :
      Composed heap record → (intern bytes).run heap = (outcome, next) →
        next.handles.slots < 2 ^ 32 → Composed next record
  | qualified {heap next : Heap} {record : List Composition} {scope name qualified : Handle} :
      Composed heap record → (qualify scope name).run heap = (.ok qualified, next) →
        next.handles.slots < 2 ^ 32 → Composed next (⟨scope, name, qualified⟩ :: record)
  | unqualified {heap next : Heap} {record : List Composition} {scope name : Handle}
      {error : HeapError} :
      Composed heap record → (qualify scope name).run heap = (.error error, next) →
        next.handles.slots < 2 ^ 32 → Composed next record

section

variable {heap next : Heap} {record : List Composition}

/-- A run that composes names is one of operations. -/
theorem Composed.reachable (composed : heap.Composed record) : heap.Reachable := by
  induction composed with
  | created created => exact Reachable.created created
  | apart _ offered _ bounded ih => exact ih.after offered bounded
  | interned _ ran bounded ih => exact ih.of_ran (Operation.intern _) ran bounded
  | qualified _ ran bounded ih | unqualified _ ran bounded ih =>
      exact ih.of_ran (Operation.qualify _ _) ran bounded

/-- The components of a qualified name are the pair that it was composed from first. -/
theorem Composed.components (composed : heap.Composed record) (qualified : Handle) :
    heap.components qualified = firstPair record qualified := by
  induction composed with
  | created created =>
      obtain ⟨_, rfl⟩ := new_eq_ok_iff.mp created
      rfl
  | apart before offered plain bounded ih =>
      rw [← ih, components_eq, components_eq,
        (offered.discreet plain).interner _ before.reachable.sound bounded]
  | @interned heap next record bytes outcome before ran bounded ih =>
      have same := before.reachable.sound.compositions_intern bytes
      rw [ran] at same
      rw [← ih, components_eq, components_eq, same bounded]
  | @qualified heap next record scope name composed before ran bounded ih =>
      have remembers := before.reachable.sound.remembers scope name
      rw [ran] at remembers
      rw [firstPair_cons, ← ih]
      cases remembers bounded with
      | known remembered =>
          obtain ⟨composition, found, rfl⟩ := Option.map_eq_some_iff.mp remembered
          obtain ⟨pair, first⟩ := exists_firstPair (List.mem_of_find?_eq_some found)
          by_cases same : composition.qualified = qualified
          · rw [← same, components_eq, first, Option.some_or]
          · rw [if_neg same, Option.or_none]
      | added compositions => rw [components_eq, compositions, firstPair_cons, components_eq]
  | @unqualified heap next record scope name error before ran bounded ih =>
      have remembers := before.reachable.sound.remembers scope name
      rw [ran] at remembers
      cases remembers bounded with
      | failed same => rw [← ih, components_eq, components_eq, same]

/-- A record goes on with every operation. -/
theorem Composed.qualifyFrom (composed : heap.Composed record) (scope : Handle)
    (segments : List Bytes)
    (bounded : ((Heap.qualifyFrom scope segments).run heap).2.handles.slots < 2 ^ 32) :
    ∃ more, ((Heap.qualifyFrom scope segments).run heap).2.Composed (more ++ record) := by
  induction segments generalizing heap record scope with
  | nil => exact ⟨[], composed⟩
  | cons segment rest ih =>
      unfold Heap.qualifyFrom at bounded ⊢
      have small := Tame.slots_lt_first (fun name => (tame_qualify scope name).bind fun qualified =>
        tame_qualifyFrom qualified rest) bounded
      rw [HeapM.run_bind] at bounded ⊢
      rcases interns : (Heap.intern segment).run heap with ⟨error | name, middle⟩
      · rw [interns] at small
        exact ⟨[], composed.interned interns small⟩
      · rw [interns] at bounded small
        have reached := composed.interned interns small
        dsimp only at bounded ⊢
        have composing :=
          Tame.slots_lt_first (fun qualified => tame_qualifyFrom qualified rest) bounded
        rw [HeapM.run_bind] at bounded ⊢
        rcases composes : (Heap.qualify scope name).run middle with ⟨error | qualified, finish⟩
        · rw [composes] at composing
          exact ⟨[], reached.unqualified composes composing⟩
        · rw [composes] at bounded composing
          obtain ⟨more, ended⟩ := ih (reached.qualified composes composing) qualified bounded
          exact ⟨more ++ [⟨scope, name, qualified⟩], by rw [List.append_assoc]; exact ended⟩

theorem Composed.after (composed : heap.Composed record) {α : Type} {operation : HeapM α}
    (offered : Operation operation) (bounded : (operation.run heap).2.handles.slots < 2 ^ 32) :
    ∃ more, (operation.run heap).2.Composed (more ++ record) := by
  by_cases interning : Interning operation
  · cases interning with
    | intern bytes => exact ⟨[], composed.interned rfl bounded⟩
    | qualify scope name =>
        rcases composes : (Heap.qualify scope name).run heap with ⟨error | qualified, next⟩
        · rw [composes] at bounded
          exact ⟨[], composed.unqualified composes bounded⟩
        · rw [composes] at bounded
          exact ⟨[⟨scope, name, qualified⟩], composed.qualified composes bounded⟩
    | qualifyPath segments =>
        cases segments with
        | nil => exact ⟨[], composed⟩
        | cons first rest =>
            unfold Heap.qualifyPath at bounded ⊢
            have small := Tame.slots_lt_first (fun scope => tame_qualifyFrom scope rest) bounded
            rw [HeapM.run_bind] at bounded ⊢
            rcases interns : (Heap.intern first).run heap with ⟨error | scope, middle⟩
            · rw [interns] at small
              exact ⟨[], composed.interned interns small⟩
            · rw [interns] at bounded small
              exact (composed.interned interns small).qualifyFrom scope rest bounded
  · exact ⟨[], composed.apart offered interning bounded⟩

/-- Every reachable heap is reached by a run that composes some names. -/
theorem Reachable.composed (reachable : heap.Reachable) : ∃ record, heap.Composed record := by
  induction reachable with
  | created created => exact ⟨[], Composed.created created⟩
  | after _ offered bounded ih =>
      obtain ⟨record, composed⟩ := ih
      obtain ⟨more, reached⟩ := composed.after offered bounded
      exact ⟨_, reached⟩

/-- A record goes on in every later heap. -/
theorem LeadsTo.composed {handles : List Handle} {later : Heap} (leads : heap.LeadsTo handles later)
    (composed : heap.Composed record) : ∃ more, later.Composed (more ++ record) := by
  induction leads with
  | here => exact ⟨[], composed⟩
  | after _ offered bounded _ ih =>
      obtain ⟨more, reached⟩ := ih
      obtain ⟨still, finished⟩ := reached.after offered bounded
      exact ⟨still ++ more, by rw [List.append_assoc]; exact finished⟩

/-- Components of a qualified name stay its components. -/
theorem Composed.components_lasting (composed : heap.Composed record) {qualified : Handle}
    {pair : Handle × Handle} (parts : heap.components qualified = some pair) {later : Heap}
    (leads : heap.LeadsTo [] later) : later.components qualified = some pair := by
  obtain ⟨more, reached⟩ := leads.composed composed
  rw [composed.components] at parts
  rw [reached.components]
  exact firstPair_append parts more

/-- The bytes of components joined with a dot are those of the qualified name. -/
theorem Catalogue.string_components {strings : List Bytes} (catalogue : heap.Catalogue strings)
    {qualified scope name : Handle} (parts : heap.components qualified = some (scope, name)) :
    ∃ scopeBytes nameBytes, heap.internedBytes scope = .ok scopeBytes ∧
      heap.internedBytes name = .ok nameBytes ∧
      heap.internedBytes qualified = .ok (scopeBytes ++ dot :: nameBytes) := by
  obtain ⟨composition, found, same⟩ := Option.map_eq_some_iff.mp parts
  cases same
  rw [List.findRev?_eq_find?_reverse] at found
  obtain ⟨scopeBytes, nameBytes, first, second, both⟩ :=
    catalogue.composed composition (List.mem_reverse.mp (List.mem_of_find?_eq_some found))
  have named := List.find?_some found
  simp only [decide_eq_true_eq] at named
  rw [named] at both
  exact ⟨scopeBytes, nameBytes, internedBytes_of_lookup catalogue first,
    internedBytes_of_lookup catalogue second, internedBytes_of_lookup catalogue both⟩

/-! ## Qualified names agree with interning -/

/-- What qualified names promise in a heap in whose run the given names have been composed. -/
structure QualifiesCanonically (heap : Heap) (record : List Composition) : Prop where
  /-- Composing two interned names has the outcome of interning their bytes with a dot between
  them. -/
  outcome : ∀ scope name scopeBytes nameBytes, heap.internedBytes scope = .ok scopeBytes →
    heap.internedBytes name = .ok nameBytes →
      ((qualify scope name).run heap).1 = ((intern (scopeBytes ++ dot :: nameBytes)).run heap).1
  /-- From then on interning these bytes gives the same handle, and so does composing the pair
  again. -/
  agrees : ∀ scope name qualified next, (qualify scope name).run heap = (.ok qualified, next) →
    next.handles.slots < 2 ^ 32 → ∃ scopeBytes nameBytes,
      heap.internedBytes scope = .ok scopeBytes ∧ heap.internedBytes name = .ok nameBytes ∧
        ∀ later, next.LeadsTo [] later →
          (intern (scopeBytes ++ dot :: nameBytes)).run later = (.ok qualified, later) ∧
            ((qualify scope name).run later).1 = .ok qualified
  /-- Names are the same just if their bytes are, however they are split. -/
  same : ∀ scope name qualified next, (qualify scope name).run heap = (.ok qualified, next) →
    next.handles.slots < 2 ^ 32 → ∀ later, next.LeadsTo [] later →
      ∀ otherScope otherName other last,
        (qualify otherScope otherName).run later = (.ok other, last) →
        last.handles.slots < 2 ^ 32 →
        ∀ scopeBytes nameBytes otherScopeBytes otherNameBytes,
          heap.string scope = .ok scopeBytes → heap.string name = .ok nameBytes →
          later.string otherScope = .ok otherScopeBytes →
          later.string otherName = .ok otherNameBytes →
            (qualified = other ↔
              scopeBytes ++ dot :: nameBytes = otherScopeBytes ++ dot :: otherNameBytes)
  /-- What is no interned string is refused, the namespace before the name, and nothing changes. -/
  scopeRefused : ∀ scope name, heap.isInterned scope = false →
    ∃ error, heap.Rejects scope error ∧ (qualify scope name).run heap = (.error error, heap)
  nameRefused : ∀ scope name, heap.isInterned scope = true → heap.isInterned name = false →
    ∃ error, heap.Rejects name error ∧ (qualify scope name).run heap = (.error error, heap)
  /-- Pairs are remembered of interned strings only. -/
  remembered : ∀ scope name qualified, heap.interner.qualified scope name = some qualified →
    heap.isInterned scope = true ∧ heap.isInterned name = true ∧ heap.isInterned qualified = true
  /-- A path has the name of its segments joined with dots. -/
  path : ∀ segments qualified next, (qualifyPath segments).run heap = (.ok qualified, next) →
    next.handles.slots < 2 ^ 32 → ∀ later, next.LeadsTo [] later →
      (intern ([dot].intercalate segments)).run later = (.ok qualified, later)
  /-- Components are the pair composed first, with the bytes of the name, and they stay. -/
  components : ∀ qualified, heap.components qualified = firstPair record qualified
  joined : ∀ qualified scope name, heap.components qualified = some (scope, name) →
    ∃ scopeBytes nameBytes, heap.internedBytes scope = .ok scopeBytes ∧
      heap.internedBytes name = .ok nameBytes ∧
      heap.internedBytes qualified = .ok (scopeBytes ++ dot :: nameBytes)
  lasting : ∀ qualified pair, heap.components qualified = some pair →
    ∀ later, heap.LeadsTo [] later → later.components qualified = some pair

/-- The pair of a name that has been composed gives the name again. -/
theorem LeadsTo.outcome_qualify {handles : List Handle} {later : Heap}
    (leads : heap.LeadsTo handles later) (reachable : heap.Reachable)
    {scope name qualified : Handle} {scopeBytes nameBytes : Bytes}
    (first : heap.interner.lookup scopeBytes = some scope)
    (second : heap.interner.lookup nameBytes = some name)
    (both : heap.interner.lookup (scopeBytes ++ dot :: nameBytes) = some qualified) :
    ((Heap.qualify scope name).run later).1 = .ok qualified := by
  obtain ⟨strings, interned⟩ := (leads.reachable reachable).interned
  rw [interned.catalogue.outcome_qualify (leads.lookup reachable first)
    (leads.lookup reachable second), leads.run_intern reachable both]

/-- Qualified names agree with interning in every run. -/
theorem Reachable.qualifiesCanonically {heap : Heap} (reachable : heap.Reachable) :
    (∃ record, heap.Composed record) ∧
      ∀ record, heap.Composed record → heap.QualifiesCanonically record := by
  refine ⟨reachable.composed, ?_⟩
  intro record composed
  obtain ⟨strings, interned⟩ := reachable.interned
  have catalogue := interned.catalogue
  have sound := reachable.sound
  constructor
  case outcome =>
    intro scope name scopeBytes nameBytes first second
    exact catalogue.outcome_qualify (internedBytes_eq_ok first).2 (internedBytes_eq_ok second).2
  case agrees =>
    intro scope name qualified next ran bounded
    obtain ⟨scopeBytes, nameBytes, first, second, both⟩ := interned.qualify_ok ran bounded
    have between := reachable.of_ran (Operation.qualify scope name) ran bounded
    obtain ⟨log, course⟩ := (tame_qualify scope name).course heap sound (by rw [ran]; exact bounded)
    rw [ran] at course
    refine ⟨scopeBytes, nameBytes, first, second, fun later leads => ?_⟩
    exact ⟨leads.run_intern between both, leads.outcome_qualify between
      (course.lookup sound bounded (internedBytes_eq_ok first).2)
      (course.lookup sound bounded (internedBytes_eq_ok second).2) both⟩
  case same =>
    intro scope name qualified next ran bounded later leads otherScope otherName other last again
      bound scopeBytes nameBytes otherScopeBytes otherNameBytes
    exact interned.qualify_inj ran bounded leads again bound
  case scopeRefused => exact fun _ _ => (catalogue.qualify_refused sound).1
  case nameRefused => exact fun _ _ => (catalogue.qualify_refused sound).2
  case remembered =>
    intro scope name qualified remembered
    obtain ⟨_, _, first, second, both⟩ := catalogue.qualified remembered
    exact ⟨(catalogue.canonical _ _ first).isInterned, (catalogue.canonical _ _ second).isInterned,
      (catalogue.canonical _ _ both).isInterned⟩
  case path =>
    intro segments qualified next ran bounded later leads
    exact leads.run_intern (reachable.of_ran (Operation.qualifyPath segments) ran bounded)
      (interned.lookup_qualifyPath ran bounded)
  case components => exact composed.components
  case joined => exact fun _ _ _ => catalogue.string_components
  case lasting => exact fun _ _ parts _ leads => composed.components_lasting parts leads

end

/-! ## A heap with a qualified name -/

/-- Two names have been interned and composed. -/
def compounded : Heap :=
  ((qualify ⟨0, 0⟩ ⟨1, 0⟩).run surnamed).2

theorem composed_compounded : compounded.Composed [⟨⟨0, 0⟩, ⟨1, 0⟩, ⟨2, 0⟩⟩] := by
  have names : surnamed.Composed [] :=
    ((Composed.created (new_blank (by decide +kernel))).interned run_intern_christened
      (by decide +kernel)).interned run_intern_surnamed (by decide +kernel)
  have composes : (qualify ⟨0, 0⟩ ⟨1, 0⟩).run surnamed = (.ok ⟨2, 0⟩, compounded) :=
    Prod.ext (by decide +kernel) (by rw [compounded])
  exact names.qualified composes (by decide +kernel)

theorem qualifiesCanonically_compounded :
    compounded.Reachable ∧ compounded.Composed [⟨⟨0, 0⟩, ⟨1, 0⟩, ⟨2, 0⟩⟩] ∧
      compounded.QualifiesCanonically [⟨⟨0, 0⟩, ⟨1, 0⟩, ⟨2, 0⟩⟩] ∧
      compounded.internedBytes ⟨2, 0⟩ = .ok [104, 105, 46, 104, 111] :=
  ⟨composed_compounded.reachable, composed_compounded,
    (Reachable.qualifiesCanonically composed_compounded.reachable).2 _ composed_compounded,
    by decide +kernel⟩

end Heap

end CompactingHeap
