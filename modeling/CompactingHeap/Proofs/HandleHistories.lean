import CompactingHeap.Proofs.Lasting

/-!
# Histories of handles

Whatever calls a table has answered, a handle minted once is placed by what happened to its slot
since.  The generation of the slot is that of the handle and the number of times the slot was
vacated since, so the handle is live exactly if the slot is and that number is a multiple of
`2 ^ 32`.  Before the slot is vacated, the handle resolves to the address recorded last and its
holds balance.
-/

namespace CompactingHeap

namespace HandleTable

variable {α : Type}

/-- A call on the table. -/
inductive Action (α : Type) where
  | mint (address : α)
  | retain (handle : Handle)
  | release (handle : Handle)
  | update (index : UInt32) (address : α)
  | recycle (index : UInt32)

/-- The answer to a call, with the handle if one was minted, and the table after it. -/
def perform (table : HandleTable α) :
    Action α → Except HeapError (Option Handle) × HandleTable α
  | .mint address => (table.mint address).map (Except.map some) id
  | .retain handle => (table.retain handle).map (Except.map fun _ => none) id
  | .release handle => (table.release handle).map (Except.map fun _ => none) id
  | .update index address => (table.update index address).map (Except.map fun _ => none) id
  | .recycle index => (table.recycle index).map (Except.map fun _ => none) id

/-- Only live slots are moved and vacated. -/
def Permits (table : HandleTable α) : Action α → Prop
  | .update index _ => ∃ handle, table.handleAt? index = some handle
  | .recycle index => ∃ handle, table.handleAt? index = some handle
  | _ => True

/-- A call with its answer. -/
structure Event (α : Type) where
  action : Action α
  outcome : Except HeapError (Option Handle)

namespace Event

/-- Does the call vacate the slot? -/
def recycles (index : UInt32) : Event α → Bool
  | ⟨.recycle other, _⟩ => other == index
  | _ => false

/-- Does the call ask for a hold on the handle? -/
def retains (handle : Handle) : Event α → Bool
  | ⟨.retain other, _⟩ => other == handle
  | _ => false

/-- Does the call drop a hold on the handle? -/
def releases (handle : Handle) : Event α → Bool
  | ⟨.release other, .ok _⟩ => other == handle
  | _ => false

theorem retains_of_releases {handle : Handle} (event : Event α)
    (drops : event.releases handle = true) : event.retains handle = false := by
  unfold releases at drops
  split at drops
  · rfl
  · cases drops

/-- The address in the slot after the call. -/
def places (index : UInt32) (event : Event α) (address : α) : α :=
  match event.action with
  | .update other moved => if other = index then moved else address
  | _ => address

end Event

/-! A history lists the latest event first. -/

/-- How often a slot was vacated. -/
def recycles (index : UInt32) (history : List (Event α)) : Nat :=
  history.countP (Event.recycles index)

/-- How often a hold on a handle was asked for. -/
def retains (handle : Handle) (history : List (Event α)) : Nat :=
  history.countP (Event.retains handle)

/-- How often a hold on a handle was dropped. -/
def releases (handle : Handle) (history : List (Event α)) : Nat :=
  history.countP (Event.releases handle)

/-- The address recorded last in a slot that started with `address`. -/
def placed (index : UInt32) (address : α) (history : List (Event α)) : α :=
  history.foldr (Event.places index) address

/-- The histories of calls from the empty table, with the table that each leaves. -/
inductive Run : List (Event α) → HandleTable α → Prop
  | start : Run [] empty
  | acted {history : List (Event α)} {table : HandleTable α} (action : Action α) :
      Run history table → table.Permits action →
        Run (⟨action, (table.perform action).1⟩ :: history) (table.perform action).2

/-! ## What a call does -/

/-- The events that a table can answer with, and the table after each. -/
inductive Steps (table : HandleTable α) : Event α → HandleTable α → Prop
  | minted {address : α} {handle : Handle} {next : HandleTable α} :
      table.Mints address handle next → Steps table ⟨.mint address, .ok (some handle)⟩ next
  | retained {handle : Handle} {address : α} {holds : UInt32} :
      table.find handle = .ok (address, holds) →
        Steps table ⟨.retain handle, .ok none⟩ (table.setSlot handle address (holds + 1))
  | unretained {handle : Handle} {error : HeapError} : table.find handle = .error error →
      Steps table ⟨.retain handle, .error error⟩ table
  | released {handle : Handle} {address : α} {holds : UInt32} :
      table.find handle = .ok (address, holds) → holds ≠ 0 →
        Steps table ⟨.release handle, .ok none⟩ (table.setSlot handle address (holds - 1))
  | unreleased {handle : Handle} {error : HeapError} :
      Steps table ⟨.release handle, .error error⟩ table
  | updated {handle : Handle} {old address : α} {holds : UInt32} :
      table.find handle = .ok (old, holds) →
        Steps table ⟨.update handle.index address, .ok none⟩ (table.setSlot handle address holds)
  | recycled {handle : Handle} {occupant : α × UInt32} {next : HandleTable α} :
      table.find handle = .ok occupant → table.recycle handle.index = (.ok (), next) →
        Steps table ⟨.recycle handle.index, .ok none⟩ next

theorem Chained.steps {table : HandleTable α} (chained : table.Chained) {action : Action α}
    (permits : table.Permits action) (bounded : (table.perform action).2.slots < 2 ^ 32) :
    Steps table ⟨action, (table.perform action).1⟩ (table.perform action).2 := by
  cases action with
  | mint address =>
      obtain ⟨handle, next, mints⟩ := chained.mint address bounded
      rw [perform, mints.eq]
      exact Steps.minted mints
  | retain handle =>
      rw [perform, retain]
      cases found : table.find handle with
      | error error => exact Steps.unretained found
      | ok occupant => exact Steps.retained found
  | release handle =>
      rw [perform, release]
      cases found : table.find handle with
      | error error => exact Steps.unreleased
      | ok occupant =>
          dsimp only
          split
          · exact Steps.unreleased
          · next positive => exact Steps.released found positive
  | update index address =>
      obtain ⟨handle, names⟩ := permits
      obtain ⟨rfl, old, holds, found⟩ := handleAt?_eq_some_iff.mp names
      rw [perform, update_eq_setSlot found]
      exact Steps.updated found
  | recycle index =>
      obtain ⟨handle, names⟩ := permits
      obtain ⟨rfl, old, holds, found⟩ := handleAt?_eq_some_iff.mp names
      obtain ⟨next, vacates, _⟩ := chained.recycle found
      rw [perform, vacates]
      exact Steps.recycled found vacates

variable {table next : HandleTable α} {event : Event α}

theorem Steps.chained (steps : Steps table event next) (chained : table.Chained) :
    next.Chained := by
  cases steps with
  | minted mints => exact mints.chained
  | retained found => exact chained.setSlot found _ _
  | unretained => exact chained
  | released found => exact chained.setSlot found _ _
  | unreleased => exact chained
  | updated found => exact chained.setSlot found _ _
  | recycled found vacates =>
      obtain ⟨_, same, vacated, _⟩ := chained.recycle found
      cases vacates.symm.trans same
      exact vacated

theorem slots_le_perform (table : HandleTable α) (action : Action α) :
    table.slots ≤ (table.perform action).2.slots := by
  cases action with
  | mint address => exact slots_le_mint table address
  | retain handle =>
      simp only [perform, retain]
      split <;> simp
  | release handle =>
      simp only [perform, release]
      repeat' split
      all_goals simp
  | update index address =>
      simp only [perform, update]
      split <;> simp [slots]
  | recycle index =>
      simp only [perform, recycle]
      split <;> simp [slots]

/-- The generation of a slot moves on exactly when the slot is vacated. -/
theorem Steps.entry (steps : Steps table event next) {index generation : UInt32} {slot : Slot α}
    (here : table.entries[index.toNat]? = some ⟨generation, slot⟩) :
    ∃ after, next.entries[index.toNat]? =
      some ⟨generation + if event.recycles index then 1 else 0, after⟩ := by
  have kept (passes : Passes 0 table.entries[index.toNat]? next.entries[index.toNat]?) :
      ∃ after, next.entries[index.toNat]? = some ⟨generation + 0, after⟩ := by
    obtain ⟨passed, none, after, there⟩ := passes _ here
    obtain rfl := Nat.le_zero.mp none
    exact ⟨after, there⟩
  cases steps with
  | minted mints => exact kept (passes_mint mints.eq _)
  | retained found => exact kept (passes_setSlot found _ _)
  | unretained => exact kept (Passes.refl _)
  | released found => exact kept (passes_setSlot found _ _)
  | unreleased => exact kept (Passes.refl _)
  | @updated handle old address holds found =>
      refine kept (Passes.of_same fun entry was => ?_)
      by_cases same : handle.index.toNat = index.toNat
      · rw [← same, find_eq_ok_iff.mp found] at was
        cases was
        have inside := (Array.getElem?_eq_some_iff.mp (find_eq_ok_iff.mp found)).1
        exact ⟨_, by rw [setSlot, ← same, Array.getElem?_setIfInBounds_self_of_lt inside]⟩
      · exact ⟨entry.slot, (Array.getElem?_setIfInBounds_ne same).trans was⟩
  | @recycled handle occupant next found vacates =>
      unfold recycle at vacates
      rw [find_eq_ok_iff.mp found] at vacates
      cases vacates
      by_cases same : handle.index = index
      · subst same
        rw [find_eq_ok_iff.mp found] at here
        cases here
        have inside := (Array.getElem?_eq_some_iff.mp (find_eq_ok_iff.mp found)).1
        exact ⟨.vacant table.free, by simp [Event.recycles, inside]⟩
      · have apart : handle.index.toNat ≠ index.toNat := fun equal => same (UInt32.toNat.inj equal)
        exact ⟨slot, by simp [Event.recycles, same, apart, here]⟩

section

variable {handle other : Handle} {address place : α} {holds count : UInt32}
  (found : table.find handle = .ok (address, holds)) (here : table.find other = .ok (place, count))

include found here

/-- A hold more on one handle. -/
theorem find_retained : ∃ counted, (table.setSlot other place (count + 1)).find handle =
      .ok (address, counted) ∧
    (holds.toNat + (if other == handle then 1 else 0) < 2 ^ 32 →
      counted.toNat = holds.toNat + if other == handle then 1 else 0) := by
  rw [find_setSlot here]
  by_cases same : handle = other
  · subst same
    cases found.symm.trans here
    refine ⟨holds + 1, if_pos rfl, fun fits => ?_⟩
    simp only [BEq.rfl, if_true] at fits ⊢
    rw [UInt32.toNat_add, UInt32.toNat_one, Nat.mod_eq_of_lt fits]
  · exact ⟨holds, by simp [same, found], by simp [Ne.symm same]⟩

/-- A hold less on one handle. -/
theorem find_released (positive : count ≠ 0) :
    ∃ counted, (table.setSlot other place (count - 1)).find handle = .ok (address, counted) ∧
      counted.toNat + (if other == handle then 1 else 0) = holds.toNat := by
  rw [find_setSlot here]
  by_cases same : handle = other
  · subst same
    cases found.symm.trans here
    have above : 1 ≤ holds := by
      rw [UInt32.le_iff_toNat_le]
      exact Nat.one_le_iff_ne_zero.mpr fun zero => positive (UInt32.toNat.inj zero)
    refine ⟨holds - 1, if_pos rfl, ?_⟩
    simp only [BEq.rfl, if_true]
    rw [UInt32.toNat_sub_of_le _ _ above, UInt32.toNat_one]
    exact Nat.sub_add_cancel (UInt32.le_iff_toNat_le.mp above)
  · exact ⟨holds, by simp [same, found], by simp [Ne.symm same]⟩

/-- Another address for one handle. -/
theorem find_updated (moved : α) : (table.setSlot other moved count).find handle =
    .ok (if other.index = handle.index then moved else address, holds) := by
  rw [find_setSlot here]
  by_cases same : handle = other
  · subst same
    cases found.symm.trans here
    simp
  · have apart : other.index ≠ handle.index := fun equal => same (eq_of_find found here equal.symm)
    simp [same, found, apart]

end

/-- What a call does to a live handle whose slot it does not vacate. -/
theorem Steps.find (steps : Steps table event next) (chained : table.Chained) {handle : Handle}
    {address : α} {holds : UInt32} (found : table.find handle = .ok (address, holds))
    (kept : event.recycles handle.index = false) :
    ∃ count, next.find handle = .ok (event.places handle.index address, count) ∧
      (holds.toNat + (if event.retains handle then 1 else 0) < 2 ^ 32 →
        count.toNat + (if event.releases handle then 1 else 0) =
          holds.toNat + if event.retains handle then 1 else 0) := by
  cases steps with
  | minted mints => exact ⟨holds, mints.find_of_find found, by simp [Event.retains, Event.releases]⟩
  | retained here =>
      obtain ⟨counted, now, more⟩ := find_retained found here
      exact ⟨counted, now, by simpa [Event.retains, Event.releases] using more⟩
  | @unretained other error missing =>
      have different : other ≠ handle := by
        rintro rfl
        rw [found] at missing
        cases missing
      exact ⟨holds, found, by simp [Event.retains, Event.releases, different]⟩
  | released here positive =>
      obtain ⟨counted, now, less⟩ := find_released found here positive
      exact ⟨counted, now, fun _ => by simpa [Event.retains, Event.releases] using less⟩
  | unreleased => exact ⟨holds, found, by simp [Event.retains, Event.releases]⟩
  | updated here =>
      exact ⟨holds, find_updated found here _, by simp [Event.retains, Event.releases]⟩
  | @recycled other occupant next here vacates =>
      obtain ⟨_, vacated, _, _, finds⟩ := chained.recycle here
      cases vacates.symm.trans vacated
      have apart : handle.index ≠ other.index := by
        intro equal
        simp [Event.recycles, equal] at kept
      exact ⟨holds, by rw [finds, if_neg apart, found]; rfl,
        by simp [Event.retains, Event.releases]⟩

/-! ## What has happened to a handle -/

/-- The balance of holds on a handle, one at the start, has stayed below `2 ^ 32`. -/
def Countable (handle : Handle) (history : List (Event α)) : Prop :=
  ∀ earlier, earlier <:+ history → 1 + retains handle earlier < 2 ^ 32 + releases handle earlier

/-- The slot of a handle that was minted for `address` before the events. -/
structure Since (table : HandleTable α) (handle : Handle) (address : α)
    (history : List (Event α)) : Prop where
  entry : ∃ slot, table.entries[handle.index.toNat]? =
    some ⟨handle.generation + (recycles handle.index history).toUInt32, slot⟩
  found : recycles handle.index history = 0 → ∃ count,
    table.find handle = .ok (placed handle.index address history, count) ∧
      (Countable handle history →
        count.toNat + releases handle history = 1 + retains handle history)

theorem Mints.since {address : α} {handle : Handle} (mints : table.Mints address handle next) :
    Since next handle address [] where
  entry := ⟨.live address 1, by simpa [recycles] using find_eq_ok_iff.mp mints.found⟩
  found _ := ⟨1, mints.found, fun _ => rfl⟩

variable {handle : Handle} {address : α} {history : List (Event α)}

theorem Countable.tail (countable : Countable handle (event :: history)) :
    Countable handle history :=
  fun earlier past => countable earlier (past.trans (List.suffix_cons event history))

theorem recycles_cons (index : UInt32) (event : Event α) (history : List (Event α)) :
    recycles index (event :: history) =
      recycles index history + if event.recycles index then 1 else 0 :=
  List.countP_cons

theorem retains_cons (handle : Handle) (event : Event α) (history : List (Event α)) :
    retains handle (event :: history) =
      retains handle history + if event.retains handle then 1 else 0 :=
  List.countP_cons

theorem releases_cons (handle : Handle) (event : Event α) (history : List (Event α)) :
    releases handle (event :: history) =
      releases handle history + if event.releases handle then 1 else 0 :=
  List.countP_cons

theorem Since.step (since : Since table handle address history) (chained : table.Chained)
    (steps : Steps table event next) : Since next handle address (event :: history) where
  entry := by
    obtain ⟨slot, here⟩ := since.entry
    obtain ⟨after, there⟩ := steps.entry here
    refine ⟨after, there.trans ?_⟩
    rw [recycles_cons]
    split <;> simp [UInt32.add_assoc]
  found kept := by
    rw [recycles_cons] at kept
    have spared : event.recycles handle.index = false := by
      cases vacates : event.recycles handle.index with
      | false => rfl
      | true => simp [vacates] at kept
    obtain ⟨count, found, balance⟩ := since.found (by omega)
    obtain ⟨after, finds, step⟩ := steps.find chained found spared
    refine ⟨after, finds, fun countable => ?_⟩
    have before := balance countable.tail
    have room := countable _ (List.suffix_refl _)
    rw [retains_cons, releases_cons] at room ⊢
    have counted : count.toNat + (if event.retains handle then 1 else 0) < 2 ^ 32 := by
      by_cases drops : event.releases handle = true
      · rw [event.retains_of_releases drops]
        exact count.toNat_lt
      · rw [if_neg drops] at room
        omega
    have after := step counted
    omega

/-- A history goes through an earlier one. -/
theorem Run.before {later earlier : List (Event α)} (run : Run (later ++ earlier) table) :
    ∃ former, Run earlier former ∧ former.slots ≤ table.slots := by
  induction later generalizing table with
  | nil => exact ⟨table, run, Nat.le_refl _⟩
  | cons event later ih =>
      cases run with
      | @acted _ middle action past permits =>
          obtain ⟨former, ran, within⟩ := ih past
          exact ⟨former, ran, within.trans (slots_le_perform middle action)⟩

theorem Run.chained (run : Run history table) (bounded : table.slots < 2 ^ 32) : table.Chained := by
  induction run with
  | start => exact chained_empty
  | @acted history middle action past permits ih =>
      have chained := ih (Nat.lt_of_le_of_lt (slots_le_perform middle action) bounded)
      exact (chained.steps permits bounded).chained chained

/-- The last event of a history is a step from the table before it. -/
theorem Run.last (run : Run (event :: history) table) (bounded : table.slots < 2 ^ 32) :
    ∃ former, Run history former ∧ former.slots < 2 ^ 32 ∧ Steps former event table := by
  cases run with
  | @acted _ former action past permits =>
      have before := Nat.lt_of_le_of_lt (slots_le_perform former action) bounded
      exact ⟨former, past, before, (past.chained before).steps permits bounded⟩

/-- Every handle ever minted is placed by what happened since. -/
theorem Run.since {later earlier : List (Event α)}
    (run : Run (later ++ ⟨.mint address, .ok (some handle)⟩ :: earlier) table)
    (bounded : table.slots < 2 ^ 32) : Since table handle address later := by
  induction later generalizing table with
  | nil =>
      obtain ⟨former, _, _, steps⟩ := run.last bounded
      cases steps with
      | minted mints => exact mints.since
  | cons event later ih =>
      obtain ⟨former, past, before, steps⟩ := run.last bounded
      exact (ih past before).step (past.chained before) steps

/-! ## The fate of a handle -/

/-- What the events since a handle was minted for `address` say about the handle. -/
structure Fate (table : HandleTable α) (handle : Handle) (address : α)
    (history : List (Event α)) : Prop where
  /-- The handle is live exactly if its slot is and has come round to its generation. -/
  live : table.isLive handle = true ↔
    (∃ occupant, table.handleAt? handle.index = some occupant) ∧
      2 ^ 32 ∣ recycles handle.index history
  /-- A handle that is not live is stale for every call. -/
  stale : table.isLive handle = false →
    table.resolve handle = .error (.staleHandle handle) ∧
      table.holds handle = .error (.staleHandle handle) ∧
      table.retain handle = (.error (.staleHandle handle), table) ∧
      table.release handle = (.error (.staleHandle handle), table)
  /-- Before `2 ^ 32` rounds, the handle is live until its slot is vacated, and never again. -/
  lasts : recycles handle.index history < 2 ^ 32 →
    (table.isLive handle = true ↔ recycles handle.index history = 0)
  /-- A handle minted before the slot has come round is another one. -/
  distinct : ∀ latest between moved other,
    history = latest ++ ⟨.mint moved, .ok (some other)⟩ :: between →
      recycles handle.index between < 2 ^ 32 → other ≠ handle
  /-- The handle resolves to the address recorded last. -/
  resolves : recycles handle.index history = 0 →
    table.resolve handle = .ok (placed handle.index address history)
  /-- The first hold and those asked for are there or were dropped. -/
  balance : recycles handle.index history = 0 → Countable handle history →
    ∃ count, table.holds handle = .ok count ∧
      count.toNat + releases handle history = 1 + retains handle history
  /-- Dropping a hold fails where there is none. -/
  unheld : recycles handle.index history = 0 →
    ((table.release handle).1 = .error (.notRooted handle) ↔ table.holds handle = .ok 0) ∧
      ((table.release handle).1 = .ok () ↔ table.holds handle ≠ .ok 0)

/-- A generation comes round after `2 ^ 32` rounds. -/
theorem add_toUInt32_eq_self_iff (generation : UInt32) (rounds : Nat) :
    generation + rounds.toUInt32 = generation ↔ 2 ^ 32 ∣ rounds := by
  have bound := generation.toNat_lt
  rw [← UInt32.toNat_inj, UInt32.toNat_add, Nat.toUInt32_eq, UInt32.toNat_ofNat']
  omega

theorem Since.isLive_iff (since : Since table handle address history) :
    table.isLive handle = true ↔
      (∃ occupant, table.handleAt? handle.index = some occupant) ∧
        2 ^ 32 ∣ recycles handle.index history := by
  obtain ⟨slot, entry⟩ := since.entry
  rw [HandleTable.isLive_iff, ← add_toUInt32_eq_self_iff handle.generation]
  simp only [handleAt?_eq_some_iff, find_eq_ok_iff]
  constructor
  · rintro ⟨place, holds, here⟩
    exact ⟨⟨handle, rfl, place, holds, here⟩,
      congrArg Entry.generation (Option.some.inj (entry.symm.trans here))⟩
  · rintro ⟨⟨occupant, same, place, holds, here⟩, round⟩
    rw [same, entry] at here
    simp only [Option.some.injEq, Entry.mk.injEq] at here
    exact ⟨place, holds, by rw [entry, round, here.2]⟩

theorem Since.isLive_iff_of_lt (since : Since table handle address history)
    (few : recycles handle.index history < 2 ^ 32) :
    table.isLive handle = true ↔ recycles handle.index history = 0 := by
  constructor
  · intro live
    exact Nat.eq_zero_of_dvd_of_lt (since.isLive_iff.mp live).2 few
  · intro never
    obtain ⟨count, found, _⟩ := since.found never
    exact HandleTable.isLive_iff.mpr ⟨_, count, found⟩

/-- Minting again gives another handle until the slot has come round. -/
theorem Since.ne_of_mints (since : Since table handle address history) {moved : α} {other : Handle}
    (mints : table.Mints moved other next) (few : recycles handle.index history < 2 ^ 32) :
    other ≠ handle := by
  rintro rfl
  obtain ⟨slot, entry⟩ := since.entry
  obtain ⟨after, there⟩ := (Steps.minted mints).entry entry
  rw [find_eq_ok_iff.mp mints.found] at there
  have round := congrArg Entry.generation (Option.some.inj there)
  simp only [Event.recycles, Bool.false_eq_true, if_false, UInt32.add_zero] at round
  have never := Nat.eq_zero_of_dvd_of_lt
    ((add_toUInt32_eq_self_iff other.generation _).mp round.symm) few
  obtain ⟨count, found, _⟩ := since.found never
  cases found.symm.trans mints.new

/-- A handle that is not live is stale for every call. -/
theorem refused_of_not_live (dead : table.isLive handle = false) :
    table.resolve handle = .error (.staleHandle handle) ∧
      table.holds handle = .error (.staleHandle handle) ∧
      table.retain handle = (.error (.staleHandle handle), table) ∧
      table.release handle = (.error (.staleHandle handle), table) := by
  have stale := isLive_eq_false_iff.mp dead
  simp only [resolve, holds, retain, release, stale, Except.map, and_self]

/-- Dropping a hold on a live handle fails exactly where there is none. -/
theorem release_iff_of_find {count : UInt32} (found : table.find handle = .ok (address, count)) :
    ((table.release handle).1 = .error (.notRooted handle) ↔ table.holds handle = .ok 0) ∧
      ((table.release handle).1 = .ok () ↔ table.holds handle ≠ .ok 0) := by
  simp only [release, holds, found, Except.map]
  split
  · next none => simp [none]
  · next some => simp [some]

/-- Stale handles never alias: whatever the table was asked since it minted a handle, the handle is
live exactly if its slot is live and was vacated a multiple of `2 ^ 32` times since. -/
theorem Run.fate {later earlier : List (Event α)}
    (run : Run (later ++ ⟨.mint address, .ok (some handle)⟩ :: earlier) table)
    (bounded : table.slots < 2 ^ 32) : Fate table handle address later := by
  have since := run.since bounded
  constructor
  case live => exact since.isLive_iff
  case stale => exact refused_of_not_live
  case lasts => exact since.isLive_iff_of_lt
  case distinct =>
    intro latest between moved other split few
    rw [split, List.append_assoc, List.cons_append] at run
    obtain ⟨minted, ran, within⟩ := run.before
    obtain ⟨former, past, before, steps⟩ := ran.last (Nat.lt_of_le_of_lt within bounded)
    cases steps with
    | minted mints => exact (past.since before).ne_of_mints mints few
  case resolves =>
    intro never
    obtain ⟨count, found, _⟩ := since.found never
    exact resolve_of_find found
  case balance =>
    intro never countable
    obtain ⟨count, found, balance⟩ := since.found never
    exact ⟨count, by rw [holds, found]; rfl, balance countable⟩
  case unheld =>
    intro never
    obtain ⟨count, found, _⟩ := since.found never
    exact release_iff_of_find found

/-- A slot that is moved, vacated and used again: the first handle for it has gone stale. -/
theorem fate_of_reused :
    Run ([⟨.release ⟨0, 1⟩, .ok none⟩, ⟨.mint 30, .ok (some ⟨0, 1⟩)⟩, ⟨.recycle 0, .ok none⟩,
        ⟨.update 0 20, .ok none⟩, ⟨.retain ⟨0, 0⟩, .ok none⟩] ++
        ⟨.mint 10, .ok (some ⟨0, 0⟩)⟩ :: []) (⟨#[⟨1, .live 30 0⟩], none, 1⟩ : HandleTable Nat) ∧
      (⟨#[⟨1, .live 30 0⟩], none, 1⟩ : HandleTable Nat).slots < 2 ^ 32 ∧
      Fate (⟨#[⟨1, .live 30 0⟩], none, 1⟩ : HandleTable Nat) ⟨0, 0⟩ 10
        [⟨.release ⟨0, 1⟩, .ok none⟩, ⟨.mint 30, .ok (some ⟨0, 1⟩)⟩, ⟨.recycle 0, .ok none⟩,
          ⟨.update 0 20, .ok none⟩, ⟨.retain ⟨0, 0⟩, .ok none⟩] := by
  have minted := Run.start.acted (.mint 10) trivial
  have moved := (minted.acted (.retain ⟨0, 0⟩) trivial).acted (.update 0 20) ⟨⟨0, 0⟩, rfl⟩
  have vacated := moved.acted (.recycle 0) ⟨⟨0, 0⟩, rfl⟩
  have run := (vacated.acted (.mint 30) trivial).acted (.release ⟨0, 1⟩) trivial
  exact ⟨run, by decide, Run.fate run (by decide)⟩

end HandleTable

end CompactingHeap
