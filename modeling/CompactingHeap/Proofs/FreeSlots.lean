import CompactingHeap.Proofs.HandleHistories
import CompactingHeap.Proofs.Ledger
import Mathlib.Data.List.Dedup

/-!
# Free slots

The calls that a table has answered say which slots exist, which of them are vacant and since when,
and which handle names each of the others.  The chain of the table leads through exactly the vacant
slots, the one vacated last first, a handle is minted for the first of them, and the table lists
the others in slot order.
-/

namespace CompactingHeap

namespace HandleTable

variable {α : Type}

namespace Event

/-- The handle that was minted, if one was. -/
def minted? : Event α → Option Handle
  | ⟨.mint _, .ok minted⟩ => minted
  | _ => none

/-- The handle that names the slot after the call. -/
def occupies (index : UInt32) (event : Event α) (occupant : Option Handle) : Option Handle :=
  match event.minted? with
  | some handle => if handle.index = index then some handle else occupant
  | none => if event.recycles index then none else occupant

/-- A call that neither mints a handle nor vacates a slot. -/
structure Idle (event : Event α) : Prop where
  mints : event.minted? = none
  recycles : ∀ index, event.recycles index = false

theorem Idle.occupies {event : Event α} (idle : event.Idle) (index : UInt32)
    (occupant : Option Handle) : event.occupies index occupant = occupant := by
  simp [Event.occupies, idle.mints, idle.recycles]

end Event

/-- The slots for which handles were minted. -/
def created (history : List (Event α)) : List UInt32 :=
  ((history.filterMap Event.minted?).map Handle.index).dedup

/-- The handle minted last for a slot, unless the slot was vacated since. -/
def occupant? (index : UInt32) (history : List (Event α)) : Option Handle :=
  history.foldr (Event.occupies index) none

/-- A slot that had occupants and has none now. -/
def IsVacant (index : UInt32) (history : List (Event α)) : Prop :=
  index ∈ created history ∧ occupant? index history = none

/-- The number of calls since a slot was vacated last. -/
def idleFor (index : UInt32) (history : List (Event α)) : Nat :=
  history.findIdx (Event.recycles index)

variable {table next : HandleTable α} {history : List (Event α)} {event : Event α}
  {index : UInt32} {handle : Handle} {chain : List UInt32}

@[simp]
theorem occupant?_cons (index : UInt32) (event : Event α) (history : List (Event α)) :
    occupant? index (event :: history) = event.occupies index (occupant? index history) :=
  rfl

theorem mem_created_cons : index ∈ created (event :: history) ↔
    (∃ handle, event.minted? = some handle ∧ handle.index = index) ∨ index ∈ created history := by
  simp only [created, List.mem_dedup, List.mem_map, List.mem_filterMap, List.mem_cons]
  constructor
  · rintro ⟨handle, ⟨source, rfl | member, minted⟩, named⟩
    · exact .inl ⟨handle, minted, named⟩
    · exact .inr ⟨handle, ⟨source, member, minted⟩, named⟩
  · rintro (⟨handle, minted, named⟩ | ⟨handle, ⟨source, member, minted⟩, named⟩)
    · exact ⟨handle, ⟨event, .inl rfl, minted⟩, named⟩
    · exact ⟨handle, ⟨source, .inr member, minted⟩, named⟩

theorem Event.Idle.mem_created (idle : event.Idle) :
    index ∈ created (event :: history) ↔ index ∈ created history := by
  simp [mem_created_cons, idle.mints]

theorem idleFor_cons (index : UInt32) (event : Event α) (history : List (Event α)) :
    idleFor index (event :: history) =
      if event.recycles index then 0 else idleFor index history + 1 := by
  rw [idleFor, List.findIdx_cons, idleFor]
  cases event.recycles index <;> rfl

/-- The occupant of a slot was minted for it. -/
theorem created_of_occupant? (occupied : occupant? index history = some handle) :
    handle.index = index ∧ index ∈ created history := by
  induction history with
  | nil => cases occupied
  | cons event history ih =>
      have earlier (before : occupant? index history = some handle) :
          handle.index = index ∧ index ∈ created (event :: history) :=
        (ih before).imp id fun known => mem_created_cons.mpr (.inr known)
      rw [occupant?_cons, Event.occupies] at occupied
      split at occupied
      · next minted mints =>
        split at occupied
        · next named =>
          cases occupied
          exact ⟨named, mem_created_cons.mpr (.inl ⟨handle, mints, named⟩)⟩
        · exact earlier occupied
      · split at occupied
        · cases occupied
        · exact earlier occupied

/-! ## The occupants of the slots -/

theorem handleAt?_eq_some_iff_isLive :
    table.handleAt? index = some handle ↔ handle.index = index ∧ table.isLive handle = true := by
  rw [handleAt?_eq_some_iff, isLive_iff]

/-- The handles of a slot that are live decide which handle names it. -/
theorem handleAt?_congr
    (same : ∀ handle : Handle, handle.index = index → next.isLive handle = table.isLive handle) :
    next.handleAt? index = table.handleAt? index := by
  ext handle
  rw [handleAt?_eq_some_iff_isLive, handleAt?_eq_some_iff_isLive]
  exact and_congr_right fun named => by rw [same handle named]

theorem handleAt?_setSlot {occupant : α × UInt32} (live : table.find handle = .ok occupant)
    (address : α) (holds : UInt32) (index : UInt32) :
    (table.setSlot handle address holds).handleAt? index = table.handleAt? index := by
  apply handleAt?_congr
  intro other _
  rw [Bool.eq_iff_iff, isLive_iff, isLive_iff, find_setSlot live]
  split
  · next same =>
    subst same
    exact ⟨fun _ => ⟨occupant.1, occupant.2, live⟩, fun _ => ⟨address, holds, rfl⟩⟩
  · rfl

/-- A call changes the occupant of a slot by minting for it or vacating it only. -/
theorem Steps.handleAt? (steps : Steps table event next) (chained : table.Chained)
    (index : UInt32) : next.handleAt? index = event.occupies index (table.handleAt? index) := by
  cases steps with
  | @minted address handle _ mints =>
      simp only [Event.occupies, Event.minted?]
      split
      · next named => exact handleAt?_eq_some_iff.mpr ⟨named, address, 1, mints.found⟩
      · next elsewhere =>
        apply handleAt?_congr
        intro other named
        have apart : other ≠ handle := fun same => elsewhere (same ▸ named)
        rw [HandleTable.isLive, HandleTable.isLive, resolve, resolve, mints.others other apart]
  | retained found => exact handleAt?_setSlot found _ _ index
  | unretained => rfl
  | released found => exact handleAt?_setSlot found _ _ index
  | unreleased => rfl
  | updated found => exact handleAt?_setSlot found _ _ index
  | @recycled handle occupant _ found vacates =>
      obtain ⟨_, again, _, _, finds⟩ := chained.recycle found
      cases vacates.symm.trans again
      simp only [Event.occupies, Event.minted?, Event.recycles, beq_iff_eq]
      split
      · next named =>
        rw [Option.eq_none_iff_forall_ne_some]
        intro other occupies
        obtain ⟨same, address, holds, there⟩ := handleAt?_eq_some_iff.mp occupies
        rw [finds, if_pos (same.trans named.symm)] at there
        cases there
      · next elsewhere =>
        apply handleAt?_congr
        intro other named
        have apart : other.index ≠ handle.index := fun same => elsewhere (same.symm.trans named)
        rw [HandleTable.isLive, HandleTable.isLive, resolve, resolve, finds, if_neg apart]

theorem Run.handleAt? (run : Run history table) (bounded : table.slots < 2 ^ 32) (index : UInt32) :
    table.handleAt? index = occupant? index history := by
  induction history generalizing table with
  | nil =>
      cases run
      rfl
  | cons event history ih =>
      obtain ⟨former, past, before, steps⟩ := run.last bounded
      rw [steps.handleAt? (past.chained before), ih past before, occupant?_cons]

/-! ## The chain of vacant slots -/

/-- The chain leads through exactly the vacant slots, the one vacated last first. -/
structure Threaded (table : HandleTable α) (history : List (Event α)) (chain : List UInt32) :
    Prop where
  links : FreeChain table.entries table.free chain
  vacant : ∀ index, index ∈ chain ↔ IsVacant index history
  recent : chain.Pairwise fun first second => idleFor first history < idleFor second history

theorem Threaded.nodup (threaded : Threaded table history chain) : chain.Nodup :=
  threaded.recent.imp fun later same =>
    absurd (congrArg (idleFor · history) same) (Nat.ne_of_lt later)

/-- A call that vacates no slot of a chain keeps the order of the chain. -/
theorem recent_cons
    (recent : chain.Pairwise fun first second => idleFor first history < idleFor second history)
    (spared : ∀ index ∈ chain, event.recycles index = false) :
    chain.Pairwise fun first second =>
      idleFor first (event :: history) < idleFor second (event :: history) := by
  apply recent.imp_of_mem
  intro first second firstMember secondMember later
  rw [idleFor_cons, idleFor_cons, spared first firstMember, spared second secondMember]
  exact Nat.succ_lt_succ later

theorem Threaded.idle (threaded : Threaded table history chain)
    (links : FreeChain next.entries next.free chain) (idle : event.Idle) :
    Threaded next (event :: history) chain where
  links := links
  vacant index := by
    rw [threaded.vacant, IsVacant, IsVacant, idle.mem_created, occupant?_cons, idle.occupies]
  recent := recent_cons threaded.recent fun index _ => idle.recycles index

theorem Threaded.setSlot (threaded : Threaded table history chain) {occupant : α × UInt32}
    (live : table.find handle = .ok occupant) (address : α) (holds : UInt32) (idle : event.Idle) :
    Threaded (table.setSlot handle address holds) (event :: history) chain :=
  threaded.idle (threaded.links.setIfInBounds (threaded.links.index_notMem live) _) idle

/-- The slot of a minted handle is vacant no more. -/
theorem isVacant_minted {address : α} :
    IsVacant index (⟨.mint address, .ok (some handle)⟩ :: history) ↔
    index ≠ handle.index ∧ IsVacant index history := by
  simp only [IsVacant, mem_created_cons, occupant?_cons, Event.occupies, Event.minted?,
    Option.some.injEq, exists_eq_left']
  split
  · next named => simp [named]
  · next elsewhere => simp [elsewhere, Ne.symm elsewhere]

/-- A vacated slot is vacant, and no other is concerned. -/
theorem isVacant_recycled {outcome : Except HeapError (Option Handle)}
    (live : occupant? handle.index history = some handle) :
    IsVacant index (⟨.recycle handle.index, outcome⟩ :: history) ↔
      index = handle.index ∨ IsVacant index history := by
  have known := (created_of_occupant? live).2
  simp only [IsVacant, mem_created_cons, occupant?_cons, Event.occupies, Event.minted?,
    Event.recycles, reduceCtorEq, false_and, exists_false, false_or, beq_iff_eq]
  split
  · next named => simp [← named, known]
  · next elsewhere => simp [Ne.symm elsewhere]

/-- Minting takes the first slot of the chain, and adds a slot only if there is none. -/
theorem Mints.cases {address : α} (mints : table.Mints address handle next)
    (links : FreeChain table.entries table.free chain) :
    (chain = [] ∧ handle = ⟨table.slots.toUInt32, 0⟩ ∧ next.slots = table.slots + 1 ∧
        next.free = none) ∨
      ∃ rest, chain = handle.index :: rest ∧ next.slots = table.slots ∧
        (handle.index ∉ rest → FreeChain next.entries next.free rest) := by
  cases head : table.free with
  | none =>
      rw [head] at links
      cases links
      have minted := mints.eq.symm.trans (mint_of_full head address)
      cases minted
      exact .inl ⟨rfl, rfl, by simp [slots], head⟩
  | some index =>
      rw [head] at links
      cases links with
      | @cons _ generation after rest entry links =>
          have minted := mints.eq.symm.trans (mint_of_vacant head entry address)
          cases minted
          exact .inr ⟨rest, rfl, by simp [slots], fun apart => links.setIfInBounds apart _⟩

theorem Steps.threaded (steps : Steps table event next) (threaded : Threaded table history chain)
    (occupants : ∀ index, table.handleAt? index = occupant? index history) :
    ∃ chain, Threaded next (event :: history) chain := by
  cases steps with
  | @minted address handle _ mints =>
      have minting : ∀ index,
          (⟨.mint address, .ok (some handle)⟩ : Event α).recycles index = false := fun _ => rfl
      obtain ⟨rfl, _, _, free⟩ | ⟨rest, rfl, _, links⟩ := mints.cases threaded.links
      · refine ⟨[], free ▸ FreeChain.nil, fun index => ?_, List.Pairwise.nil⟩
        rw [isVacant_minted, ← threaded.vacant]
        simp
      · obtain ⟨apart, _⟩ := List.nodup_cons.mp threaded.nodup
        refine ⟨rest, links apart, fun index => ?_, ?_⟩
        · rw [isVacant_minted, ← threaded.vacant, List.mem_cons]
          constructor
          · exact fun member => ⟨fun same => apart (same ▸ member), .inr member⟩
          · rintro ⟨different, same | member⟩
            · exact absurd same different
            · exact member
        · exact recent_cons (List.pairwise_cons.mp threaded.recent).2 fun index _ => minting index
  | retained found => exact ⟨chain, threaded.setSlot found _ _ ⟨rfl, fun _ => rfl⟩⟩
  | unretained => exact ⟨chain, threaded.idle threaded.links ⟨rfl, fun _ => rfl⟩⟩
  | released found => exact ⟨chain, threaded.setSlot found _ _ ⟨rfl, fun _ => rfl⟩⟩
  | unreleased => exact ⟨chain, threaded.idle threaded.links ⟨rfl, fun _ => rfl⟩⟩
  | updated found => exact ⟨chain, threaded.setSlot found _ _ ⟨rfl, fun _ => rfl⟩⟩
  | @recycled handle occupant _ found vacates =>
      have live : occupant? handle.index history = some handle := by
        rw [← occupants, handleAt?_eq_some_iff]
        exact ⟨rfl, occupant.1, occupant.2, found⟩
      refine ⟨handle.index :: chain, threaded.links.recycle found vacates, fun index => ?_, ?_⟩
      · rw [isVacant_recycled live, List.mem_cons, threaded.vacant]
      · have spared : ∀ index ∈ chain,
            (⟨.recycle handle.index, .ok none⟩ : Event α).recycles index = false := by
          intro index member
          have apart : handle.index ≠ index := fun same =>
            threaded.links.index_notMem found (same ▸ member)
          simp [Event.recycles, apart]
        refine List.pairwise_cons.mpr ⟨fun index member => ?_, recent_cons threaded.recent spared⟩
        rw [idleFor_cons, idleFor_cons, spared index member]
        simp [Event.recycles]

theorem Run.threaded (run : Run history table) (bounded : table.slots < 2 ^ 32) :
    ∃ chain, Threaded table history chain := by
  induction history generalizing table with
  | nil =>
      cases run
      refine ⟨[], FreeChain.nil, fun index => ?_, List.Pairwise.nil⟩
      simp [IsVacant, created]
  | cons event history ih =>
      obtain ⟨former, past, before, steps⟩ := run.last bounded
      obtain ⟨chain, threaded⟩ := ih past before
      exact steps.threaded threaded (past.handleAt? before)

/-! ## The numbers of slots -/

theorem Steps.mem_created_iff (steps : Steps table event next)
    (threaded : Threaded table history chain) (bounded : next.slots < 2 ^ 32)
    (known : ∀ index, index ∈ created history ↔ index.toNat < table.slots) (index : UInt32) :
    index ∈ created (event :: history) ↔ index.toNat < next.slots := by
  have kept (idle : event.Idle) (same : next.slots = table.slots) :
      index ∈ created (event :: history) ↔ index.toNat < next.slots := by
    rw [idle.mem_created, known, same]
  cases steps with
  | @minted address handle _ mints =>
      simp only [mem_created_cons, Event.minted?, Option.some.injEq, exists_eq_left', known]
      obtain ⟨_, rfl, more, _⟩ | ⟨rest, rfl, same, _⟩ := mints.cases threaded.links
      · rw [more] at bounded ⊢
        have number : table.slots.toUInt32.toNat = table.slots := by
          simp only [Nat.toUInt32_eq, UInt32.toNat_ofNat']
          omega
        rw [← UInt32.toNat_inj, number]
        omega
      · have used := (known _).mp ((threaded.vacant handle.index).mp List.mem_cons_self).1
        rw [same]
        constructor
        · rintro (rfl | inside)
          · exact used
          · exact inside
        · exact .inr
  | retained found => exact kept ⟨rfl, fun _ => rfl⟩ (slots_setSlot ..)
  | unretained => exact kept ⟨rfl, fun _ => rfl⟩ rfl
  | released found => exact kept ⟨rfl, fun _ => rfl⟩ (slots_setSlot ..)
  | unreleased => exact kept ⟨rfl, fun _ => rfl⟩ rfl
  | updated found => exact kept ⟨rfl, fun _ => rfl⟩ (slots_setSlot ..)
  | recycled found vacates =>
      cases vacates.symm.trans (recycle_of_find found)
      rw [mem_created_cons, known]
      simp [Event.minted?, slots]

theorem Run.mem_created_iff (run : Run history table) (bounded : table.slots < 2 ^ 32)
    (index : UInt32) : index ∈ created history ↔ index.toNat < table.slots := by
  induction history generalizing table index with
  | nil =>
      cases run
      simp [created, slots, empty]
  | cons event history ih =>
      obtain ⟨former, past, before, steps⟩ := run.last bounded
      obtain ⟨chain, threaded⟩ := past.threaded before
      exact steps.mem_created_iff threaded bounded (ih past before) index

theorem Run.length_created (run : Run history table) (bounded : table.slots < 2 ^ 32) :
    (created history).length = table.slots := by
  have numbers : ((created history).map UInt32.toNat).Perm (List.range table.slots) := by
    refine (List.perm_ext_iff_of_nodup ?_ List.nodup_range).mpr fun position => ?_
    · exact (List.nodup_dedup _).map fun _ _ => UInt32.toNat.inj
    · simp only [List.mem_map, run.mem_created_iff bounded, List.mem_range]
      constructor
      · rintro ⟨index, inside, rfl⟩
        exact inside
      · intro inside
        have number : position.toUInt32.toNat = position := by
          simp only [Nat.toUInt32_eq, UInt32.toNat_ofNat']
          omega
        exact ⟨position.toUInt32, by rw [number]; exact inside, number⟩
  simpa using numbers.length_eq

theorem Steps.counted (steps : Steps table event next) (counted : table.Counted) :
    next.Counted := by
  cases steps with
  | minted mints => exact (counted.mint mints.eq).1
  | retained found => exact counted.setSlot found _ _
  | unretained => exact counted
  | released found => exact counted.setSlot found _ _
  | unreleased => exact counted
  | updated found => exact counted.setSlot found _ _
  | recycled found vacates => exact (counted.recycle vacates).1

theorem Run.counted (run : Run history table) (bounded : table.slots < 2 ^ 32) : table.Counted := by
  induction history generalizing table with
  | nil =>
      cases run
      exact counted_empty
  | cons event history ih =>
      obtain ⟨former, past, before, steps⟩ := run.last bounded
      exact steps.counted (ih past before)

theorem Run.mem_occupied_iff (run : Run history table) (bounded : table.slots < 2 ^ 32)
    {address : α} : (index, address) ∈ table.occupied ↔
      ∃ handle, occupant? index history = some handle ∧ table.resolve handle = .ok address := by
  rw [HandleTable.mem_occupied_iff (Nat.le_of_lt bounded), ← run.handleAt? bounded]
  simp only [handleAt?_eq_some_iff, resolve_eq_ok_iff]
  constructor
  · rintro ⟨generation, holds, found⟩
    exact ⟨⟨index, generation⟩, ⟨rfl, address, holds, found⟩, holds, found⟩
  · rintro ⟨handle, ⟨rfl, _⟩, holds, found⟩
    exact ⟨handle.generation, holds, found⟩

theorem Run.mem_held_iff (run : Run history table) (bounded : table.slots < 2 ^ 32) :
    handle ∈ table.held ↔ occupant? handle.index history = some handle ∧
      ∃ count, table.holds handle = .ok count ∧ 0 < count := by
  rw [HandleTable.mem_held_iff (Nat.le_of_lt bounded), ← run.handleAt? bounded,
    handleAt?_eq_some_iff]
  constructor
  · rintro ⟨address, holds, found, positive⟩
    exact ⟨⟨rfl, address, holds, found⟩, holds, by rw [HandleTable.holds, found]; rfl, positive⟩
  · rintro ⟨⟨_, address, holds, found⟩, count, counts, positive⟩
    rw [HandleTable.holds, found] at counts
    cases counts
    exact ⟨address, holds, found, positive⟩

theorem Run.live_eq (run : Run history table) (bounded : table.slots < 2 ^ 32) :
    table.live =
      ((created history).filter fun index => (occupant? index history).isSome).length := by
  have same : (table.occupied.map Prod.fst).Perm
      ((created history).filter fun index => (occupant? index history).isSome) := by
    refine (List.perm_ext_iff_of_nodup (nodup_occupied (Nat.le_of_lt bounded)) ?_).mpr
      fun index => ?_
    · exact (List.nodup_dedup _).filter _
    · simp only [List.mem_map, Prod.exists, exists_and_right, exists_eq_right,
        run.mem_occupied_iff bounded, List.mem_filter, Option.isSome_iff_exists]
      constructor
      · rintro ⟨address, handle, names, _⟩
        exact ⟨(created_of_occupant? names).2, handle, names⟩
      · rintro ⟨_, handle, names⟩
        have live := run.handleAt? bounded index ▸ names
        obtain ⟨_, address, holds, found⟩ := handleAt?_eq_some_iff.mp live
        exact ⟨address, handle, names, resolve_of_find found⟩
  rw [← same.length_eq, List.length_map, length_occupied]
  exact run.counted bounded

/-! ## What the table says about its slots -/

/-- The table agrees with the calls that it has answered on which slots exist, which are vacant and
who occupies the others. -/
structure TracksSlots (table : HandleTable α) (history : List (Event α)) : Prop where
  /-- The chain leads through every vacant slot once, the one vacated last first, and nowhere
  else. -/
  chain : ∃ chain, FreeChain table.entries table.free chain ∧ chain.Nodup ∧
    (∀ index, index ∈ chain ↔ IsVacant index history) ∧
      chain.Pairwise fun first second => idleFor first history < idleFor second history
  slots : table.slots = (created history).length
  live : table.live =
    ((created history).filter fun index => (occupant? index history).isSome).length
  /-- Where no slot is vacant, a handle is minted for a new slot. -/
  makes : (∀ index, ¬ IsVacant index history) → ∀ address, ∃ index next,
    table.mint address = (.ok ⟨index, 0⟩, next) ∧ index ∉ created history ∧
      next.slots = table.slots + 1
  /-- Otherwise one is minted for the slot vacated last. -/
  reuses : ∀ index, IsVacant index history →
    (∀ other, IsVacant other history → idleFor index history ≤ idleFor other history) →
      ∀ address, ∃ generation next,
        table.mint address = (.ok ⟨index, generation⟩, next) ∧ next.slots = table.slots
  occupied : ∀ index address, (index, address) ∈ table.occupied ↔
    ∃ handle, occupant? index history = some handle ∧ table.resolve handle = .ok address
  occupiedSorted : table.occupied.Pairwise fun first second => first.1 < second.1
  held : ∀ handle, handle ∈ table.held ↔ occupant? handle.index history = some handle ∧
    ∃ count, table.holds handle = .ok count ∧ 0 < count
  heldSorted : table.held.Pairwise fun first second => first.index < second.index
  handleAt : ∀ index, table.handleAt? index = occupant? index history
  resolves : ∀ index handle, table.handleAt? index = some handle ↔
    handle.index = index ∧ ∃ address, table.resolve handle = .ok address

theorem Threaded.makes (threaded : Threaded table history chain) (bounded : table.slots < 2 ^ 32)
    (known : ∀ index, index ∈ created history ↔ index.toNat < table.slots)
    (full : ∀ index, ¬ IsVacant index history) (address : α) :
    ∃ index next, table.mint address = (.ok ⟨index, 0⟩, next) ∧ index ∉ created history ∧
      next.slots = table.slots + 1 := by
  have none : chain = [] :=
    List.eq_nil_iff_forall_not_mem.mpr fun index => mt (threaded.vacant index).mp (full index)
  have links := none ▸ threaded.links
  have free : table.free = .none := by
    generalize table.free = head at links
    cases links
    rfl
  refine ⟨_, _, mint_of_full free address, ?_, by simp [slots]⟩
  rw [known]
  change ¬ table.slots.toUInt32.toNat < table.slots
  simp only [Nat.toUInt32_eq, UInt32.toNat_ofNat']
  omega

theorem Threaded.reuses (threaded : Threaded table history chain) (vacant : IsVacant index history)
    (last : ∀ other, IsVacant other history → idleFor index history ≤ idleFor other history)
    (address : α) : ∃ generation next,
      table.mint address = (.ok ⟨index, generation⟩, next) ∧ next.slots = table.slots := by
  have member := (threaded.vacant index).mpr vacant
  obtain ⟨links, vacancies, recent⟩ := threaded
  cases head : table.free with
  | none =>
      rw [head] at links
      cases links
      cases member
  | some first =>
      rw [head] at links
      cases links with
      | @cons _ generation after rest entry links =>
          have same : index = first := by
            rcases List.mem_cons.mp member with same | behind
            · exact same
            · have later := List.rel_of_pairwise_cons recent behind
              have sooner := last first ((vacancies first).mp List.mem_cons_self)
              exact absurd later (Nat.not_lt_of_le sooner)
          subst same
          exact ⟨generation, _, mint_of_vacant head entry address, by simp [slots]⟩

/-- Whatever a table was asked, it knows its slots. -/
theorem Run.tracksSlots (run : Run history table) (bounded : table.slots < 2 ^ 32) :
    TracksSlots table history := by
  obtain ⟨chain, threaded⟩ := run.threaded bounded
  have few := Nat.le_of_lt bounded
  exact {
    chain := ⟨chain, threaded.links, threaded.nodup, threaded.vacant, threaded.recent⟩
    slots := (run.length_created bounded).symm
    live := run.live_eq bounded
    makes := threaded.makes bounded (run.mem_created_iff bounded)
    reuses := fun _ vacant last => threaded.reuses vacant last
    occupied := fun _ _ => run.mem_occupied_iff bounded
    occupiedSorted := sorted_occupied few
    held := fun _ => run.mem_held_iff bounded
    heldSorted := sorted_held few
    handleAt := run.handleAt? bounded
    resolves := fun index handle => by
      rw [handleAt?_eq_some_iff_isLive, isLive_iff]
      simp only [resolve_eq_ok_iff] }

/-- The calls that make four slots, vacate two of them and use the later one of these again. -/
def fourSlotsHistory : List (Event Nat) :=
  [⟨.mint 50, .ok (some ⟨3, 1⟩)⟩, ⟨.release ⟨0, 0⟩, .ok none⟩, ⟨.recycle 3, .ok none⟩,
    ⟨.recycle 1, .ok none⟩, ⟨.mint 40, .ok (some ⟨3, 0⟩)⟩, ⟨.mint 30, .ok (some ⟨2, 0⟩)⟩,
    ⟨.mint 20, .ok (some ⟨1, 0⟩)⟩, ⟨.mint 10, .ok (some ⟨0, 0⟩)⟩]

/-- What they leave. -/
def fourSlots : HandleTable Nat :=
  ⟨#[⟨0, .live 10 0⟩, ⟨1, .vacant none⟩, ⟨0, .live 30 1⟩, ⟨1, .live 50 1⟩], some 1, 3⟩

theorem tracksSlots_fourSlots :
    Run fourSlotsHistory fourSlots ∧ fourSlots.slots < 2 ^ 32 ∧
      TracksSlots fourSlots fourSlotsHistory := by
  have two := (Run.start.acted (.mint 10) trivial).acted (.mint 20) trivial
  have four := (two.acted (.mint 30) trivial).acted (.mint 40) trivial
  have vacated := (four.acted (.recycle 1) ⟨⟨1, 0⟩, rfl⟩).acted (.recycle 3) ⟨⟨3, 0⟩, rfl⟩
  have run := (vacated.acted (.release ⟨0, 0⟩) trivial).acted (.mint 50) trivial
  exact ⟨run, by decide, Run.tracksSlots run (by decide)⟩

end HandleTable

end CompactingHeap
