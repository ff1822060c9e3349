import CompactingHeap.Handle.Table

/-!
# Handle slots

The vacant slots that the table will use again form a chain from its head, and no slot occurs on
the chain twice.  While the chain is intact and there are fewer than `2 ^ 32` slots, a minted
handle is new and changes what no other handle names, and vacating slots makes stale exactly the
handles of those slots.
-/

namespace CompactingHeap

namespace HandleTable

variable {α : Type}

/-- The slots reached from a head through vacant slots, in order. -/
inductive FreeChain (entries : Array (Entry α)) : Option UInt32 → List UInt32 → Prop
  | nil : FreeChain entries none []
  | cons {index : UInt32} {generation : UInt32} {next : Option UInt32} {rest : List UInt32} :
      entries[index.toNat]? = some ⟨generation, .vacant next⟩ → FreeChain entries next rest →
        FreeChain entries (some index) (index :: rest)

/-- Only the entries on the chain matter. -/
theorem FreeChain.congr {entries changed : Array (Entry α)} {head : Option UInt32}
    {chain : List UInt32} (links : FreeChain entries head chain)
    (same : ∀ index ∈ chain, changed[index.toNat]? = entries[index.toNat]?) :
    FreeChain changed head chain := by
  induction links with
  | nil => exact FreeChain.nil
  | @cons index generation next rest found links ih =>
      apply FreeChain.cons
      · rw [same index List.mem_cons_self]
        exact found
      · exact ih fun other member => same other (List.mem_cons_of_mem index member)

/-- Every slot on the chain is vacant. -/
theorem FreeChain.vacant {entries : Array (Entry α)} {head : Option UInt32} {chain : List UInt32}
    (links : FreeChain entries head chain) {index : UInt32} (member : index ∈ chain) :
    ∃ generation next, entries[index.toNat]? = some ⟨generation, .vacant next⟩ := by
  induction links with
  | nil => simp at member
  | @cons first generation next rest found links ih =>
      rcases List.mem_cons.mp member with rfl | member
      · exact ⟨generation, next, found⟩
      · exact ih member

/-- The chain of the table is intact. -/
def Chained (table : HandleTable α) : Prop :=
  ∃ chain, chain.Nodup ∧ FreeChain table.entries table.free chain

theorem chained_empty : (empty : HandleTable α).Chained :=
  ⟨[], List.nodup_nil, FreeChain.nil⟩

/-! ## Looking handles up -/

/-- A look-up that does not succeed reports the handle as stale. -/
theorem find_eq_stale_iff {table : HandleTable α} {handle : Handle} :
    table.find handle = .error (.staleHandle handle) ↔
      ∀ address holds, table.find handle ≠ .ok (address, holds) := by
  constructor
  · intro stale address holds found
    rw [stale] at found
    cases found
  · intro missing
    cases found : table.find handle with
    | ok occupant => exact absurd found (missing occupant.1 occupant.2)
    | error error => rw [find_eq_error found]

/-- A handle whose slot is of another generation, vacant or missing is stale. -/
theorem find_eq_stale_of_entry {table : HandleTable α} {handle : Handle}
    (missing : ∀ address holds,
      table.entries[handle.index.toNat]? ≠ some ⟨handle.generation, .live address holds⟩) :
    table.find handle = .error (.staleHandle handle) := by
  rw [find_eq_stale_iff]
  intro address holds found
  exact missing address holds (find_eq_ok_iff.mp found)

theorem isLive_iff {table : HandleTable α} {handle : Handle} :
    table.isLive handle = true ↔ ∃ address holds, table.find handle = .ok (address, holds) := by
  unfold isLive resolve
  cases table.find handle with
  | ok occupant =>
      rcases occupant with ⟨address, holds⟩
      simp [Except.map, Except.isOk, Except.toBool]
  | error error => simp [Except.map, Except.isOk, Except.toBool]

theorem isLive_eq_false_iff {table : HandleTable α} {handle : Handle} :
    table.isLive handle = false ↔ table.find handle = .error (.staleHandle handle) := by
  rw [find_eq_stale_iff, ← Bool.not_eq_true, isLive_iff]
  simp only [not_exists]

theorem find_of_resolve {table : HandleTable α} {handle : Handle} {address : α}
    (found : table.resolve handle = .ok address) :
    ∃ holds, table.find handle = .ok (address, holds) :=
  resolve_eq_ok_iff.mp found

theorem resolve_of_find {table : HandleTable α} {handle : Handle} {address : α} {holds : UInt32}
    (found : table.find handle = .ok (address, holds)) : table.resolve handle = .ok address :=
  resolve_eq_ok_iff.mpr ⟨holds, found⟩

/-- Handles that a table finds in the same slot are equal. -/
theorem eq_of_find {table : HandleTable α} {first second : Handle} {firstOccupant : α × UInt32}
    {secondOccupant : α × UInt32} (firstFound : table.find first = .ok firstOccupant)
    (secondFound : table.find second = .ok secondOccupant) (same : first.index = second.index) :
    first = second := by
  have firstEntry := find_eq_ok_iff.mp firstFound
  have secondEntry := find_eq_ok_iff.mp secondFound
  rw [same, secondEntry] at firstEntry
  cases first
  cases second
  simp_all

/-! ## Replacing the occupant of a slot -/

/-- Replacing the occupant of the slot of a live handle shows at that handle only. -/
theorem find_setSlot {table : HandleTable α} {handle : Handle} {occupant : α × UInt32}
    (live : table.find handle = .ok occupant) (address : α) (holds : UInt32) (other : Handle) :
    (table.setSlot handle address holds).find other =
      if other = handle then .ok (address, holds) else table.find other := by
  have entry := find_eq_ok_iff.mp live
  have inside := (Array.getElem?_eq_some_iff.mp entry).1
  split
  · next same =>
    subst other
    exact find_setSlot_self address holds inside
  · next different =>
    by_cases sameIndex : other.index = handle.index
    · have generations : handle.generation ≠ other.generation := by
        intro same
        apply different
        cases other
        cases handle
        simp_all
      have before : table.find other = .error (.staleHandle other) := by
        apply find_eq_stale_of_entry
        intro a n found
        rw [sameIndex, entry] at found
        simp_all
      rw [before]
      apply find_eq_stale_of_entry
      intro a n found
      simp [setSlot, sameIndex, inside, generations] at found
    · exact find_setSlot_of_ne address holds sameIndex

/-- A live slot is not on the chain. -/
theorem FreeChain.index_notMem {table : HandleTable α} {head : Option UInt32} {chain : List UInt32}
    (links : FreeChain table.entries head chain) {handle : Handle} {occupant : α × UInt32}
    (live : table.find handle = .ok occupant) : handle.index ∉ chain := by
  intro member
  obtain ⟨generation, next, vacant⟩ := links.vacant member
  rw [find_eq_ok_iff.mp live] at vacant
  cases vacant

/-- Writing an entry that is not on the chain leaves the chain alone. -/
theorem FreeChain.setIfInBounds {entries : Array (Entry α)} {head : Option UInt32}
    {chain : List UInt32} (links : FreeChain entries head chain) {index : UInt32}
    (apart : index ∉ chain) (entry : Entry α) :
    FreeChain (entries.setIfInBounds index.toNat entry) head chain := by
  apply links.congr
  intro other member
  have different : index.toNat ≠ other.toNat := fun same =>
    apart (UInt32.toNat.inj same ▸ member)
  simp [different]

/-- Replacing the occupant of a live slot leaves the chain alone. -/
theorem Chained.setSlot {table : HandleTable α} (chained : table.Chained) {handle : Handle}
    {occupant : α × UInt32} (live : table.find handle = .ok occupant) (address : α)
    (holds : UInt32) : (table.setSlot handle address holds).Chained := by
  rcases chained with ⟨chain, distinct, links⟩
  exact ⟨chain, distinct, links.setIfInBounds (links.index_notMem live) _⟩

@[simp]
theorem slots_setSlot (table : HandleTable α) (handle : Handle) (address : α) (holds : UInt32) :
    (table.setSlot handle address holds).slots = table.slots := by
  simp [slots, setSlot]

/-- Moving the object of a live slot replaces its occupant. -/
theorem update_eq_setSlot {table : HandleTable α} {handle : Handle} {old : α} {holds : UInt32}
    (live : table.find handle = .ok (old, holds)) (address : α) :
    table.update handle.index address = (.ok (), table.setSlot handle address holds) := by
  unfold update
  rw [find_eq_ok_iff.mp live]
  rfl

/-! ## Holds -/

/-- A hold can be added to a live handle only, and shows in its count only. -/
theorem retain_eq_ok {table next : HandleTable α} {handle : Handle}
    (retains : table.retain handle = (.ok (), next)) :
    ∃ address holds, table.find handle = .ok (address, holds) ∧
      next = table.setSlot handle address (holds + 1) := by
  unfold retain at retains
  split at retains
  · next address holds found =>
    cases retains
    exact ⟨address, holds, found, rfl⟩
  · cases retains

/-- A hold can be dropped from a held handle only, and shows in its count only. -/
theorem release_eq_ok {table next : HandleTable α} {handle : Handle}
    (releases : table.release handle = (.ok (), next)) :
    ∃ address holds, table.find handle = .ok (address, holds) ∧ holds ≠ 0 ∧
      next = table.setSlot handle address (holds - 1) := by
  unfold release at releases
  split at releases
  · next address holds found =>
    split at releases
    · cases releases
    · next positive =>
      cases releases
      exact ⟨address, holds, found, positive, rfl⟩
  · cases releases

/-- A hold that cannot be dropped leaves the table as it is. -/
theorem release_eq_error {table next : HandleTable α} {handle : Handle} {error : HeapError}
    (releases : table.release handle = (.error error, next)) : next = table := by
  unfold release at releases
  split at releases
  · split at releases <;> cases releases
    rfl
  · cases releases
    rfl

/-- Changing the count of holds on a live handle does not change what handles name. -/
theorem resolve_setSlot {table : HandleTable α} {handle : Handle} {address : α}
    {holds : UInt32} (found : table.find handle = .ok (address, holds)) (count : UInt32)
    (other : Handle) :
    (table.setSlot handle address count).resolve other = table.resolve other := by
  unfold resolve
  rw [find_setSlot found]
  split
  · next same =>
    subst other
    rw [found]
    rfl
  · rfl

/-- Handles that name the same are live together. -/
theorem isLive_congr {table changed : HandleTable α}
    (same : ∀ handle, changed.resolve handle = table.resolve handle) (handle : Handle) :
    changed.isLive handle = table.isLive handle := by
  unfold isLive
  rw [same]

/-! ## Minting -/

/-- What minting a handle does: the handle is new, it is found with one hold, and no other handle is
concerned. -/
structure Mints (table : HandleTable α) (address : α) (handle : Handle) (next : HandleTable α) :
    Prop where
  eq : table.mint address = (.ok handle, next)
  chained : next.Chained
  new : table.find handle = .error (.staleHandle handle)
  found : next.find handle = .ok (address, 1)
  others : ∀ other, other ≠ handle → next.find other = table.find other

/-- The handles that were live before stay so. -/
theorem Mints.find_of_find {table next : HandleTable α} {address : α} {handle other : Handle}
    {occupant : α × UInt32} (mints : table.Mints address handle next)
    (found : table.find other = .ok occupant) : next.find other = .ok occupant := by
  rw [mints.others]
  · exact found
  · rintro rfl
    rw [mints.new] at found
    cases found

/-- Minting never takes slots away. -/
theorem slots_le_mint (table : HandleTable α) (address : α) :
    table.slots ≤ (table.mint address).2.slots := by
  unfold mint slots
  split
  · simp
  · split
    · simp
    · exact Nat.le_refl _

/-- Placing an occupant into a slot that was not live is found at its handle only. -/
theorem find_of_filled {table next : HandleTable α} {handle : Handle} {address : α}
    (vacant : ∀ generation a n,
      table.entries[handle.index.toNat]? ≠ some ⟨generation, .live a n⟩)
    (filled : next.entries[handle.index.toNat]? = some ⟨handle.generation, .live address 1⟩)
    (apart : ∀ index, index ≠ handle.index.toNat → next.entries[index]? = table.entries[index]?)
    (other : Handle) (different : other ≠ handle) : next.find other = table.find other := by
  by_cases same : other.index = handle.index
  · have generations : handle.generation ≠ other.generation := by
      intro equal
      apply different
      cases other
      cases handle
      simp_all
    have before : table.find other = .error (.staleHandle other) :=
      find_eq_stale_of_entry fun a n => same ▸ vacant other.generation a n
    have after : next.find other = .error (.staleHandle other) := by
      apply find_eq_stale_of_entry
      intro a n found
      rw [same, filled] at found
      simp_all
    rw [before, after]
  · have elsewhere : other.index.toNat ≠ handle.index.toNat :=
      fun equal => same (UInt32.toNat.inj equal)
    unfold find
    rw [apart _ elsewhere]

/-- Where the chain is empty, minting adds a slot. -/
theorem mint_of_full {table : HandleTable α} (full : table.free = none) (address : α) :
    table.mint address = (.ok ⟨table.entries.size.toUInt32, 0⟩,
      { table with
        entries := table.entries.push ⟨0, .live address 1⟩
        live := table.live + 1 }) := by
  unfold mint
  rw [full]

/-- Where the chain has a first slot, minting fills that slot. -/
theorem mint_of_vacant {table : HandleTable α} {index generation : UInt32} {next : Option UInt32}
    (head : table.free = some index)
    (entry : table.entries[index.toNat]? = some ⟨generation, .vacant next⟩) (address : α) :
    table.mint address = (.ok ⟨index, generation⟩,
      { entries := table.entries.setIfInBounds index.toNat ⟨generation, .live address 1⟩
        free := next
        live := table.live + 1 }) := by
  unfold mint
  rw [head]
  dsimp only
  rw [entry]

/-- Where no slot is vacant, a new one is added. -/
theorem mints_of_full {table : HandleTable α} (full : table.free = none) (address : α)
    (bounded : (table.mint address).2.slots < 2 ^ 32) :
    ∃ handle next, table.Mints address handle next := by
  have minted := mint_of_full full address
  rw [minted] at bounded
  have index : table.entries.size.toUInt32.toNat = table.entries.size := by
    simp only [slots, Array.size_push] at bounded
    simp only [Nat.toUInt32_eq, UInt32.toNat_ofNat']
    omega
  have missing : ∀ generation a n, table.entries[table.entries.size.toUInt32.toNat]? ≠
      some ⟨generation, .live a n⟩ := by
    intro generation a n
    simp [index]
  have filled : (table.entries.push ⟨0, .live address 1⟩)[table.entries.size.toUInt32.toNat]? =
      some ⟨0, .live address 1⟩ := by
    simp [index]
  refine ⟨_, _, minted, ?_, ?_, ?_, ?_⟩
  · refine ⟨[], List.nodup_nil, ?_⟩
    rw [full]
    exact FreeChain.nil
  · exact find_eq_stale_of_entry fun a n => missing 0 a n
  · exact find_eq_ok_iff.mpr filled
  · apply find_of_filled missing filled
    intro other different
    rw [index] at different
    simp [Array.getElem?_push, different]

/-- Where a slot is vacant, it is taken off the chain and used again. -/
theorem mints_of_vacant {table : HandleTable α} {index generation : UInt32} {next : Option UInt32}
    {rest : List UInt32} (head : table.free = some index)
    (entry : table.entries[index.toNat]? = some ⟨generation, .vacant next⟩)
    (distinct : (index :: rest).Nodup) (links : FreeChain table.entries next rest) (address : α) :
    ∃ handle next, table.Mints address handle next := by
  rcases List.nodup_cons.mp distinct with ⟨new, others⟩
  have inside := (Array.getElem?_eq_some_iff.mp entry).1
  have minted := mint_of_vacant head entry address
  have vacant : ∀ g a n, table.entries[index.toNat]? ≠ some ⟨g, .live a n⟩ := by
    intro g a n found
    rw [entry] at found
    simp at found
  have filled : (table.entries.setIfInBounds index.toNat
      ⟨generation, .live address 1⟩)[index.toNat]? = some ⟨generation, .live address 1⟩ := by
    simp [inside]
  refine ⟨_, _, minted, ?_, ?_, ?_, ?_⟩
  · exact ⟨rest, others, links.setIfInBounds new _⟩
  · exact find_eq_stale_of_entry fun a n => vacant generation a n
  · exact find_eq_ok_iff.mpr filled
  · apply find_of_filled vacant filled
    intro other different
    simp [Ne.symm different]

/-- Minting succeeds while the chain is intact and the new table has fewer than `2 ^ 32` slots. -/
theorem Chained.mint {table : HandleTable α} (chained : table.Chained) (address : α)
    (bounded : (table.mint address).2.slots < 2 ^ 32) :
    ∃ handle next, table.Mints address handle next := by
  rcases chained with ⟨chain, distinct, links⟩
  cases head : table.free with
  | none => exact mints_of_full head address bounded
  | some index =>
      rw [head] at links
      cases links with
      | cons entry rest => exact mints_of_vacant head entry distinct rest address

/-! ## Vacating slots -/

/-- Vacating a live slot puts it before the chain. -/
theorem recycle_of_find {table : HandleTable α} {handle : Handle} {occupant : α × UInt32}
    (live : table.find handle = .ok occupant) :
    table.recycle handle.index = (.ok (),
      { entries := table.entries.setIfInBounds handle.index.toNat
          ⟨handle.generation + 1, .vacant table.free⟩
        free := some handle.index
        live := table.live - 1 }) := by
  unfold recycle
  rw [find_eq_ok_iff.mp live]

theorem FreeChain.recycle {table next : HandleTable α} {chain : List UInt32}
    (links : FreeChain table.entries table.free chain) {handle : Handle} {occupant : α × UInt32}
    (live : table.find handle = .ok occupant)
    (recycles : table.recycle handle.index = (.ok (), next)) :
    FreeChain next.entries next.free (handle.index :: chain) := by
  rw [recycle_of_find live] at recycles
  cases recycles
  have inside := (Array.getElem?_eq_some_iff.mp (find_eq_ok_iff.mp live)).1
  have vacated : (table.entries.setIfInBounds handle.index.toNat
      ⟨handle.generation + 1, .vacant table.free⟩)[handle.index.toNat]? =
        some ⟨handle.generation + 1, .vacant table.free⟩ := by
    simp [inside]
  exact FreeChain.cons vacated (links.setIfInBounds (links.index_notMem live) _)

/-- Vacating a live slot makes exactly the handles of that slot stale. -/
theorem Chained.recycle {table : HandleTable α} (chained : table.Chained) {handle : Handle}
    {occupant : α × UInt32} (live : table.find handle = .ok occupant) :
    ∃ next, table.recycle handle.index = (.ok (), next) ∧ next.Chained ∧
      next.slots = table.slots ∧
      ∀ other, next.find other =
        if other.index = handle.index then .error (.staleHandle other) else table.find other := by
  have inside := (Array.getElem?_eq_some_iff.mp (find_eq_ok_iff.mp live)).1
  have recycled := recycle_of_find live
  rcases chained with ⟨chain, distinct, links⟩
  have fresh := links.index_notMem live
  refine ⟨_, recycled, ⟨_, List.nodup_cons.mpr ⟨fresh, distinct⟩, links.recycle live recycled⟩,
    ?_, ?_⟩
  · simp [slots]
  · intro other
    split
    · next same =>
      apply find_eq_stale_of_entry
      intro a n found
      simp [same, inside] at found
    · next different =>
      have apart : handle.index.toNat ≠ other.index.toNat := fun same =>
        different (UInt32.toNat.inj same.symm)
      simp [find, apart]

end HandleTable

end CompactingHeap
