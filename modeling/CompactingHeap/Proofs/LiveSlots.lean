import CompactingHeap.Proofs.HandleSlots
import Mathlib.Data.List.Nodup

/-!
# Live slots

The live slots of a table are listed in slot order, each once, and so are their handles and those
of them that are held.  A list of slots tells them apart because there are at most `2 ^ 32`.
-/

namespace CompactingHeap

namespace HandleTable

variable {α : Type}

/-- The positions of a table with at most `2 ^ 32` slots are told apart by 32-bit indices. -/
theorem toNat_position {table : HandleTable α} (bounded : table.slots ≤ 2 ^ 32) {position : Nat}
    {entry : Entry α} (found : table.entries.toList[position]? = some entry) :
    position.toUInt32.toNat = position := by
  have inside : position < table.entries.size := by
    rw [Array.getElem?_toList] at found
    exact (Array.getElem?_eq_some_iff.mp found).1
  simp only [slots] at bounded
  simp only [Nat.toUInt32_eq, UInt32.toNat_ofNat']
  omega

/-- The live slots are those that some handle names. -/
theorem mem_occupied_iff {table : HandleTable α} (bounded : table.slots ≤ 2 ^ 32) {index : UInt32}
    {address : α} :
    (index, address) ∈ table.occupied ↔
      ∃ generation holds, table.find ⟨index, generation⟩ = .ok (address, holds) := by
  simp only [occupied, List.mem_filterMap, Prod.exists, List.mem_zipIdx_iff_getElem?,
    find_eq_ok_iff]
  constructor
  · rintro ⟨⟨generation, slot⟩, position, found, chosen⟩
    have here := toNat_position bounded found
    cases slot with
    | live at' holds =>
        cases chosen
        refine ⟨generation, holds, ?_⟩
        rw [here, ← Array.getElem?_toList]
        exact found
    | vacant next => cases chosen
  · rintro ⟨generation, holds, found⟩
    refine ⟨⟨generation, .live address holds⟩, index.toNat, ?_, ?_⟩
    · rw [Array.getElem?_toList]
      exact found
    · simp

/-- What is listed for chosen slots in slot order is sorted by the slots. -/
theorem sorted_filterMap_zipIdx {β : Type} {table : HandleTable α}
    (bounded : table.slots ≤ 2 ^ 32) {choose : Entry α × Nat → Option β} {slotOf : β → UInt32}
    (names : ∀ entry position listed, choose (entry, position) = some listed →
      slotOf listed = position.toUInt32) :
    (table.entries.toList.zipIdx.filterMap choose).Pairwise fun first second =>
      slotOf first < slotOf second := by
  have positions : table.entries.toList.zipIdx.Pairwise fun first second =>
      first.2 < second.2 := by
    apply List.pairwise_map.mp
    rw [List.zipIdx_map_snd]
    exact List.pairwise_lt_range'
  rw [List.pairwise_filterMap]
  apply positions.imp_of_mem
  rintro ⟨one, i⟩ ⟨other, j⟩ oneMember otherMember before listed chosen later laterChosen
  have here := toNat_position bounded (List.mem_zipIdx_iff_getElem?.mp oneMember)
  have there := toNat_position bounded (List.mem_zipIdx_iff_getElem?.mp otherMember)
  rw [names _ _ _ chosen, names _ _ _ laterChosen, UInt32.lt_iff_toNat_lt, here, there]
  exact before

/-- The live slots are listed in slot order. -/
theorem sorted_occupied {table : HandleTable α} (bounded : table.slots ≤ 2 ^ 32) :
    table.occupied.Pairwise fun first second => first.1 < second.1 := by
  apply sorted_filterMap_zipIdx bounded
  rintro ⟨generation, _ | _⟩ position listed chosen
  · cases chosen
    rfl
  · cases chosen

/-- The held handles are listed in slot order. -/
theorem sorted_held {table : HandleTable α} (bounded : table.slots ≤ 2 ^ 32) :
    table.held.Pairwise fun first second => first.index < second.index := by
  apply sorted_filterMap_zipIdx bounded
  rintro ⟨generation, _ | _⟩ position listed chosen
  · obtain ⟨_, ⟨⟩⟩ := Option.ite_none_right_eq_some.mp chosen
    rfl
  · cases chosen

/-- Every live slot is listed once. -/
theorem nodup_occupied {table : HandleTable α} (bounded : table.slots ≤ 2 ^ 32) :
    (table.occupied.map Prod.fst).Nodup := by
  rw [List.Nodup, List.pairwise_map]
  exact (sorted_occupied bounded).imp UInt32.ne_of_lt

/-- The handles of the live slots, in slot order. -/
def liveHandles (table : HandleTable α) : List Handle :=
  table.entries.toList.zipIdx.filterMap fun
    | (⟨generation, .live ..⟩, index) => some ⟨index.toUInt32, generation⟩
    | (⟨_, .vacant _⟩, _) => none

theorem mem_liveHandles_iff {table : HandleTable α} (bounded : table.slots ≤ 2 ^ 32)
    {handle : Handle} : handle ∈ table.liveHandles ↔ table.isLive handle = true := by
  simp only [liveHandles, List.mem_filterMap, Prod.exists, List.mem_zipIdx_iff_getElem?, isLive_iff,
    find_eq_ok_iff]
  constructor
  · rintro ⟨⟨generation, slot⟩, position, found, chosen⟩
    have here := toNat_position bounded found
    cases slot with
    | vacant next => cases chosen
    | live address holds =>
        cases chosen
        refine ⟨address, holds, ?_⟩
        rw [here, ← Array.getElem?_toList]
        exact found
  · rintro ⟨address, holds, found⟩
    refine ⟨⟨handle.generation, .live address holds⟩, handle.index.toNat, ?_, ?_⟩
    · rw [Array.getElem?_toList]
      exact found
    · simp

/-- The live handles are those of the live slots. -/
theorem map_liveHandles (table : HandleTable α) :
    table.liveHandles.map Handle.index = table.occupied.map Prod.fst := by
  unfold liveHandles occupied
  rw [List.map_filterMap, List.map_filterMap]
  congr 1
  funext ⟨⟨generation, slot⟩, index⟩
  cases slot <;> rfl

theorem nodup_liveHandles {table : HandleTable α} (bounded : table.slots ≤ 2 ^ 32) :
    table.liveHandles.Nodup := by
  apply List.Nodup.of_map Handle.index
  rw [map_liveHandles]
  exact nodup_occupied bounded

/-- The handle of a numbered entry that has at least one hold. -/
def heldAt : Entry α × Nat → Option Handle
  | (⟨generation, .live _ holds⟩, index) =>
      if 0 < holds then some ⟨index.toUInt32, generation⟩ else none
  | (⟨_, .vacant _⟩, _) => none

theorem held_eq (table : HandleTable α) :
    table.held = table.entries.toList.zipIdx.filterMap heldAt :=
  rfl

/-- The entry at a position gives the handle that is found there with at least one hold. -/
theorem heldAt_eq_some_iff {table : HandleTable α} (bounded : table.slots ≤ 2 ^ 32) {position : Nat}
    {entry : Entry α} (found : table.entries.toList[position]? = some entry) {handle : Handle} :
    heldAt (entry, position) = some handle ↔ handle.index.toNat = position ∧
      ∃ address holds, table.find handle = .ok (address, holds) ∧ 0 < holds := by
  have here := toNat_position bounded found
  rw [Array.getElem?_toList] at found
  obtain ⟨generation, slot⟩ := entry
  simp only [find_eq_ok_iff]
  constructor
  · intro chosen
    cases slot with
    | vacant next => cases chosen
    | live address holds =>
        simp only [heldAt, Option.ite_none_right_eq_some, Option.some.injEq] at chosen
        rcases chosen with ⟨positive, rfl⟩
        exact ⟨here, address, holds, by rw [here]; exact found, positive⟩
  · rintro ⟨rfl, address, holds, there, positive⟩
    rw [found] at there
    cases there
    simp [heldAt, positive]

/-- The held handles are those that are found with at least one hold. -/
theorem mem_held_iff {table : HandleTable α} (bounded : table.slots ≤ 2 ^ 32) {handle : Handle} :
    handle ∈ table.held ↔
      ∃ address holds, table.find handle = .ok (address, holds) ∧ 0 < holds := by
  simp only [held_eq, List.mem_filterMap, Prod.exists, List.mem_zipIdx_iff_getElem?]
  constructor
  · rintro ⟨entry, position, found, chosen⟩
    exact ((heldAt_eq_some_iff bounded found).mp chosen).2
  · rintro ⟨address, holds, found, positive⟩
    have there := Array.getElem?_toList.trans (find_eq_ok_iff.mp found)
    exact ⟨_, _, there,
      (heldAt_eq_some_iff bounded there).mpr ⟨rfl, address, holds, found, positive⟩⟩

/-- A choice of numbered entries depends on what is chosen at each position only. -/
theorem filterMap_zipIdx_congr {β : Type} {choose : Entry α × Nat → Option β}
    {first second : List (Entry α)} (length : second.length = first.length) (start : Nat)
    (agree : ∀ position one other, first[position]? = some one → second[position]? = some other →
      choose (other, start + position) = choose (one, start + position)) :
    (second.zipIdx start).filterMap choose = (first.zipIdx start).filterMap choose := by
  induction first generalizing second start with
  | nil => rw [List.length_eq_zero_iff.mp length]
  | cons one first ih =>
      cases second with
      | nil => cases length
      | cons other second =>
          have here := agree 0 one other rfl rfl
          have rest := ih (Nat.succ.inj length) (start + 1)
            fun position left right found there => by
              rw [Nat.add_assoc, Nat.add_comm 1]
              exact agree (position + 1) left right found there
          rw [Nat.add_zero] at here
          rw [List.zipIdx_cons, List.zipIdx_cons, List.filterMap_cons, List.filterMap_cons,
            here, rest]

/-- The held handles of two tables with equally many slots are the same if the same handles have the
same holds. -/
theorem held_congr {table other : HandleTable α} (bounded : table.slots ≤ 2 ^ 32)
    (slots : other.slots = table.slots)
    (same : ∀ handle holds, 0 < holds → ((∃ address, other.find handle = .ok (address, holds)) ↔
      ∃ address, table.find handle = .ok (address, holds))) : other.held = table.held := by
  have boundedToo : other.slots ≤ 2 ^ 32 := slots ▸ bounded
  rw [held_eq, held_eq]
  apply filterMap_zipIdx_congr slots
  intro position entry otherEntry found there
  rw [Nat.zero_add]
  apply Option.ext
  intro handle
  rw [heldAt_eq_some_iff boundedToo there, heldAt_eq_some_iff bounded found]
  apply and_congr_right'
  constructor
  · rintro ⟨address, holds, finds, positive⟩
    obtain ⟨copy, again⟩ := (same handle holds positive).mp ⟨address, finds⟩
    exact ⟨copy, holds, again, positive⟩
  · rintro ⟨address, holds, finds, positive⟩
    obtain ⟨copy, again⟩ := (same handle holds positive).mpr ⟨address, finds⟩
    exact ⟨copy, holds, again, positive⟩

end HandleTable

end CompactingHeap
