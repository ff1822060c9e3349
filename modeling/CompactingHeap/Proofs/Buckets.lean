import CompactingHeap.Proofs.Lists
import CompactingHeap.Proofs.Keys
import CompactingHeap.Proofs.Probing

/-!
# Bucket arrays

The bucket array of a table holds the key and the value of every bucket one after the other.  This
module tells what the programs do that work on bucket arrays: a probe finds a key or the bucket
where it belongs, the entries of one bucket array enter another one, and a hole is closed.
-/

namespace CompactingHeap

open Heap

namespace RefTable

/-! ## Words as positions -/

section

variable {power : Nat} {first second : UInt64}

/-- The next position, as the programs compute it. -/
theorem toNat_next (small : power < 64) (inside : first.toNat < 2 ^ power) :
    ((first + 1) &&& ((2 ^ power : Nat).toUInt64 - 1)).toNat =
      Ring.after (2 ^ power) first.toNat := by
  have divides : 2 ^ power ∣ 2 ^ 64 := Nat.pow_dvd_pow 2 (Nat.le_of_lt small)
  rw [toNat_and_lowMask _ small, UInt64.toNat_add, Nat.mod_mod_of_dvd _ divides]
  unfold Ring.after
  change (first.toNat + 1) % 2 ^ power = _
  split_ifs with last
  · rw [last, Nat.mod_self]
  · exact Nat.mod_eq_of_lt (by omega)

/-- The distance of two positions, as the programs compute it. -/
theorem toNat_distance (small : power < 64) (inside : first.toNat < 2 ^ power)
    (insideToo : second.toNat < 2 ^ power) :
    ((second - first) &&& ((2 ^ power : Nat).toUInt64 - 1)).toNat =
      Ring.distance (2 ^ power) first.toNat second.toNat := by
  have divides : 2 ^ power ∣ 2 ^ 64 := Nat.pow_dvd_pow 2 (Nat.le_of_lt small)
  obtain ⟨factor, whole⟩ := divides
  have positive : 0 < factor := by
    apply Nat.pos_of_ne_zero
    rintro rfl
    simp at whole
  obtain ⟨less, rfl⟩ := Nat.exists_eq_add_of_lt positive
  rw [toNat_and_lowMask _ small, UInt64.toNat_sub, Nat.mod_mod_of_dvd _ ⟨_, whole⟩]
  unfold Ring.distance
  have total : 2 ^ 64 = 2 ^ power * less + 2 ^ power := by
    rw [whole, Nat.zero_add, Nat.mul_succ]
  split_ifs with order
  · have sum : 2 ^ 64 - first.toNat + second.toNat =
        (second.toNat - first.toNat) + 2 ^ power * (less + 1) := by
      rw [Nat.mul_succ]
      omega
    rw [sum, Nat.add_mul_mod_self_left, Nat.mod_eq_of_lt (by omega)]
  · have sum : 2 ^ 64 - first.toNat + second.toNat =
        (2 ^ power + second.toNat - first.toNat) + 2 ^ power * less := by
      omega
    rw [sum, Nat.add_mul_mod_self_left, Nat.mod_eq_of_lt (by omega)]

theorem keyIndex_eq {bucket : UInt64} (small : bucket.toNat < 2 ^ 32) :
    keyIndex bucket = 2 * bucket.toNat := by
  unfold keyIndex
  rw [UInt64.toNat_mul]
  change 2 * bucket.toNat % 2 ^ 64 = _
  omega

theorem valueIndex_eq {bucket : UInt64} (small : bucket.toNat < 2 ^ 32) :
    valueIndex bucket = 2 * bucket.toNat + 1 := by
  unfold valueIndex
  rw [UInt64.toNat_add, UInt64.toNat_mul]
  change (2 * bucket.toNat % 2 ^ 64 + 1) % 2 ^ 64 = _
  omega

end

/-! ## Bins -/

/-- The buckets of a table, and the objects that hold them. -/
structure Bins where
  power : Nat
  buckets : Nat → Option Entry
  array : RefArray
  backing : Handle

namespace Bins

/-- The number of buckets. -/
def capacity (bins : Bins) : Nat :=
  2 ^ bins.power

/-- The entries in bucket order. -/
def entries (bins : Bins) : List Entry :=
  listed bins.capacity bins.buckets

/-- The elements of the bucket array. -/
def cells (bins : Bins) : List (Option Handle) :=
  (List.range (2 * bins.capacity)).map fun index =>
    (bins.buckets (index / 2)).map (if index % 2 = 0 then Entry.key else Entry.value)

/-- The position where a probe for a key begins. -/
def home (bins : Bins) (hash : Key → UInt64) (identity : Key) : Nat :=
  (hash identity).toNat % bins.capacity

/-- Replace a bucket. -/
def set (bins : Bins) (position : Nat) (bucket : Option Entry) : Bins :=
  { bins with buckets := Function.update bins.buckets position bucket }

/-- The entries can be found, and there is a vacant bucket. -/
structure Fit (bins : Bins) (hash : Key → UInt64) : Prop where
  probed : Probed bins.capacity (bins.home hash) bins.buckets none
  room : bins.entries.length < bins.capacity

variable {bins : Bins} {hash : Key → UInt64}

theorem home_lt (bins : Bins) (hash : Key → UInt64) (identity : Key) :
    bins.home hash identity < bins.capacity :=
  Nat.mod_lt _ (Nat.two_pow_pos _)

theorem length_cells (bins : Bins) : bins.cells.length = 2 * bins.capacity := by
  unfold cells
  rw [List.length_map, List.length_range]

theorem getElem?_cells {index : Nat} (inside : index < 2 * bins.capacity) :
    bins.cells[index]? = some ((bins.buckets (index / 2)).map
      (if index % 2 = 0 then Entry.key else Entry.value)) := by
  unfold cells
  rw [List.getElem?_map, List.getElem?_range inside]
  rfl

theorem getElem?_cells_key {position : Nat} (inside : position < bins.capacity) :
    bins.cells[2 * position]? = some ((bins.buckets position).map Entry.key) := by
  rw [getElem?_cells (by omega), Nat.mul_div_cancel_left _ (by decide), Nat.mul_mod_right,
    if_pos rfl]

theorem getElem?_cells_value {position : Nat} (inside : position < bins.capacity) :
    bins.cells[2 * position + 1]? = some ((bins.buckets position).map Entry.value) := by
  rw [getElem?_cells (by omega), show (2 * position + 1) / 2 = position by omega,
    if_neg (by omega)]

theorem cells_set (bins : Bins) (position : Nat) (bucket : Option Entry) :
    (bins.set position bucket).cells =
      (bins.cells.set (2 * position) (bucket.map Entry.key)).set (2 * position + 1)
        (bucket.map Entry.value) := by
  apply List.ext_getElem?
  intro index
  by_cases inside : index < 2 * bins.capacity
  · have before := getElem?_cells inside
    have after : (bins.set position bucket).cells[index]? = _ := getElem?_cells inside
    rw [after, List.getElem?_set, List.getElem?_set, before, List.length_set, length_cells]
    unfold set
    dsimp only
    by_cases here : index / 2 = position
    · rw [here, Function.update_self]
      by_cases even : index % 2 = 0
      · rw [if_pos even, if_neg (by omega), if_pos (by omega), if_pos (by omega)]
      · rw [if_neg even, if_pos (by omega), if_pos (by omega)]
    · have notKey : 2 * position ≠ index := by omega
      have notValue : 2 * position + 1 ≠ index := by omega
      rw [Function.update_of_ne here, if_neg notValue, if_neg notKey]
  · rw [List.getElem?_eq_none, List.getElem?_eq_none]
    · rw [List.length_set, List.length_set, length_cells]
      omega
    · rw [length_cells]
      exact Nat.le_of_not_lt inside

/-- The value of a bucket alone is replaced. -/
theorem cells_set_value {position : Nat} {entry : Entry} (inside : position < bins.capacity)
    (taken : bins.buckets position = some entry) (value : Handle) :
    (bins.set position (some { entry with value })).cells =
      bins.cells.set (2 * position + 1) (some value) := by
  rw [cells_set]
  congr 1
  have key := getElem?_cells_key inside
  rw [taken] at key
  obtain ⟨here, same⟩ := List.getElem?_eq_some_iff.mp key
  change bins.cells.set (2 * position) (some entry.key) = bins.cells
  change _ = some entry.key at same
  rw [← same, List.set_getElem_self]

/-- Every handle in a bucket is an element of the bucket array. -/
theorem mem_cells {position : Nat} {entry : Entry} (inside : position < bins.capacity)
    (taken : bins.buckets position = some entry) :
    some entry.key ∈ bins.cells ∧ some entry.value ∈ bins.cells := by
  have key := getElem?_cells_key inside
  have value := getElem?_cells_value inside
  rw [taken] at key value
  exact ⟨List.mem_of_getElem? key, List.mem_of_getElem? value⟩

theorem mem_entries {entry : Entry} :
    entry ∈ bins.entries ↔ ∃ position < bins.capacity, bins.buckets position = some entry :=
  mem_listed

/-- There is a vacant bucket. -/
theorem Fit.exists_vacant (fit : bins.Fit hash) :
    ∃ position < bins.capacity, bins.buckets position = none :=
  RefTable.exists_vacant fit.room

end Bins

/-- Where a probe for a key may end. -/
inductive Finds (bins : Bins) (hash : Key → UInt64) (identity : Key) : Probe → Prop
  | found {bucket : UInt64} {entry : Entry} :
      bucket.toNat < bins.capacity → bins.buckets bucket.toNat = some entry →
        entry.identity = identity → Finds bins hash identity (.found bucket)
  | vacant {bucket : UInt64} :
      bucket.toNat < bins.capacity → bins.buckets bucket.toNat = none →
        Passed bins.capacity (bins.home hash) bins.buckets identity bucket.toNat →
          Finds bins hash identity (.vacant bucket)

end RefTable

open RefTable

/-- What counts of a key does not change while objects are written that are compared by identity. -/
theorem Heap.Alters.ofHandle {heap next : Heap} {altered : List Handle} (sound : heap.Sound)
    (alters : heap.Alters next altered)
    (plain : ∀ handle ∈ altered, ∃ id, heap.classOf handle = .ok id ∧ id ∉ Key.contentClasses)
    {handle : Handle} {identity : Key} (known : Key.ofHandle heap handle = .ok identity) :
    Key.ofHandle next handle = .ok identity := by
  apply Key.ofHandle_of_same sound known (alters.classOf sound handle)
  intro content
  apply alters.views
  intro member
  obtain ⟨id, named, other⟩ := plain handle member
  rw [(Key.classOf_of_ofHandle sound known).1] at named
  cases named
  exact other content

namespace Heap

/-- The bucket array holds the buckets, and of each key in it counts what the entry says. -/
structure Stores (heap : Heap) (bins : Bins) : Prop where
  lists : heap.Lists bins.array bins.cells (2 * bins.capacity) (some bins.backing)
  keys : ∀ entry ∈ bins.entries, Key.ofHandle heap entry.key = .ok entry.identity

namespace Stores

variable {heap next : Heap} {bins : Bins} {hash : Key → UInt64}

/-- The objects of a bucket array are compared by identity. -/
theorem plain (stores : heap.Stores bins) : ∀ handle ∈ [bins.backing], ∃ id,
    heap.classOf handle = .ok id ∧ id ∉ Key.contentClasses := by
  intro handle member
  cases List.mem_singleton.mp member
  exact ⟨.vector, (stores.lists.backed _ rfl).classOf, by decide⟩

section

variable (stores : heap.Stores bins)

include stores

theorem small : bins.capacity < 2 ^ 31 := by
  have small := stores.lists.small
  omega

theorem power_lt : bins.power < 64 := by
  have small := stores.small
  exact (Nat.pow_lt_pow_iff_right (by decide)).mp (Nat.lt_trans small (by decide))

/-- The mask of the positions, as the programs compute it. -/
theorem toNat_mask : (bins.capacity.toUInt64 - 1).toNat + 1 = bins.capacity := by
  unfold Bins.capacity
  rw [toNat_lowMask stores.power_lt]
  exact Nat.sub_add_cancel (Nat.two_pow_pos _)

variable {bucket : UInt64} {entry : RefTable.Entry}

/-- The key and the value of an entry are live. -/
theorem isLive {position : Nat} (inside : position < bins.capacity)
    (taken : bins.buckets position = some entry) :
    heap.isLive entry.key = true ∧ heap.isLive entry.value = true := by
  obtain ⟨key, value⟩ := Bins.mem_cells inside taken
  exact ⟨stores.lists.present _ key _ rfl, stores.lists.present _ value _ rfl⟩

theorem known {position : Nat} (inside : position < bins.capacity)
    (taken : bins.buckets position = some entry) :
    Key.ofHandle heap entry.key = .ok entry.identity :=
  stores.keys entry (Bins.mem_entries.mpr ⟨position, inside, taken⟩)

variable (inside : bucket.toNat < bins.capacity)

include inside

/-- The next position, as the programs compute it. -/
theorem toNat_succ : (bucket + 1).toNat = bucket.toNat + 1 := by
  have small := stores.small
  rw [UInt64.toNat_add]
  change (bucket.toNat + 1) % 2 ^ 64 = _
  omega

theorem toNat_next :
    ((bucket + 1) &&& (bins.capacity.toUInt64 - 1)).toNat = Ring.after bins.capacity bucket.toNat :=
  RefTable.toNat_next stores.power_lt inside

/-- The distance of two positions, as the programs compute it. -/
theorem toNat_distance {other : UInt64} (otherInside : other.toNat < bins.capacity) :
    ((other - bucket) &&& (bins.capacity.toUInt64 - 1)).toNat =
      Ring.distance bins.capacity bucket.toNat other.toNat :=
  RefTable.toNat_distance stores.power_lt inside otherInside

/-- Two positions compared by how far they are from a bucket, as the programs compute it. -/
theorem distance_le_iff {first second : UInt64} (firstInside : first.toNat < bins.capacity)
    (secondInside : second.toNat < bins.capacity) :
    (bucket - first) &&& (bins.capacity.toUInt64 - 1) ≤
        (bucket - second) &&& (bins.capacity.toUInt64 - 1) ↔
      Ring.distance bins.capacity first.toNat bucket.toNat ≤
        Ring.distance bins.capacity second.toNat bucket.toNat := by
  rw [UInt64.le_iff_toNat_le, stores.toNat_distance firstInside inside,
    stores.toNat_distance secondInside inside]

theorem getKey :
    bins.array.get heap (keyIndex bucket) =
      .ok ((bins.buckets bucket.toNat).map RefTable.Entry.key) := by
  have small := stores.small
  rw [stores.lists.get, keyIndex_eq (by omega), Bins.getElem?_cells_key inside]

theorem getValue :
    bins.array.get heap (valueIndex bucket) =
      .ok ((bins.buckets bucket.toNat).map RefTable.Entry.value) := by
  have small := stores.small
  rw [stores.lists.get, valueIndex_eq (by omega), Bins.getElem?_cells_value inside]

end

/-- What counts of a key has not changed, so that a bucket array holds the buckets that have been
written. -/
theorem written (stores : heap.Stores bins) (sound : heap.Sound)
    (alters : heap.Alters next [bins.backing]) {position : Nat} {bucket : Option RefTable.Entry}
    (lists : next.Lists bins.array (bins.set position bucket).cells (2 * bins.capacity)
      (some bins.backing))
    (known : ∀ entry, bucket = some entry → Key.ofHandle heap entry.key = .ok entry.identity) :
    next.Stores (bins.set position bucket) where
  lists := lists
  keys entry member := by
    apply alters.ofHandle sound stores.plain
    obtain ⟨index, inside, shown⟩ := Bins.mem_entries.mp member
    change Function.update bins.buckets position bucket index = some entry at shown
    by_cases here : index = position
    · subst here
      rw [Function.update_self] at shown
      exact known entry shown
    · rw [Function.update_of_ne here] at shown
      exact stores.known inside shown

section

variable (stores : heap.Stores bins) (sound : heap.Sound) {bucket : UInt64}
  (inside : bucket.toNat < bins.capacity)

include stores sound inside

/-- A bucket is filled or made vacant. -/
theorem fill {entry : Option RefTable.Entry}
    (known : ∀ found, entry = some found → Key.ofHandle heap found.key = .ok found.identity)
    (live : ∀ found, entry = some found → heap.isLive found.value = true) :
    ∃ next, (fillBucket bins.array bucket (entry.map RefTable.Entry.key)
        (entry.map RefTable.Entry.value)).run heap = (.ok ⟨⟩, next) ∧
      heap.Alters next [bins.backing] ∧ next.Stores (bins.set bucket.toNat entry) := by
  have small := stores.small
  have long := bins.length_cells
  have presentKey : heap.Present (entry.map RefTable.Entry.key) := by
    intro handle same
    obtain ⟨found, here, rfl⟩ := Option.map_eq_some_iff.mp same
    exact Key.isLive_of_ofHandle sound (known found here)
  have presentValue : heap.Present (entry.map RefTable.Entry.value) := by
    intro handle same
    obtain ⟨found, here, rfl⟩ := Option.map_eq_some_iff.mp same
    exact live found here
  have keyInside : keyIndex bucket < bins.cells.length := by
    rw [keyIndex_eq (by omega)]
    omega
  obtain ⟨middle, ran, alters, lists⟩ := stores.lists.set sound keyInside presentKey
  have valueInside : valueIndex bucket <
      (bins.cells.set (keyIndex bucket) (entry.map RefTable.Entry.key)).length := by
    rw [valueIndex_eq (by omega), List.length_set]
    omega
  obtain ⟨next, ranToo, altersToo, listsToo⟩ :=
    lists.set (alters.sound sound) valueInside (alters.present.mpr presentValue)
  have both : heap.Alters next [bins.backing] := (alters.trans altersToo).mono (by simp)
  refine ⟨next, ?_, both, stores.written sound both ?_ known⟩
  · unfold fillBucket
    rw [HeapM.run_bind, ran]
    exact ranToo
  · rw [keyIndex_eq (by omega), valueIndex_eq (by omega), ← Bins.cells_set] at listsToo
    exact listsToo

/-- An entry is put into a bucket. -/
theorem put {entry : RefTable.Entry} (known : Key.ofHandle heap entry.key = .ok entry.identity)
    (live : heap.isLive entry.value = true) :
    ∃ next, (fillBucket bins.array bucket (some entry.key) (some entry.value)).run heap =
        (.ok ⟨⟩, next) ∧ heap.Alters next [bins.backing] ∧
      next.Stores (bins.set bucket.toNat (some entry)) := by
  have knownToo : ∀ found, some entry = some found →
      Key.ofHandle heap found.key = .ok found.identity := by
    intro found same
    cases same
    exact known
  have liveToo : ∀ found, some entry = some found → heap.isLive found.value = true := by
    intro found same
    cases same
    exact live
  have filled := stores.fill sound inside knownToo liveToo
  exact filled

/-- A bucket is made vacant. -/
theorem vacate :
    ∃ next, (fillBucket bins.array bucket none none).run heap = (.ok ⟨⟩, next) ∧
      heap.Alters next [bins.backing] ∧ next.Stores (bins.set bucket.toNat none) := by
  have emptied := stores.fill sound inside (fun found (same : none = some found) => nomatch same)
    fun found (same : none = some found) => nomatch same
  exact emptied

/-- The value of an entry is replaced. -/
theorem replace {entry : RefTable.Entry} (taken : bins.buckets bucket.toNat = some entry)
    {value : Handle} (live : heap.isLive value = true) :
    ∃ next, (bins.array.set (valueIndex bucket) (some value)).run heap = (.ok ⟨⟩, next) ∧
      heap.Alters next [bins.backing] ∧
      next.Stores (bins.set bucket.toNat (some { entry with value })) := by
  have small := stores.small
  have long := bins.length_cells
  have valueInside : valueIndex bucket < bins.cells.length := by
    rw [valueIndex_eq (by omega)]
    omega
  have present : heap.Present (some value) := by
    rintro handle same
    cases same
    exact live
  obtain ⟨next, ran, alters, lists⟩ := stores.lists.set sound valueInside present
  refine ⟨next, ran, alters, stores.written sound alters ?_ ?_⟩
  · rw [valueIndex_eq (by omega), ← Bins.cells_set_value inside taken] at lists
    exact lists
  · rintro found same
    cases same
    change Key.ofHandle heap entry.key = .ok entry.identity
    exact stores.known inside taken

end

/-! ### Probing -/

section

variable (stores : heap.Stores bins) (sound : heap.Sound) {key : Handle} {identity : Key}
  (known : Key.ofHandle heap key = .ok identity)

include stores known

/-- The home of a key, as the programs compute it. -/
theorem home : ∃ start, RefTable.home heap (bins.capacity.toUInt64 - 1) key hash = .ok start ∧
    start.toNat = bins.home hash identity := by
  refine ⟨hash identity &&& (bins.capacity.toUInt64 - 1), ?_, ?_⟩
  · unfold RefTable.home
    rw [known]
    rfl
  · exact toNat_and_lowMask _ stores.power_lt

include sound

/-- A probe stops at the key or at a vacant bucket. -/
theorem probeFrom {spare : Nat} (spareInside : spare < bins.capacity)
    (free : bins.buckets spare = none) (steps : Nat) {bucket : UInt64}
    (inside : bucket.toNat < bins.capacity)
    (passed : Passed bins.capacity (bins.home hash) bins.buckets identity bucket.toNat)
    (enough : Ring.distance bins.capacity (bins.home hash identity) bucket.toNat + steps =
      bins.capacity) :
    ∃ result, RefTable.probeFrom heap bins.array (bins.capacity.toUInt64 - 1) key bucket steps =
      .ok result ∧ Finds bins hash identity result := by
  induction steps generalizing bucket with
  | zero =>
      have bound := Ring.distance_lt (bins.home_lt hash identity) inside
      omega
  | succ steps ih =>
      unfold RefTable.probeFrom
      rw [stores.getKey inside]
      cases taken : bins.buckets bucket.toNat with
      | none => exact ⟨_, rfl, Finds.vacant inside taken passed⟩
      | some entry =>
          dsimp only [Option.map, bind, Except.bind]
          rw [Key.same_eq sound (stores.known inside taken) known]
          dsimp only
          by_cases same : entry.identity = identity
          · rw [decide_eq_true same, if_pos rfl]
            exact ⟨_, rfl, Finds.found inside taken same⟩
          · rw [decide_eq_false same, if_neg (by decide)]
            -- the vacant bucket lies ahead, so this bucket is not the last one
            have ahead := passed.le_spare spareInside free
            have bound := Ring.distance_lt (bins.home_lt hash identity) spareInside
            have unlike : Ring.distance bins.capacity (bins.home hash identity) bucket.toNat ≠
                Ring.distance bins.capacity (bins.home hash identity) spare := by
              rw [Ne, Ring.distance_inj inside spareInside (bins.home_lt hash identity)]
              rintro rfl
              rw [free] at taken
              cases taken
            have short : Ring.distance bins.capacity (bins.home hash identity) bucket.toNat + 1 <
                bins.capacity := by
              omega
            have farther := Ring.distance_after (bins.home_lt hash identity) short
            apply ih
            · rw [stores.toNat_next inside]
              exact Ring.after_lt inside
            · rw [stores.toNat_next inside]
              exact passed.after (bins.home_lt hash) inside taken same short
            · rw [stores.toNat_next inside, farther]
              omega

theorem probe (vacant : ∃ spare < bins.capacity, bins.buckets spare = none) :
    ∃ result, RefTable.probe heap bins.array bins.capacity.toUInt64 key hash = .ok result ∧
      Finds bins hash identity result := by
  obtain ⟨spare, spareInside, free⟩ := vacant
  obtain ⟨start, begins, position⟩ := stores.home known
  unfold RefTable.probe
  dsimp only [bind, Except.bind]
  rw [begins]
  dsimp only
  apply stores.probeFrom sound known spareInside free
  · rw [position]
    exact bins.home_lt hash identity
  · rw [position]
    exact passed_home
  · rw [position, Ring.distance_self, stores.toNat_mask, Nat.zero_add]

end

/-! ### Entering entries -/

/-- A bucket array holds the buckets where its objects are not written. -/
theorem left (stores : heap.Stores bins) (sound : heap.Sound) {altered : List Handle}
    (alters : heap.Alters next altered)
    (plain : ∀ handle ∈ altered, ∃ id, heap.classOf handle = .ok id ∧ id ∉ Key.contentClasses)
    (unaltered : ∀ handle ∈ Lists.parts bins.array (some bins.backing), handle ∉ altered) :
    next.Stores bins where
  lists := stores.lists.congr fun handle part => alters.views handle (unaltered handle part)
  keys entry member := alters.ofHandle sound plain (stores.keys entry member)

/-- A bucket array holds the buckets where only an array or a table beside it is written. -/
theorem left_of_record (stores : heap.Stores bins) (sound : heap.Sound) {written : Handle}
    (alters : heap.Alters next [written]) {descriptor : Descriptor} {first second : UInt64}
    {storage : Option Handle} (isRecord : IsRecord descriptor)
    (record : heap.Record descriptor written first second storage)
    (apart : written ∉ Lists.parts bins.array (some bins.backing)) : next.Stores bins := by
  apply stores.left sound alters
  · intro handle member
    cases List.mem_singleton.mp member
    refine ⟨_, record.classOf, ?_⟩
    rcases isRecord with rfl | rfl <;> decide
  · intro handle part member
    cases List.mem_singleton.mp member
    exact apart part

/-- A new entry enters the bucket where a probe for its key has stopped. -/
theorem enter (stores : heap.Stores bins) (sound : heap.Sound) (fit : bins.Fit hash)
    {entry : RefTable.Entry} (known : Key.ofHandle heap entry.key = .ok entry.identity)
    (live : heap.isLive entry.value = true)
    (absent : ∀ other ∈ bins.entries, other.identity ≠ entry.identity) :
    ∃ slot next, RefTable.probe heap bins.array bins.capacity.toUInt64 entry.key hash =
        .ok (.vacant slot) ∧
      (fillBucket bins.array slot (some entry.key) (some entry.value)).run heap = (.ok ⟨⟩, next) ∧
      heap.Alters next [bins.backing] ∧ next.Stores (bins.set slot.toNat (some entry)) ∧
      Probed bins.capacity (bins.home hash) (bins.set slot.toNat (some entry)).buckets none ∧
      (bins.set slot.toNat (some entry)).entries.Perm (entry :: bins.entries) := by
  obtain ⟨result, probed, finds⟩ := stores.probe sound known fit.exists_vacant
  cases finds with
  | found inside taken same =>
      exact absurd same (absent _ (Bins.mem_entries.mpr ⟨_, inside, taken⟩))
  | @vacant slot inside vacant passed =>
      obtain ⟨next, ran, alters, storesToo⟩ := stores.put sound inside known live
      exact ⟨slot, next, probed, ran, alters, storesToo,
        fit.probed.enter (bins.home_lt hash) passed inside vacant,
        listed_update inside vacant entry⟩

/-- One entry of a bucket array enters a larger one, after the entries of the buckets before it. -/
theorem reinsert {old grown : Bins} (oldStores : heap.Stores old) (stores : heap.Stores grown)
    (sound : heap.Sound) (oldProbed : Probed old.capacity (old.home hash) old.buckets none)
    (probed : Probed grown.capacity (grown.home hash) grown.buckets none)
    (larger : old.capacity < grown.capacity) {index : UInt64} (inside : index.toNat < old.capacity)
    (entered : grown.entries.Perm (listed index.toNat old.buckets)) {entry : RefTable.Entry}
    (taken : old.buckets index.toNat = some entry) :
    ∃ slot next, RefTable.probe heap grown.array grown.capacity.toUInt64 entry.key hash =
        .ok (.vacant slot) ∧
      (fillBucket grown.array slot (some entry.key) (some entry.value)).run heap = (.ok ⟨⟩, next) ∧
      heap.Alters next [grown.backing] ∧ next.Stores (grown.set slot.toNat (some entry)) ∧
      Probed grown.capacity (grown.home hash) (grown.set slot.toNat (some entry)).buckets none ∧
      (grown.set slot.toNat (some entry)).entries.Perm (listed (index.toNat + 1) old.buckets) := by
  have absent : ∀ other ∈ grown.entries, other.identity ≠ entry.identity := by
    intro other member same
    obtain ⟨position, earlier, there⟩ := mem_listed.mp (entered.mem_iff.mp member)
    have here :=
      oldProbed.distinct position index.toNat other entry (by omega) inside there taken same
    omega
  have room : grown.entries.length < grown.capacity := by
    have bound := length_listed_le index.toNat old.buckets
    rw [entered.length_eq]
    omega
  obtain ⟨slot, next, found, ran, alters, nextStores, nextProbed, entries⟩ :=
    stores.enter sound ⟨probed, room⟩ (oldStores.known inside taken)
      (oldStores.isLive inside taken).2 absent
  refine ⟨slot, next, found, ran, alters, nextStores, nextProbed, ?_⟩
  rw [listed_succ, taken, Option.toList_some]
  exact (entries.trans (entered.cons entry)).trans (List.perm_append_singleton entry _).symm

/-- The entries of a bucket array enter a larger one, in bucket order. -/
theorem reinsertFrom {table : RefTable} {old grown : Bins} (oldStores : heap.Stores old)
    (stores : heap.Stores grown) (sound : heap.Sound)
    (oldProbed : Probed old.capacity (old.home hash) old.buckets none)
    (probed : Probed grown.capacity (grown.home hash) grown.buckets none)
    (larger : old.capacity < grown.capacity)
    (apart : ∀ handle ∈ Lists.parts old.array (some old.backing), handle ≠ grown.backing)
    (count : Nat) {index : UInt64} (rest : index.toNat + count = old.capacity)
    (entered : grown.entries.Perm (listed index.toNat old.buckets)) :
    ∃ next buckets, (table.reinsertFrom old.array grown.array grown.capacity.toUInt64 index count
        hash).run heap = (.ok (), next) ∧
      heap.Alters next [grown.backing] ∧ next.Stores { grown with buckets } ∧
      Probed grown.capacity (grown.home hash) buckets none ∧
      (listed grown.capacity buckets).Perm old.entries := by
  induction count generalizing heap grown index with
  | zero =>
      refine ⟨heap, grown.buckets, rfl, (Alters.refl heap).mono (by simp), stores, probed, ?_⟩
      rw [Nat.add_zero] at rest
      rw [rest] at entered
      exact entered
  | succ count ih =>
      have inside : index.toNat < old.capacity := by omega
      have following := oldStores.toNat_succ inside
      have later : (index + 1).toNat + count = old.capacity := by omega
      unfold RefTable.reinsertFrom
      rw [HeapM.run_bind, HeapM.run_ask, oldStores.getKey inside]
      cases taken : old.buckets index.toNat with
      | none =>
          apply ih oldStores stores sound probed larger apart later
          rw [following, listed_succ, taken, Option.toList_none, List.append_nil]
          exact entered
      | some entry =>
          have value := oldStores.getValue inside
          rw [taken] at value
          dsimp only [Option.map]
          rw [HeapM.run_bind, HeapM.run_ask, value]
          dsimp only [Option.map]
          obtain ⟨slot, next, found, ran, alters, nextStores, nextProbed, nextEntries⟩ :=
            oldStores.reinsert stores sound oldProbed probed larger inside entered taken
          have unaltered : ∀ handle ∈ Lists.parts old.array (some old.backing),
              handle ∉ [grown.backing] := fun handle part member =>
            apart handle part (List.mem_singleton.mp member)
          rw [← following] at nextEntries
          obtain ⟨last, buckets, rested, altersToo, lastStores, lastProbed, lastEntries⟩ :=
            ih (oldStores.left sound alters stores.plain unaltered) nextStores (alters.sound sound)
              nextProbed larger apart later nextEntries
          refine ⟨last, buckets, ?_, (alters.trans altersToo).mono (by simp [Bins.set]), lastStores,
            lastProbed, lastEntries⟩
          rw [HeapM.run_bind, HeapM.run_ask, found]
          dsimp only
          rw [HeapM.run_bind, ran]
          exact rested

/-! ### Closing a hole -/

/-- An entry is shifted back into a hole, and the hole is where the entry was. -/
theorem shiftEntry (stores : heap.Stores bins) (sound : heap.Sound) {spare : Nat}
    {hole next : UInt64}
    (shifts : Shifts bins.capacity (bins.home hash) (Function.update bins.buckets hole.toNat none)
      hole.toNat next.toNat spare) {entry : RefTable.Entry}
    (taken : bins.buckets next.toNat = some entry)
    (moves : Ring.distance bins.capacity hole.toNat next.toNat ≤
      Ring.distance bins.capacity (bins.home hash entry.identity) next.toNat) :
    ∃ middle, (fillBucket bins.array hole (some entry.key) (some entry.value)).run heap =
        (.ok ⟨⟩, middle) ∧
      heap.Alters middle [bins.backing] ∧ middle.Stores (bins.set hole.toNat (some entry)) ∧
      Shifts bins.capacity (bins.home hash) (Function.update
        (bins.set hole.toNat (some entry)).buckets next.toNat none) next.toNat
        ((next + 1) &&& (bins.capacity.toUInt64 - 1)).toNat spare ∧
      (listed bins.capacity (Function.update (bins.set hole.toNat (some entry)).buckets next.toNat
        none)).Perm (listed bins.capacity (Function.update bins.buckets hole.toNat none)) := by
  obtain ⟨holeInside, nextInside, _⟩ := shifts.inside
  have shown : Function.update bins.buckets hole.toNat none next.toNat = some entry := by
    rw [Function.update_of_ne shifts.apart.symm, taken]
  obtain ⟨middle, ran, alters, filled⟩ := stores.put sound holeInside
    (stores.known nextInside taken) (stores.isLive nextInside taken).2
  have moved := shifts.move (bins.home_lt hash) shown moves
  rw [Function.update_idem, ← stores.toNat_next nextInside] at moved
  have shifted := listed_move nextInside holeInside shown shifts.vacant
  rw [Function.update_idem] at shifted
  exact ⟨middle, ran, alters, filled, moved, shifted⟩

/-- The entry of a bucket has its home among the buckets, and the program compares the ways from
its home and from the hole as they are on the ring. -/
theorem comparesHome (stores : heap.Stores bins) {hole next : UInt64} {entry : RefTable.Entry}
    (holeInside : hole.toNat < bins.capacity) (nextInside : next.toNat < bins.capacity)
    (taken : bins.buckets next.toNat = some entry) :
    ∃ home, RefTable.home heap (bins.capacity.toUInt64 - 1) entry.key hash = .ok home ∧
      ((next - hole) &&& (bins.capacity.toUInt64 - 1) ≤
          (next - home) &&& (bins.capacity.toUInt64 - 1) ↔
        Ring.distance bins.capacity hole.toNat next.toNat ≤
          Ring.distance bins.capacity (bins.home hash entry.identity) next.toNat) := by
  obtain ⟨home, homed, position⟩ := stores.home (stores.known nextInside taken)
  have homeInside : home.toNat < bins.capacity := by
    rw [position]
    exact bins.home_lt hash _
  have compared := stores.distance_le_iff nextInside holeInside homeInside
  rw [position] at compared
  exact ⟨home, homed, compared⟩

/-- The entries behind a hole are shifted back until the hole is closed.  The bucket where it ends
is yet to be made vacant. -/
theorem shiftBack (stores : heap.Stores bins) (sound : heap.Sound) {spare : Nat} (steps : Nat)
    {hole next : UInt64}
    (shifts : Shifts bins.capacity (bins.home hash) (Function.update bins.buckets hole.toNat none)
      hole.toNat next.toNat spare)
    (enough : Ring.distance bins.capacity next.toNat spare < steps) :
    ∃ last buckets, ∃ final : UInt64, (RefTable.shiftBack bins.array (bins.capacity.toUInt64 - 1)
        hole next steps hash).run heap = (.ok final, last) ∧
      heap.Alters last [bins.backing] ∧ last.Stores { bins with buckets } ∧
      final.toNat < bins.capacity ∧
      Probed bins.capacity (bins.home hash) (Function.update buckets final.toNat none) none ∧
      (listed bins.capacity (Function.update buckets final.toNat none)).Perm
        (listed bins.capacity (Function.update bins.buckets hole.toNat none)) := by
  induction steps generalizing heap bins hole next with
  | zero => exact absurd enough (Nat.not_lt_zero _)
  | succ steps ih =>
      obtain ⟨holeInside, nextInside, spareInside⟩ := shifts.inside
      have shown :
          Function.update bins.buckets hole.toNat none next.toNat = bins.buckets next.toNat :=
        Function.update_of_ne shifts.apart.symm none bins.buckets
      unfold RefTable.shiftBack
      rw [HeapM.run_bind, HeapM.run_ask, stores.getKey nextInside]
      cases taken : bins.buckets next.toNat with
      | none =>
          exact ⟨heap, bins.buckets, hole, rfl, (Alters.refl heap).mono (by simp), stores,
            holeInside, shifts.closed (bins.home_lt hash) (shown.trans taken), List.Perm.refl _⟩
      | some entry =>
          obtain ⟨home, homed, compared⟩ := stores.comparesHome holeInside nextInside taken
          have value := stores.getValue nextInside
          rw [taken] at value
          dsimp only [Option.map]
          rw [HeapM.run_bind, HeapM.run_ask, homed]
          dsimp only
          have following := stores.toNat_next nextInside
          have near : Ring.distance bins.capacity
              ((next + 1) &&& (bins.capacity.toUInt64 - 1)).toNat spare < steps := by
            have nearer := shifts.nearer (shown.trans taken)
            rw [following]
            omega
          by_cases moves : Ring.distance bins.capacity hole.toNat next.toNat ≤
              Ring.distance bins.capacity (bins.home hash entry.identity) next.toNat
          · rw [if_pos (compared.mpr moves), HeapM.run_bind, HeapM.run_ask, value]
            dsimp only [Option.map]
            obtain ⟨middle, ran, alters, filled, moved, shifted⟩ :=
              stores.shiftEntry sound shifts taken moves
            obtain ⟨last, buckets, final, rested, altersToo, lastStores, inside, probed, entries⟩ :=
              ih filled (alters.sound sound) moved near
            refine ⟨last, buckets, final, ?_, (alters.trans altersToo).mono (by simp [Bins.set]),
              lastStores, inside, probed, entries.trans shifted⟩
            rw [HeapM.run_bind, ran]
            exact rested
          · rw [if_neg (mt compared.mp moves)]
            have skipped := shifts.skip (shown.trans taken) (Nat.lt_of_not_le moves)
            rw [← following] at skipped
            exact ih stores sound skipped near

/-- An entry is taken out: what lies behind it is shifted back, and the bucket where the hole ends
is made vacant. -/
theorem takeOut (stores : heap.Stores bins) (sound : heap.Sound) (fit : bins.Fit hash)
    {bucket : UInt64} {entry : RefTable.Entry} (inside : bucket.toNat < bins.capacity)
    (taken : bins.buckets bucket.toNat = some entry) :
    ∃ final shifted next buckets, (RefTable.shiftBack bins.array (bins.capacity.toUInt64 - 1) bucket
        ((bucket + 1) &&& (bins.capacity.toUInt64 - 1)) ((bins.capacity.toUInt64 - 1).toNat + 1)
        hash).run heap = (.ok final, shifted) ∧
      (fillBucket bins.array final none none).run shifted = (.ok ⟨⟩, next) ∧
      heap.Alters next [bins.backing] ∧ next.Stores { bins with buckets } ∧
      Probed bins.capacity (bins.home hash) buckets none ∧
      (listed bins.capacity buckets).Perm
        (listed bins.capacity (Function.update bins.buckets bucket.toNat none)) := by
  obtain ⟨spare, spareInside, free⟩ := fit.exists_vacant
  have shifts := fit.probed.shifts inside spareInside taken free
  rw [← stores.toNat_next inside] at shifts
  have near : Ring.distance bins.capacity
      ((bucket + 1) &&& (bins.capacity.toUInt64 - 1)).toNat spare <
      (bins.capacity.toUInt64 - 1).toNat + 1 := by
    rw [stores.toNat_mask]
    exact Ring.distance_lt shifts.inside.2.1 spareInside
  obtain ⟨shifted, buckets, final, ran, alters, storesToo, finalInside, probed, perm⟩ :=
    stores.shiftBack sound _ shifts near
  obtain ⟨next, emptied, altersToo, vacated⟩ := storesToo.vacate (alters.sound sound) finalInside
  exact ⟨final, shifted, next, _, ran, emptied, (alters.trans altersToo).mono (by simp), vacated,
    probed, perm⟩

end Stores

end Heap

end CompactingHeap
