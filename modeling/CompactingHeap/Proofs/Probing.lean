import CompactingHeap.RefTable.Basic
import Mathlib.Logic.Function.Basic
import Mathlib.Data.List.Range
import Mathlib.Data.List.Perm.Basic

/-!
# Linear probing

The buckets of a table lie in a ring.  A key lies in its home bucket or behind it, and all buckets
from its home to where it lies are taken.  This module is about rings of buckets alone: when a
probe may stop, that an entry may be put where a probe has stopped, and that shifting entries back
after a removal closes the hole.
-/

namespace CompactingHeap

namespace RefTable

/-- What a bucket holds: a key, what counts of it, and its value. -/
structure Entry where
  identity : Key
  key : Handle
  value : Handle
deriving DecidableEq

namespace Ring

/-! ## Positions in a ring -/

/-- The position behind another one, around the end. -/
def after (capacity position : Nat) : Nat :=
  if position + 1 = capacity then 0 else position + 1

/-- The number of steps from one position to another one. -/
def distance (capacity first second : Nat) : Nat :=
  if first ≤ second then second - first else capacity + second - first

variable {capacity first second third : Nat}

theorem after_lt (inside : first < capacity) : after capacity first < capacity := by
  unfold after
  split_ifs <;> omega

theorem distance_lt (inside : first < capacity) (insideToo : second < capacity) :
    distance capacity first second < capacity := by
  unfold distance
  split_ifs <;> omega

theorem distance_self (capacity first : Nat) : distance capacity first first = 0 := by
  unfold distance
  rw [if_pos (Nat.le_refl _), Nat.sub_self]

theorem distance_eq_zero_iff (inside : first < capacity) :
    distance capacity first second = 0 ↔ first = second := by
  unfold distance
  split_ifs <;> omega

/-- Positions are told apart by their distance from any one. -/
theorem distance_inj (inside : second < capacity) (insideToo : third < capacity)
    (firstInside : first < capacity) :
    distance capacity first second = distance capacity first third ↔ second = third := by
  unfold distance
  split_ifs <;> omega

/-- A step leads one position farther, except the last one, which leads back. -/
theorem distance_after (firstInside : first < capacity)
    (short : distance capacity first second + 1 < capacity) :
    distance capacity first (after capacity second) = distance capacity first second + 1 := by
  unfold distance after at *
  split_ifs at * <;> omega

theorem distance_from_after (inside : first < capacity) (insideToo : second < capacity)
    (different : first ≠ second) :
    distance capacity (after capacity first) second + 1 = distance capacity first second := by
  unfold distance after
  split_ifs <;> omega

/-- Two ways, one after the other, go around the ring once at most. -/
theorem distance_around (firstInside : first < capacity) (inside : second < capacity) :
    distance capacity first second + distance capacity second third =
        distance capacity first third ∨
      distance capacity first second + distance capacity second third =
        distance capacity first third + capacity := by
  unfold distance
  split_ifs <;> omega

/-- What lies behind the second position, seen from the first, is reached through it. -/
theorem distance_add (firstInside : first < capacity) (inside : second < capacity)
    (insideToo : third < capacity)
    (between : distance capacity first second ≤ distance capacity first third) :
    distance capacity first second + distance capacity second third =
      distance capacity first third := by
  have short := distance_lt inside insideToo
  rcases distance_around firstInside inside with direct | around
  · exact direct
  · omega

/-- A position that is nearer to the third one than the first is lies on the way. -/
theorem distance_add_of_near (firstInside : first < capacity) (inside : second < capacity)
    (near : distance capacity second third ≤ distance capacity first third) :
    distance capacity first second + distance capacity second third =
      distance capacity first third := by
  have short := distance_lt firstInside inside
  rcases distance_around firstInside inside with direct | around
  · exact direct
  · omega

end Ring

open CompactingHeap.RefTable.Ring

/-! ## Entries in bucket order -/

/-- The entries of the first buckets, in bucket order. -/
def listed (capacity : Nat) (buckets : Nat → Option Entry) : List Entry :=
  (List.range capacity).filterMap buckets

section

variable {capacity position : Nat} {buckets : Nat → Option Entry} {entry : Entry}

theorem mem_listed :
    entry ∈ listed capacity buckets ↔ ∃ index < capacity, buckets index = some entry := by
  simp [listed, List.mem_filterMap]

theorem listed_succ (capacity : Nat) (buckets : Nat → Option Entry) :
    listed (capacity + 1) buckets = listed capacity buckets ++ (buckets capacity).toList := by
  unfold listed
  rw [List.range_succ, List.filterMap_append]
  cases filled : buckets capacity <;> simp [filled]

/-- Buckets behind the capacity do not count. -/
theorem listed_update_outside (outside : capacity ≤ position) (bucket : Option Entry) :
    listed capacity (Function.update buckets position bucket) = listed capacity buckets := by
  unfold listed
  apply List.filterMap_congr
  intro index inside
  rw [Function.update_of_ne]
  have := List.mem_range.mp inside
  omega

/-- An entry that comes into a vacant bucket comes to the others. -/
theorem listed_update (inside : position < capacity) (vacant : buckets position = none)
    (entry : Entry) :
    (listed capacity (Function.update buckets position (some entry))).Perm
      (entry :: listed capacity buckets) := by
  induction capacity with
  | zero => exact absurd inside (Nat.not_lt_zero _)
  | succ capacity ih =>
      rw [listed_succ, listed_succ]
      rcases Nat.lt_succ_iff_lt_or_eq.mp inside with before | rfl
      · rw [Function.update_of_ne (by omega)]
        exact (ih before).append_right _
      · rw [listed_update_outside (Nat.le_refl _), Function.update_self, vacant]
        simp

/-- An entry that is taken from its bucket is taken from the others. -/
theorem listed_update_none (inside : position < capacity) (taken : buckets position = some entry) :
    (listed capacity buckets).Perm
      (entry :: listed capacity (Function.update buckets position none)) := by
  have back := listed_update inside (Function.update_self position none buckets) entry
  rwa [Function.update_idem, ← taken, Function.update_eq_self] at back

/-- Moving an entry changes only the order. -/
theorem listed_move {other : Nat} (inside : position < capacity) (otherInside : other < capacity)
    (taken : buckets position = some entry) (vacant : buckets other = none) :
    (listed capacity
      (Function.update (Function.update buckets other (some entry)) position none)).Perm
      (listed capacity buckets) := by
  have apart : other ≠ position := by
    rintro rfl
    rw [vacant] at taken
    cases taken
  rw [Function.update_comm apart]
  have still : Function.update buckets position none other = none := by
    rw [Function.update_of_ne apart]
    exact vacant
  exact (listed_update otherInside still entry).trans (listed_update_none inside taken).symm

/-- If there are fewer entries than buckets, then a bucket is vacant. -/
theorem exists_vacant (few : (listed capacity buckets).length < capacity) :
    ∃ position < capacity, buckets position = none := by
  induction capacity with
  | zero => exact absurd few (Nat.not_lt_zero _)
  | succ capacity ih =>
      cases last : buckets capacity with
      | none => exact ⟨capacity, Nat.lt_succ_self _, last⟩
      | some entry =>
          rw [listed_succ, last, List.length_append] at few
          obtain ⟨position, inside, vacant⟩ := ih (Nat.lt_of_succ_lt_succ few)
          exact ⟨position, Nat.lt_succ_of_lt inside, vacant⟩

theorem length_listed_le (capacity : Nat) (buckets : Nat → Option Entry) :
    (listed capacity buckets).length ≤ capacity := by
  have bound := List.length_filterMap_le buckets (List.range capacity)
  rwa [List.length_range] at bound

end

/-! ## Looking keys up -/

/-- The key and the value that are listed for what counts of a key. -/
def lookup (entries : List Entry) (identity : Key) : Option (Handle × Handle) :=
  (entries.find? fun entry => entry.identity = identity).map fun entry => (entry.key, entry.value)

section

variable {entries others : List Entry} {entry : Entry} {identity : Key} {key value : Handle}

theorem lookup_cons (entry : Entry) (entries : List Entry) :
    lookup (entry :: entries) =
      Function.update (lookup entries) entry.identity (some (entry.key, entry.value)) := by
  funext identity
  unfold lookup
  by_cases same : entry.identity = identity
  · subst same
    rw [List.find?_cons_of_pos (by simp), Function.update_self]
    rfl
  · rw [List.find?_cons_of_neg (by simpa using same), Function.update_of_ne (Ne.symm same)]

theorem lookup_eq_none_iff :
    lookup entries identity = none ↔ ∀ entry ∈ entries, entry.identity ≠ identity := by
  unfold lookup
  rw [Option.map_eq_none_iff, List.find?_eq_none]
  simp

/-- What is listed once is found. -/
theorem lookup_eq_some_iff (distinct : (entries.map Entry.identity).Nodup) :
    lookup entries identity = some (key, value) ↔ ⟨identity, key, value⟩ ∈ entries := by
  induction entries with
  | nil => simp [lookup]
  | cons entry entries ih =>
      rw [List.map_cons, List.nodup_cons] at distinct
      rw [lookup_cons, List.mem_cons]
      rcases entry with ⟨first, firstKey, firstValue⟩
      dsimp only
      by_cases same : identity = first
      · subst same
        have absent : (⟨identity, key, value⟩ : Entry) ∉ entries := fun member =>
          distinct.1 (List.mem_map.mpr ⟨_, member, rfl⟩)
        rw [Function.update_self]
        constructor
        · intro found
          cases found
          exact Or.inl rfl
        · rintro (here | there)
          · cases here
            rfl
          · exact absurd there absent
      · rw [Function.update_of_ne same, ih distinct.2]
        constructor
        · exact Or.inr
        · rintro (here | there)
          · cases here
            exact absurd rfl same
          · exact there

/-- The order of the entries does not matter. -/
theorem lookup_perm (distinct : (entries.map Entry.identity).Nodup) (perm : entries.Perm others) :
    lookup entries = lookup others := by
  have distinctToo : (others.map Entry.identity).Nodup :=
    (perm.map Entry.identity).nodup_iff.mp distinct
  funext identity
  apply Option.ext
  rintro ⟨key, value⟩
  rw [lookup_eq_some_iff distinct, lookup_eq_some_iff distinctToo, perm.mem_iff]

/-- What is taken from the entries is not found any longer. -/
theorem lookup_taken (distinct : (entries.map Entry.identity).Nodup)
    (perm : entries.Perm (entry :: others)) :
    lookup others = Function.update (lookup entries) entry.identity none := by
  have split := (perm.map Entry.identity).nodup_iff.mp distinct
  rw [List.map_cons, List.nodup_cons] at split
  have absent : lookup others entry.identity = none := by
    rw [lookup_eq_none_iff]
    intro other member same
    exact split.1 (List.mem_map.mpr ⟨other, member, same⟩)
  rw [lookup_perm distinct perm, lookup_cons, Function.update_idem, ← absent,
    Function.update_eq_self]

end

/-! ## Buckets that a probe can find -/

/-- No key has two buckets, and the buckets from the home of a key to the key are taken, apart from
the hole if there is one. -/
structure Probed (capacity : Nat) (home : Key → Nat) (buckets : Nat → Option Entry)
    (hole : Option Nat) : Prop where
  distinct : ∀ index other entry same, index < capacity → other < capacity →
    buckets index = some entry → buckets other = some same → entry.identity = same.identity →
      index = other
  reached : ∀ index entry other, index < capacity → other < capacity →
    buckets index = some entry →
    distance capacity (home entry.identity) other < distance capacity (home entry.identity) index →
      buckets other = none → hole = some other

/-- The buckets from the home of a key up to a position have other keys. -/
def Passed (capacity : Nat) (home : Key → Nat) (buckets : Nat → Option Entry) (identity : Key)
    (position : Nat) : Prop :=
  ∀ index < capacity,
    distance capacity (home identity) index < distance capacity (home identity) position →
      ∃ entry, buckets index = some entry ∧ entry.identity ≠ identity

section

variable {capacity position spare : Nat} {home : Key → Nat} {buckets : Nat → Option Entry}
  {entry : Entry} {identity : Key}

/-- Where there is nothing, a probe finds nothing. -/
theorem probed_vacant (capacity : Nat) (home : Key → Nat) :
    Probed capacity home (fun _ => none) none where
  distinct _ _ _ _ _ _ found := by cases found
  reached _ _ _ _ _ found := by cases found

theorem passed_home : Passed capacity home buckets identity (home identity) := by
  intro index _ before
  rw [distance_self] at before
  cases before

section

variable (within : ∀ identity, home identity < capacity)

include within

omit within in
/-- A probe does not pass a vacant bucket. -/
theorem Passed.le_spare (passed : Passed capacity home buckets identity position)
    (inside : spare < capacity) (vacant : buckets spare = none) :
    distance capacity (home identity) position ≤ distance capacity (home identity) spare := by
  apply Nat.le_of_not_lt
  intro before
  obtain ⟨entry, taken, _⟩ := passed spare inside before
  rw [vacant] at taken
  cases taken

/-- A probe goes on behind the bucket of another key. -/
theorem Passed.after (passed : Passed capacity home buckets identity position)
    (inside : position < capacity) (taken : buckets position = some entry)
    (other : entry.identity ≠ identity)
    (short : distance capacity (home identity) position + 1 < capacity) :
    Passed capacity home buckets identity (after capacity position) := by
  intro index indexInside before
  rw [distance_after (within identity) short] at before
  rcases Nat.lt_succ_iff_lt_or_eq.mp before with earlier | same
  · exact passed index indexInside earlier
  · cases (distance_inj indexInside inside (within identity)).mp same
    exact ⟨entry, taken, other⟩

/-- A key that a probe has not found before a vacant bucket is nowhere. -/
theorem Passed.absent (passed : Passed capacity home buckets identity position)
    (probed : Probed capacity home buckets none) (inside : position < capacity)
    (vacant : buckets position = none) {index : Nat} (indexInside : index < capacity)
    (taken : buckets index = some entry) : entry.identity ≠ identity := by
  rintro rfl
  rcases Nat.lt_trichotomy (distance capacity (home entry.identity) index)
    (distance capacity (home entry.identity) position) with before | same | behind
  · obtain ⟨other, takenToo, different⟩ := passed index indexInside before
    rw [taken] at takenToo
    cases takenToo
    exact different rfl
  · cases (distance_inj indexInside inside (within entry.identity)).mp same
    rw [vacant] at taken
    cases taken
  · cases probed.reached index entry position indexInside inside taken behind vacant

/-- A new key may be put where a probe for it has stopped. -/
theorem Probed.enter (probed : Probed capacity home buckets none)
    (passed : Passed capacity home buckets entry.identity position) (inside : position < capacity)
    (vacant : buckets position = none) :
    Probed capacity home (Function.update buckets position (some entry)) none := by
  have absent : ∀ index other, index < capacity → buckets index = some other →
      other.identity ≠ entry.identity := fun index other indexInside taken =>
    passed.absent within probed inside vacant indexInside taken
  constructor
  · intro index other first second indexInside otherInside found foundToo same
    by_cases here : index = position
    · by_cases hereToo : other = position
      · exact here.trans hereToo.symm
      · subst here
        rw [Function.update_self] at found
        cases found
        rw [Function.update_of_ne hereToo] at foundToo
        exact absurd same.symm (absent other second otherInside foundToo)
    · rw [Function.update_of_ne here] at found
      by_cases hereToo : other = position
      · subst hereToo
        rw [Function.update_self] at foundToo
        cases foundToo
        exact absurd same (absent index first indexInside found)
      · rw [Function.update_of_ne hereToo] at foundToo
        exact probed.distinct index other first second indexInside otherInside found foundToo same
  · intro index first other indexInside otherInside found before missing
    have unlike : other ≠ position := by
      rintro rfl
      rw [Function.update_self] at missing
      cases missing
    rw [Function.update_of_ne unlike] at missing
    by_cases here : index = position
    · subst here
      rw [Function.update_self] at found
      cases found
      obtain ⟨passing, taken, _⟩ := passed other otherInside before
      rw [missing] at taken
      cases taken
    · rw [Function.update_of_ne here] at found
      exact probed.reached index first other indexInside otherInside found before missing

end

/-- The value of a key may be replaced. -/
theorem Probed.replace (probed : Probed capacity home buckets none)
    (taken : buckets position = some entry) {other : Entry}
    (same : other.identity = entry.identity) :
    Probed capacity home (Function.update buckets position (some other)) none := by
  have before : ∀ index found, Function.update buckets position (some other) index = some found →
      ∃ old, buckets index = some old ∧ old.identity = found.identity := by
    intro index found shown
    by_cases here : index = position
    · subst here
      rw [Function.update_self] at shown
      cases shown
      exact ⟨entry, taken, same.symm⟩
    · rw [Function.update_of_ne here] at shown
      exact ⟨found, shown, rfl⟩
  constructor
  · intro index next first second inside insideToo found foundToo alike
    obtain ⟨old, there, sameFirst⟩ := before index first found
    obtain ⟨oldToo, thereToo, sameSecond⟩ := before next second foundToo
    exact probed.distinct index next old oldToo inside insideToo there thereToo
      (sameFirst.trans (alike.trans sameSecond.symm))
  · intro index first next inside insideToo found earlier missing
    obtain ⟨old, there, sameFirst⟩ := before index first found
    rw [← sameFirst] at earlier
    apply probed.reached index old next inside insideToo there earlier
    by_cases here : next = position
    · subst here
      rw [Function.update_self] at missing
      cases missing
    · rwa [Function.update_of_ne here] at missing

/-- The identities of the entries are distinct. -/
theorem Probed.nodup {hole : Option Nat} (probed : Probed capacity home buckets hole) :
    ((listed capacity buckets).map Entry.identity).Nodup := by
  unfold listed
  rw [List.map_filterMap]
  apply List.pairwise_filterMap.mpr
  apply (List.nodup_range (n := capacity)).imp_of_mem
  intro index other inside insideToo different identity found same foundToo alike
  obtain ⟨entry, taken, rfl⟩ := Option.map_eq_some_iff.mp found
  obtain ⟨entryToo, takenToo, rfl⟩ := Option.map_eq_some_iff.mp foundToo
  exact different (probed.distinct index other entry entryToo (List.mem_range.mp inside)
    (List.mem_range.mp insideToo) taken takenToo alike)

end

/-! ## Closing a hole -/

/-- A hole is on its way through the ring: what lies between the hole and the next position to look
at does not miss it, and there is a spare bucket at the next position or behind it. -/
structure Shifts (capacity : Nat) (home : Key → Nat) (buckets : Nat → Option Entry)
    (hole next spare : Nat) : Prop where
  probed : Probed capacity home buckets (some hole)
  inside : hole < capacity ∧ next < capacity ∧ spare < capacity
  vacant : buckets hole = none
  free : buckets spare = none
  other : spare ≠ hole
  apart : hole ≠ next
  ahead : distance capacity hole next ≤ distance capacity hole spare
  settled : ∀ index entry, index < capacity → buckets index = some entry →
    distance capacity hole index < distance capacity hole next →
      distance capacity (home entry.identity) index < distance capacity hole index

section

variable {capacity hole next spare : Nat} {home : Key → Nat} {buckets : Nat → Option Entry}
  {entry : Entry}

/-- The way of a hole begins at the position after it. -/
theorem Probed.shifts_after (probed : Probed capacity home buckets (some hole))
    (inside : hole < capacity) (spareInside : spare < capacity) (vacant : buckets hole = none)
    (free : buckets spare = none) (other : spare ≠ hole) :
    Shifts capacity home buckets hole (after capacity hole) spare := by
  have room : 1 < capacity := by omega
  have step : distance capacity hole (after capacity hole) = 1 := by
    rw [distance_after inside (by rw [distance_self]; exact room), distance_self]
  refine ⟨probed, ⟨inside, after_lt inside, spareInside⟩, vacant, free, other, ?_, ?_, ?_⟩
  · intro same
    rw [← same, distance_self] at step
    cases step
  · rw [step]
    apply Nat.pos_of_ne_zero
    intro zero
    exact other ((distance_eq_zero_iff inside).mp zero).symm
  · intro index found _ shown near
    rw [step] at near
    have here := (distance_eq_zero_iff inside).mp (Nat.lt_one_iff.mp near)
    rw [← here, vacant] at shown
    cases shown

/-- Taking an entry out leaves a hole. -/
theorem Probed.shifts (probed : Probed capacity home buckets none) (inside : hole < capacity)
    (spareInside : spare < capacity) (taken : buckets hole = some entry)
    (free : buckets spare = none) :
    Shifts capacity home (Function.update buckets hole none) hole (after capacity hole) spare := by
  have other : spare ≠ hole := by
    rintro rfl
    rw [free] at taken
    cases taken
  have before : ∀ index found, Function.update buckets hole none index = some found →
      buckets index = some found := by
    intro index found shown
    by_cases here : index = hole
    · subst here
      rw [Function.update_self] at shown
      cases shown
    · rwa [Function.update_of_ne here] at shown
  apply Probed.shifts_after _ inside spareInside (Function.update_self ..) _ other
  · constructor
    · intro index next first second indexInside nextInside found foundToo
      exact probed.distinct index next first second indexInside nextInside (before _ _ found)
        (before _ _ foundToo)
    · intro index first next indexInside nextInside found earlier missing
      by_cases here : next = hole
      · exact congrArg some here.symm
      · rw [Function.update_of_ne here] at missing
        cases probed.reached index first next indexInside nextInside (before _ _ found) earlier
          missing
  · rw [Function.update_of_ne other]
    exact free

section

variable (within : ∀ identity, home identity < capacity)
  (shifts : Shifts capacity home buckets hole next spare) (taken : buckets next = some entry)

include shifts taken

theorem Shifts.next_ne_spare : next ≠ spare := by
  rintro rfl
  have free := shifts.free
  rw [taken] at free
  cases free

/-- The spare bucket comes nearer. -/
theorem Shifts.nearer :
    distance capacity (after capacity next) spare + 1 = distance capacity next spare :=
  distance_from_after shifts.inside.2.1 shifts.inside.2.2 (shifts.next_ne_spare taken)

/-- An entry that may not lie before the hole stays where it is. -/
theorem Shifts.skip
    (stays : distance capacity (home entry.identity) next < distance capacity hole next) :
    Shifts capacity home buckets hole (after capacity next) spare := by
  obtain ⟨holeInside, nextInside, spareInside⟩ := shifts.inside
  have far : distance capacity hole next < distance capacity hole spare := by
    apply Nat.lt_of_le_of_ne shifts.ahead
    intro same
    exact shifts.next_ne_spare taken ((distance_inj nextInside spareInside holeInside).mp same)
  have bound := distance_lt holeInside spareInside
  have step : distance capacity hole (after capacity next) = distance capacity hole next + 1 :=
    distance_after holeInside (by omega)
  constructor
  · exact shifts.probed
  · exact ⟨holeInside, after_lt nextInside, spareInside⟩
  · exact shifts.vacant
  · exact shifts.free
  · exact shifts.other
  · intro same
    rw [← same, distance_self] at step
    cases step
  · rw [step]
    exact far
  · intro index found indexInside shown near
    rw [step] at near
    rcases Nat.lt_succ_iff_lt_or_eq.mp near with before | same
    · exact shifts.settled index found indexInside shown before
    · cases (distance_inj indexInside nextInside holeInside).mp same
      rw [taken] at shown
      cases shown
      exact stays

include within

omit within shifts taken in
/-- Where the entries have been before one of them moved into a hole. -/
theorem shown_of_moved {index : Nat} {found : Entry}
    (shown : Function.update (Function.update buckets hole (some entry)) next none index =
      some found) :
    index = hole ∧ found = entry ∨ index ≠ hole ∧ index ≠ next ∧ buckets index = some found := by
  by_cases here : index = next
  · subst here
    rw [Function.update_self] at shown
    cases shown
  · rw [Function.update_of_ne here] at shown
    by_cases hereToo : index = hole
    · subst hereToo
      rw [Function.update_self] at shown
      cases shown
      exact Or.inl ⟨rfl, rfl⟩
    · rw [Function.update_of_ne hereToo] at shown
      exact Or.inr ⟨hereToo, here, shown⟩

omit within in
/-- Moving an entry into the hole does not make keys equal. -/
theorem Shifts.distinct_moved : ∀ index other first second, index < capacity → other < capacity →
    Function.update (Function.update buckets hole (some entry)) next none index = some first →
    Function.update (Function.update buckets hole (some entry)) next none other = some second →
    first.identity = second.identity → index = other := by
  intro index other first second indexInside otherInside found foundToo same
  have distinct := shifts.probed.distinct
  have nextInside := shifts.inside.2.1
  rcases shown_of_moved found with ⟨rfl, rfl⟩ | ⟨_, elsewhere, there⟩
  · rcases shown_of_moved foundToo with ⟨rfl, rfl⟩ | ⟨_, elsewhereToo, thereToo⟩
    · rfl
    · exact absurd
        (distinct next other first second nextInside otherInside taken thereToo same).symm
        elsewhereToo
  · rcases shown_of_moved foundToo with ⟨rfl, rfl⟩ | ⟨_, _, thereToo⟩
    · exact absurd
        (distinct index next first second indexInside nextInside there taken same) elsewhere
    · exact distinct index other first second indexInside otherInside there thereToo same

/-- An entry that may lie in the hole moves there, and leaves a hole where it was. -/
theorem Shifts.move
    (moves : distance capacity hole next ≤ distance capacity (home entry.identity) next) :
    Shifts capacity home
      (Function.update (Function.update buckets hole (some entry)) next none) next
      (after capacity next) spare := by
  obtain ⟨holeInside, nextInside, spareInside⟩ := shifts.inside
  have probed := shifts.probed
  have unspared := shifts.next_ne_spare taken
  -- the hole lies on the way from the home of the entry to the entry
  have onTheWay : distance capacity (home entry.identity) hole + distance capacity hole next =
      distance capacity (home entry.identity) next :=
    distance_add_of_near (within entry.identity) holeInside moves
  apply Probed.shifts_after ⟨shifts.distinct_moved taken, ?_⟩ nextInside spareInside
    (Function.update_self ..) _ unspared.symm
  · intro index first other indexInside otherInside found earlier missing
    by_cases here : other = next
    · exact congrArg some here.symm
    · rw [Function.update_of_ne here] at missing
      have unholed : other ≠ hole := by
        rintro rfl
        rw [Function.update_self] at missing
        cases missing
      rw [Function.update_of_ne unholed] at missing
      rcases shown_of_moved found with ⟨rfl, rfl⟩ | ⟨_, _, there⟩
      · cases probed.reached next first other nextInside otherInside taken (by omega) missing
        exact absurd rfl unholed
      · cases probed.reached index first other indexInside otherInside there earlier missing
        exact absurd rfl unholed
  · rw [Function.update_of_ne unspared.symm, Function.update_of_ne shifts.other]
    exact shifts.free

omit taken in
/-- At a vacant bucket the hole is none any longer. -/
theorem Shifts.closed (stops : buckets next = none) :
    Probed capacity home buckets none := by
  obtain ⟨holeInside, nextInside, _⟩ := shifts.inside
  constructor
  · exact shifts.probed.distinct
  · intro index first other indexInside otherInside found earlier missing
    cases shifts.probed.reached index first other indexInside otherInside found earlier missing
    have homeInside := within first.identity
    rcases Nat.lt_or_ge (distance capacity hole index) (distance capacity hole next) with near | far
    · -- what lies before the next position has its home behind the hole
      have settled := shifts.settled index first indexInside found near
      have through := distance_add homeInside holeInside indexInside (Nat.le_of_lt earlier)
      omega
    · -- what lies behind it would have the next position on its way
      have through := distance_add homeInside holeInside indexInside (Nat.le_of_lt earlier)
      have throughToo := distance_add holeInside nextInside indexInside far
      have short : distance capacity next index ≠ 0 := by
        rw [Ne, distance_eq_zero_iff nextInside]
        rintro rfl
        rw [stops] at found
        cases found
      have way : distance capacity (home first.identity) next <
          distance capacity (home first.identity) index := by
        have inside := distance_lt homeInside indexInside
        rcases @distance_around _ _ _ next homeInside holeInside with direct | around <;> omega
      have passes := shifts.probed.reached index first next indexInside nextInside found way stops
      exact absurd (Option.some.inj passes) shifts.apart

end

end

end RefTable

end CompactingHeap
