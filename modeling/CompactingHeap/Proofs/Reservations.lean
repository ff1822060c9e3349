import Mathlib.Data.Set.BooleanAlgebra
import Mathlib.Order.CompletePartialOrder
import CompactingHeap.Proofs.Layout
import CompactingHeap.Slab.Basic

/-!
# Reservations in a slab

A slab is handed out front to back.  Whatever it has been asked for, it serves a request exactly if
the request fits behind the part that is in use, once the end of that part has been rounded up;
sizes near the end of a word make no exception.  The stretches that it has handed out are aligned
and lie one behind the other, and a request that does not fit leaves no trace.
-/

namespace CompactingHeap

namespace Slab

/-- A request for bytes at an alignment. -/
structure Request where
  size : Nat
  align : Nat

/-- A size is a machine word, and an alignment a power of two up to a page. -/
structure Request.Proper (request : Request) : Prop where
  word : request.size < wordLimit
  power : isPowerOfTwo request.align = true
  page : request.align ≤ pageBytes

/-- The answer to a request, and the slab after it. -/
def serve (slab : Slab) (request : Request) : Except HeapError Nat × Slab :=
  match slab.bump request.size request.align with
  | .ok (offset, bumped) => (.ok offset, bumped)
  | .error error => (.error error, slab)

/-- A request with its answer. -/
structure Reservation where
  request : Request
  answer : Except HeapError Nat

/-- The stretch from one offset up to another. -/
structure Stretch where
  start : Nat
  finish : Nat

/-- The bytes of a stretch. -/
def Stretch.bytes (stretch : Stretch) : Set Nat :=
  {offset | stretch.start ≤ offset ∧ offset < stretch.finish}

/-- What a reservation got. -/
def Reservation.stretch? : Reservation → Option Stretch
  | ⟨request, .ok offset⟩ => some ⟨offset, offset + request.size⟩
  | ⟨_, .error _⟩ => none

/-! A history lists the latest reservation first. -/

/-- The stretches that were handed out, the latest first. -/
def stretches (history : List Reservation) : List Stretch :=
  history.filterMap Reservation.stretch?

/-- The histories of requests to a slab, with the slab that each leaves. -/
inductive Run (fresh : Slab) : List Reservation → Slab → Prop
  | start : Run fresh [] fresh
  | served {history : List Reservation} {slab : Slab} {request : Request} :
      Run fresh history slab → request.Proper →
        Run fresh (⟨request, (slab.serve request).1⟩ :: history) (slab.serve request).2

/-! ## One request -/

/-- What becomes of a request: it gets the first aligned offset behind the used part if its bytes
fit there, and is told how many bytes remain otherwise. -/
inductive Serves (slab : Slab) (request : Request) : Except HeapError Nat × Slab → Prop
  | reserved {offset : Nat} :
      IsLeast {offset | request.align ∣ offset ∧ slab.top ≤ offset} offset →
        offset + request.size ≤ slab.capacity →
        Serves slab request (.ok offset, { slab with top := offset + request.size })
  | refused {offset : Nat} :
      IsLeast {offset | request.align ∣ offset ∧ slab.top ≤ offset} offset →
        slab.capacity < offset + request.size →
        Serves slab request (.error (.outOfSlab request.size (slab.capacity - slab.used)), slab)

/-- Rounding up the top of a slab does not wrap around. -/
theorem isLeast_alignUp_top {slab : Slab} (inside : slab.top ≤ slab.capacity)
    (small : slab.capacity < 2 ^ 63) {request : Request} (proper : request.Proper) :
    IsLeast {offset | request.align ∣ offset ∧ slab.top ≤ offset}
      (alignUp slab.top request.align) := by
  have page := proper.page
  obtain ⟨k, power⟩ := isPowerOfTwo_iff.mp proper.power
  rw [power] at page ⊢
  have exponent : k ≤ 12 := (Nat.pow_le_pow_iff_right (by decide)).mp page
  apply isLeast_alignUp _ (by omega)
  simp only [pageBytes, wordLimit] at page ⊢
  omega

theorem serves_serve {slab : Slab} (inside : slab.top ≤ slab.capacity)
    (small : slab.capacity < 2 ^ 63) {request : Request} (proper : request.Proper) :
    Serves slab request (slab.serve request) := by
  have least := isLeast_alignUp_top inside small proper
  unfold serve
  rcases bumps : slab.bump request.size request.align with error | ⟨offset, bumped⟩
  · have refused : slab.capacity < alignUp slab.top request.align + request.size := by
      by_contra fits
      have served := bump_eq_ok_iff.mpr
        ⟨rfl, by simp only [wordLimit]; omega, Nat.le_of_not_lt fits, rfl⟩
      cases bumps.symm.trans served
    have told : error = .outOfSlab request.size (slab.capacity - slab.used) := by
      unfold bump at bumps
      grind [remaining, used]
    subst told
    exact Serves.refused least refused
  · obtain ⟨rfl, _, fits, rfl⟩ := bump_eq_ok_iff.mp bumps
    exact Serves.reserved least fits

/-! ## Many requests -/

variable {fresh slab next : Slab} {history : List Reservation} {request : Request}
  {answer : Except HeapError Nat}

/-- How the stretches that were handed out lie in the slab. -/
structure Filled (fresh : Slab) (history : List Reservation) (slab : Slab) : Prop where
  same : slab = { fresh with top := slab.top }
  inside : slab.top ≤ fresh.capacity
  aligned : ∀ request offset, ⟨request, .ok offset⟩ ∈ history → request.align ∣ offset
  below : ∀ stretch ∈ stretches history, stretch.finish ≤ slab.top
  ordered : (stretches history).Pairwise fun later earlier => earlier.finish ≤ later.start
  top : slab.top = (stretches history).head?.elim 0 Stretch.finish

theorem Filled.capacity_eq (filled : Filled fresh history slab) :
    slab.capacity = fresh.capacity := by
  rw [filled.same]
  rfl

theorem filled_start (empty : fresh.top = 0) : Filled fresh [] fresh where
  same := rfl
  inside := empty ▸ Nat.zero_le _
  aligned := by simp
  below := by simp [stretches]
  ordered := List.Pairwise.nil
  top := empty

theorem Serves.eq_of_error {error : HeapError} (serves : Serves slab request (answer, next))
    (refused : answer = .error error) : next = slab := by
  cases serves with
  | reserved => cases refused
  | refused => rfl

theorem Serves.ok_of_fits (serves : Serves slab request (answer, next)) {offset : Nat}
    (least : IsLeast {offset | request.align ∣ offset ∧ slab.top ≤ offset} offset)
    (fits : offset + request.size ≤ slab.capacity) : answer = .ok offset := by
  cases serves with
  | reserved found => rw [found.unique least]
  | refused found exceeds =>
      rw [found.unique least] at exceeds
      exact absurd fits (Nat.not_le_of_lt exceeds)

/-- A served request goes behind all earlier ones, and a refused one changes nothing. -/
theorem Serves.filled (serves : Serves slab request (answer, next))
    (filled : Filled fresh history slab) : Filled fresh (⟨request, answer⟩ :: history) next := by
  cases serves with
  | @reserved offset least fits =>
      obtain ⟨⟨multiple, behind⟩, _⟩ := least
      rw [filled.capacity_eq] at fits
      refine ⟨?_, fits, ?_, ?_, ?_, rfl⟩
      · rw [filled.same]
      · rintro other start (_ | ⟨_, member⟩)
        · exact multiple
        · exact filled.aligned _ _ member
      · rintro stretch (_ | ⟨_, member⟩)
        · exact Nat.le_refl _
        · exact (filled.below _ member).trans (behind.trans (Nat.le_add_right _ _))
      · exact List.pairwise_cons.mpr
          ⟨fun earlier member => (filled.below _ member).trans behind, filled.ordered⟩
  | refused =>
      refine ⟨filled.same, filled.inside, ?_, filled.below, filled.ordered, filled.top⟩
      rintro other start (_ | ⟨_, member⟩)
      exact filled.aligned _ _ member

theorem Run.filled (run : Run fresh history slab) (empty : fresh.top = 0)
    (small : fresh.capacity < 2 ^ 63) : Filled fresh history slab := by
  induction run with
  | start => exact filled_start empty
  | served _ proper filled =>
      have capacity := filled.capacity_eq
      refine (serves_serve ?_ ?_ proper).filled filled
      · exact capacity ▸ filled.inside
      · exact capacity ▸ small

theorem Stretch.disjoint_of_le {earlier later : Stretch} (apart : earlier.finish ≤ later.start) :
    Disjoint later.bytes earlier.bytes := by
  rw [Set.disjoint_left]
  rintro offset ⟨behind, _⟩ ⟨_, before⟩
  omega

/-- What a slab that was fresh before the history has made of it. -/
structure Reserves (fresh : Slab) (history : List Reservation) (slab : Slab) : Prop where
  /-- Only the top has changed. -/
  same : slab = { fresh with top := slab.top }
  /-- A further request is served exactly if it fits. -/
  serves : ∀ request : Request, request.Proper → Serves slab request (slab.serve request)
  /-- After a refused request, one that fits is still served. -/
  recovers : ∀ request later : Request, request.Proper → later.Proper →
    ∀ error, (slab.serve request).1 = .error error →
      ∀ offset, IsLeast {offset | later.align ∣ offset ∧ slab.top ≤ offset} offset →
        offset + later.size ≤ slab.capacity → ((slab.serve request).2.serve later).1 = .ok offset
  aligned : ∀ request offset, ⟨request, .ok offset⟩ ∈ history → request.align ∣ offset
  inside : ∀ stretch ∈ stretches history, stretch.finish ≤ fresh.capacity
  ordered : (stretches history).Pairwise fun later earlier => earlier.finish ≤ later.start
  disjoint : (stretches history).Pairwise fun later earlier => Disjoint later.bytes earlier.bytes
  used : slab.used = (stretches history).head?.elim 0 Stretch.finish

/-- Whatever a slab was asked for, it has served what fits, in order and without overlaps, and goes
on doing so. -/
theorem Run.reserves (run : Run fresh history slab) (empty : fresh.top = 0)
    (small : fresh.capacity < 2 ^ 63) : Reserves fresh history slab := by
  have filled := run.filled empty small
  have capacity := filled.capacity_eq
  have serves (request : Request) (proper : request.Proper) :
      Serves slab request (slab.serve request) :=
    serves_serve (capacity ▸ filled.inside) (capacity ▸ small) proper
  refine ⟨filled.same, serves, ?_, filled.aligned, ?_, filled.ordered, ?_, filled.top⟩
  · intro request later proper laterProper error refused offset least fits
    have unchanged : (slab.serve request).2 = slab := (serves request proper).eq_of_error refused
    rw [unchanged]
    exact (serves later laterProper).ok_of_fits least fits
  · exact fun stretch member => (filled.below stretch member).trans filled.inside
  · exact filled.ordered.imp Stretch.disjoint_of_le

/-- An empty slab of one page. -/
def page : Slab :=
  ⟨0, ⟨pageBytes, 0, []⟩, 0⟩

/-- The answers of a page to requests for most of it, for more than any slab has, and for a rest. -/
def pageHistory : List Reservation :=
  [⟨⟨80, 16⟩, .ok 4016⟩, ⟨⟨2 ^ 64 - 1, 4096⟩, .error (.outOfSlab (2 ^ 64 - 1) 87)⟩,
    ⟨⟨4009, 8⟩, .ok 0⟩]

theorem run_pageHistory : Run page pageHistory { page with top := 4096 } := by
  have most : Request.Proper ⟨4009, 8⟩ := ⟨by decide, by decide, by decide⟩
  have excess : Request.Proper ⟨2 ^ 64 - 1, 4096⟩ := ⟨by decide, by decide, by decide⟩
  have rest : Request.Proper ⟨80, 16⟩ := ⟨by decide, by decide, by decide⟩
  exact ((Run.start.served most).served excess).served rest

theorem reserves_page : Reserves page pageHistory { page with top := 4096 } :=
  run_pageHistory.reserves rfl (by decide)

end Slab

end CompactingHeap
