import Mathlib.Algebra.GroupWithZero.Nat
import Mathlib.Data.List.Induction
import CompactingHeap.Proofs.Layout
import CompactingHeap.Proofs.Placement

/-!
# Next-fit packing

Layouts are packed in order onto shelves.  A layout goes onto the current shelf if it fits behind
the top there, and otherwise onto the front of a shelf of its own, whose capacity is the least
multiple of the granularity that holds it.  The new shelf becomes the current one, except that a
shelf larger than the granularity goes behind the current one.  So a packing depends on nothing but
the layouts and the granularity.

Packing wastes little.  Padding is smaller than the object behind it, because no object is smaller
than its alignment; and the free tail of a shelf that is left is smaller than the object that did
not fit, padding included.
-/

namespace CompactingHeap

/-- What a packing says of a slab: how many were opened before it, its capacity, and the end of its
used part. -/
structure Shelf where
  label : Nat
  capacity : Nat
  top : Nat
deriving DecidableEq, Repr

/-- Where the objects packed so far lie, in order, and the shelves, the current one first.  The
slab of a spot is the label of its shelf. -/
structure Packing where
  spots : List Place
  shelves : List Shelf
deriving DecidableEq, Repr

namespace Packing

/-- The least multiple of the granularity that holds at least one byte and `size` bytes. -/
def slabFor (granularity size : Nat) : Nat :=
  (max size 1 + (granularity - 1)) / granularity * granularity

/-- Put an object onto the current shelf. -/
def bump (packing : Packing) (layout : Layout) (current : Shelf) (earlier : List Shelf) : Packing :=
  let offset := alignUp current.top layout.align
  { spots := packing.spots ++ [⟨current.label, offset⟩]
    shelves := { current with top := offset + layout.size } :: earlier }

/-- Put an object onto a shelf of its own. -/
def install (granularity : Nat) (packing : Packing) (layout : Layout) : Packing :=
  let fresh : Shelf :=
    { label := packing.shelves.length
      capacity := slabFor granularity layout.size
      top := layout.size }
  { spots := packing.spots ++ [⟨fresh.label, 0⟩]
    shelves :=
      match packing.shelves with
      | [] => [fresh]
      | current :: earlier =>
          if granularity < fresh.capacity then current :: fresh :: earlier
          else fresh :: current :: earlier }

/-- Put one more object where there is room for it. -/
def put (granularity : Nat) (packing : Packing) (layout : Layout) : Packing :=
  match packing.shelves with
  | [] => packing.install granularity layout
  | current :: earlier =>
      if alignUp current.top layout.align + layout.size ≤ current.capacity then
        packing.bump layout current earlier
      else packing.install granularity layout

/-- Pack objects in order. -/
def ofLayouts (granularity : Nat) (layouts : List Layout) : Packing :=
  layouts.foldl (put granularity) ⟨[], []⟩

/-- Bytes in use on the shelves, padding included. -/
def used (shelves : List Shelf) : Nat :=
  (shelves.map Shelf.top).sum

/-- Bytes of the shelves. -/
def capacities (shelves : List Shelf) : Nat :=
  (shelves.map Shelf.capacity).sum

/-- The places of the packed objects: how many shelves lie behind that of the object, and the offset
there. -/
def places (packing : Packing) : List (Nat × Nat) :=
  packing.spots.map fun spot =>
    ((packing.shelves.map Shelf.label).reverse.idxOf spot.slab, spot.offset)

/-- An object that fits behind the top of the current shelf goes there. -/
theorem put_of_fits {packing : Packing} {current : Shelf} {earlier : List Shelf}
    (shelves : packing.shelves = current :: earlier) (granularity : Nat) {layout : Layout}
    (fits : alignUp current.top layout.align + layout.size ≤ current.capacity) :
    packing.put granularity layout = packing.bump layout current earlier := by
  unfold put
  rw [shelves]
  exact if_pos fits

/-- An object that does not fit behind the top of the current shelf gets a shelf of its own. -/
theorem put_of_full {packing : Packing} (granularity : Nat) {layout : Layout}
    (full : ∀ current earlier, packing.shelves = current :: earlier →
      current.capacity < alignUp current.top layout.align + layout.size) :
    packing.put granularity layout = packing.install granularity layout := by
  unfold put
  split
  · rfl
  · next current earlier shelves =>
    exact if_neg (Nat.not_le.mpr (full current earlier shelves))

/-- A shelf of its own adds its capacity. -/
theorem capacities_install (granularity : Nat) (packing : Packing) (layout : Layout) :
    capacities (packing.install granularity layout).shelves =
      slabFor granularity layout.size + capacities packing.shelves := by
  unfold install
  dsimp only
  split
  · next none =>
    rw [none]
    rfl
  · next current earlier shelves =>
    rw [shelves]
    split <;> simp only [capacities, List.map_cons, List.sum_cons]
    omega

theorem ofLayouts_append (granularity : Nat) (layouts : List Layout) (layout : Layout) :
    ofLayouts granularity (layouts ++ [layout]) =
      (ofLayouts granularity layouts).put granularity layout :=
  List.foldl_concat _ _ _ _

/-- One more object takes no shelf away. -/
theorem capacities_le_put (granularity : Nat) (packing : Packing) (layout : Layout) :
    capacities packing.shelves ≤ capacities (packing.put granularity layout).shelves := by
  unfold put
  split
  · rw [capacities_install]
    exact Nat.le_add_left _ _
  · next current earlier shelves =>
    split
    · rw [shelves]
      exact Nat.le_refl _
    · rw [capacities_install]
      exact Nat.le_add_left _ _

/-- More objects take no less room. -/
theorem capacities_mono (granularity : Nat) {some all : List Layout} (within : some <+: all) :
    capacities (ofLayouts granularity some).shelves ≤
      capacities (ofLayouts granularity all).shelves := by
  obtain ⟨rest, rfl⟩ := within
  induction rest using List.reverseRecOn with
  | nil => rw [List.append_nil]
  | append_singleton rest layout ih =>
      rw [← List.append_assoc, ofLayouts_append]
      exact ih.trans (capacities_le_put _ _ _)

/-! ## Slabs -/

/-- A slab holds the object that it was acquired for, and less than a granule more. -/
theorem slabFor_bounds {granularity size : Nat} (granular : 0 < granularity) (positive : 0 < size) :
    size ≤ slabFor granularity size ∧ slabFor granularity size < size + granularity := by
  have whole := Nat.div_add_mod (size + (granularity - 1)) granularity
  have rest := Nat.mod_lt (size + (granularity - 1)) granular
  unfold slabFor
  rw [Nat.max_eq_left positive, Nat.mul_comm]
  omega

/-- A slab that is larger than the granularity was acquired for an object larger than that. -/
theorem lt_of_lt_slabFor {granularity size : Nat} (granular : 0 < granularity) (positive : 0 < size)
    (large : granularity < slabFor granularity size) : granularity < size := by
  by_contra small
  have one : (size + (granularity - 1)) / granularity < 2 :=
    Nat.div_lt_of_lt_mul (by omega)
  unfold slabFor at large
  rw [Nat.max_eq_left positive] at large
  have least : (size + (granularity - 1)) / granularity * granularity ≤ 1 * granularity :=
    Nat.mul_le_mul_right _ (by omega)
  omega

/-! ## The waste of a packing -/

/-- Rounding up adds less than the alignment. -/
theorem alignUp_lt {n k : Nat} (small : k < 64) : alignUp n (2 ^ k) < n + 2 ^ k := by
  have powerPos : 0 < 2 ^ k := Nat.two_pow_pos k
  have word : n.toUInt64.toNat ≤ n := by
    rw [Nat.toUInt64_eq, UInt64.toNat_ofNat']
    exact Nat.mod_le _ _
  have sum : (n.toUInt64 + ((2 ^ k : Nat).toUInt64 - 1)).toNat ≤ n + (2 ^ k - 1) := by
    rw [UInt64.toNat_add, toNat_lowMask small]
    exact (Nat.mod_le _ _).trans (by omega)
  unfold alignUp
  rw [toNat_and_not_lowMask _ small]
  have down := Nat.div_mul_le_self (n.toUInt64 + ((2 ^ k : Nat).toUInt64 - 1)).toNat (2 ^ k)
  omega

/-- A layout of a class: it takes room, and no less than its alignment, and rounding up to the
alignment adds less than that. -/
structure Tight (layout : Layout) : Prop where
  positive : 0 < layout.size
  padding : ∀ top, alignUp top layout.align < top + layout.size

theorem tight_of_laidOut {descriptor : Descriptor} {extra : Nat} {layout : Layout}
    (laidOut : Layout.of? descriptor extra = some layout) : Tight layout := by
  refine ⟨(Layout.size_bounds laidOut).1, ?_⟩
  intro top
  obtain ⟨_, content, _, _, payload, _, size⟩ := Layout.of?_eq_some laidOut
  obtain ⟨k, least, most, align⟩ := Layout.align_eq_two_pow laidOut
  have page := two_pow_le_page most
  have header := Layout.header_le_payload laidOut
  obtain ⟨_, rounded⟩ := le_alignUp_and_dvd (n := headerBytes) (k := k)
    (by simp only [headerBytes, pageBytes, wordLimit] at *; omega) (by omega)
  rw [← align, ← payload] at rounded
  have covers : layout.align ≤ layout.payload :=
    Nat.le_of_dvd (by simp only [headerBytes] at header; omega) rounded
  -- The payload consists of whole words, so it survives the rounding down.
  have words : wordBytes ∣ layout.payload := Nat.dvd_trans (Layout.word_dvd_align laidOut) rounded
  have whole : layout.payload ≤ layout.size := by
    rw [size]
    obtain ⟨count, words⟩ := words
    simp only [wordBytes] at *
    omega
  have pad := alignUp_lt (n := top) (k := k) (by omega)
  rw [align] at covers ⊢
  omega

/-- The bytes in use and the capacities of shelves that hold `total` bytes of objects, `load` of
them on the current shelf and `first` of them at its front. -/
inductive Frugal (granularity total : Nat) : List Shelf → Prop
  | empty : total = 0 → Frugal granularity total []
  | stocked {current : Shelf} {earlier : List Shelf} (load first : Nat) :
      0 < first → first ≤ load → load ≤ total →
        current.top + first ≤ 2 * load → current.capacity ≤ first + granularity →
        used earlier + 2 * load ≤ 2 * total →
        capacities earlier + 3 * load ≤ 3 * total + 2 * first →
        Frugal granularity total (current :: earlier)

/-- A frugal packing uses at most twice the bytes of the objects, and takes at most three times as
many and a granule. -/
theorem Frugal.bounds {granularity total : Nat} {shelves : List Shelf}
    (frugal : Frugal granularity total shelves) :
    used shelves ≤ 2 * total ∧ capacities shelves ≤ 3 * total + granularity := by
  cases frugal with
  | empty => simp [used, capacities]
  | stocked load first =>
      simp only [used, capacities, List.map_cons, List.sum_cons] at *
      omega

/-- Where there are no objects there are no shelves. -/
theorem Frugal.eq_nil {granularity total : Nat} {shelves : List Shelf}
    (frugal : Frugal granularity total shelves) (none : total = 0) : shelves = [] := by
  cases frugal with
  | empty => rfl
  | stocked => omega

section
variable {granularity total : Nat} (granular : 0 < granularity) {packing : Packing}
  (frugal : Frugal granularity total packing.shelves) {layout : Layout} (tight : Tight layout)
include granular frugal tight

omit granular in
/-- Putting an object onto the current shelf wastes the padding. -/
theorem Frugal.bump {current : Shelf} {earlier : List Shelf}
    (shelves : packing.shelves = current :: earlier) :
    Frugal granularity (total + layout.size) (packing.bump layout current earlier).shelves := by
  have padding := tight.padding current.top
  rw [shelves] at frugal
  cases frugal with
  | stocked load first positive within some top capacity before slabs =>
      exact Frugal.stocked (load + layout.size) first positive (by omega) (by omega)
        (by dsimp only; omega) capacity (by omega) (by omega)

/-- Putting an object onto a shelf of its own wastes the free tail of the current shelf, in which
there was no room for it, or, if the new shelf goes behind the current one, the free tail of the
new shelf, which is smaller than the object. -/
theorem Frugal.install
    (full : ∀ current earlier, packing.shelves = current :: earlier →
      current.capacity < alignUp current.top layout.align + layout.size) :
    Frugal granularity (total + layout.size) (packing.install granularity layout).shelves := by
  have positive := tight.positive
  obtain ⟨holds, small⟩ := slabFor_bounds granular positive
  unfold Packing.install
  dsimp only
  split
  · next none =>
    rw [none] at frugal
    cases frugal with
    | empty nothing =>
        exact Frugal.stocked layout.size layout.size positive (Nat.le_refl _) (by omega)
          (by dsimp only; omega) (by dsimp only; omega)
          (by simp only [used, List.map_nil, List.sum_nil]; omega)
          (by simp only [capacities, List.map_nil, List.sum_nil]; omega)
  · next current earlier shelves =>
    have lacking := full current earlier shelves
    have padding := tight.padding current.top
    rw [shelves] at frugal
    cases frugal with
    | stocked load first foremost within some top capacity before slabs =>
        simp only [used, capacities] at before slabs
        split
        · next large =>
          have larger := lt_of_lt_slabFor granular positive large
          exact Frugal.stocked load first foremost within (by omega) top capacity
            (by simp only [used, List.map_cons, List.sum_cons]; omega)
            (by simp only [capacities, List.map_cons, List.sum_cons]; omega)
        · exact Frugal.stocked layout.size layout.size positive (Nat.le_refl _) (by omega)
            (by dsimp only; omega) (by dsimp only; omega)
            (by simp only [used, List.map_cons, List.sum_cons]; omega)
            (by simp only [capacities, List.map_cons, List.sum_cons]; omega)

theorem Frugal.put :
    Frugal granularity (total + layout.size) (packing.put granularity layout).shelves := by
  by_cases fits : ∃ current earlier, packing.shelves = current :: earlier ∧
      alignUp current.top layout.align + layout.size ≤ current.capacity
  · obtain ⟨current, earlier, shelves, fits⟩ := fits
    rw [put_of_fits shelves granularity fits]
    exact frugal.bump tight shelves
  · have full : ∀ current earlier, packing.shelves = current :: earlier →
        current.capacity < alignUp current.top layout.align + layout.size := by
      intro current earlier shelves
      by_contra room
      exact fits ⟨current, earlier, shelves, Nat.not_lt.mp room⟩
    rw [put_of_full granularity full]
    exact frugal.install granular tight full

end

/-- Packing is frugal. -/
theorem frugal_ofLayouts {granularity : Nat} (granular : 0 < granularity) {layouts : List Layout}
    (tight : ∀ layout ∈ layouts, Tight layout) :
    Frugal granularity (layouts.map Layout.size).sum (ofLayouts granularity layouts).shelves := by
  induction layouts using List.reverseRecOn with
  | nil => exact Frugal.empty rfl
  | append_singleton layouts layout ih =>
      rw [ofLayouts_append, List.map_append, List.sum_append, List.map_singleton,
        List.sum_singleton]
      refine (ih ?_).put granular (tight layout ?_)
      · exact fun other member => tight other (List.mem_append_left _ member)
      · exact List.mem_append_right _ List.mem_cons_self

end Packing

end CompactingHeap
