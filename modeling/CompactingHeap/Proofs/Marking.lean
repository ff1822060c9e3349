import CompactingHeap.Heap.Marking
import CompactingHeap.Proofs.Soundness
import Mathlib.Data.Finset.Card

/-!
# What marking finds

The marking queue holds distinct addresses of objects, and an object is marked exactly if its
address is queued.  Once the references of every queued object have been followed, the queue holds
the roots and is closed under references, so it holds everything that can be reached.  The queue
never grows beyond the number of objects, which is why the steps suffice.
-/

namespace CompactingHeap

namespace Space

/-- The addresses that can be reached from the given ones through references. -/
inductive Reaches (space : Space) (roots : List Address) : Address → Prop
  | root {address : Address} : address ∈ roots → Reaches space roots address
  | step {address target : Address} {object : HeapObject} :
      Reaches space roots address → space.object? address = some object →
        target ∈ object.targets → Reaches space roots target

/-- No object of the space carries a mark. -/
def Unmarked (space : Space) : Prop :=
  ∀ address object, space.object? address = some object → object.isMarked = false

end Space

namespace Object

variable {α : Type}

@[simp]
theorem isMarked_mark (object : Object α) : object.mark.isMarked = true := by
  have flag : (object.flags ||| markedFlag) &&& markedFlag = markedFlag := by
    apply UInt32.toBitVec_inj.mp
    simp only [UInt32.toBitVec_and, UInt32.toBitVec_or]
    ext position
    simp only [BitVec.getElem_and, BitVec.getElem_or]
    cases object.flags.toBitVec[position] <;> simp
  simp only [isMarked, mark, flag]
  rfl

/-- Objects at rest are not marked. -/
theorem AtRest.isMarked {object : Object α} (rest : object.AtRest) : object.isMarked = false := by
  simp [Object.isMarked, rest.flags]

end Object

namespace Marking

/-- A state of the marking of a space: the queue holds distinct addresses of objects, and exactly
those objects are marked. -/
structure Traces (space : Space) (marking : Marking) : Prop where
  number : marking.space.number = space.number
  slabs : marking.space.slabs = space.slabs
  residents : ∀ address, marking.space.resident? address =
    if address ∈ marking.live.toList then
      (space.resident? address).map fun resident => ⟨resident.place, resident.object.mark⟩
    else space.resident? address
  distinct : marking.live.toList.Nodup
  present : ∀ address ∈ marking.live.toList, ∃ object, space.object? address = some object

theorem traces_start (space : Space) : Traces space { space, live := #[] } := by
  constructor <;> simp

/-- What an address holds while a space is being marked. -/
theorem Traces.object? {space : Space} {marking : Marking} (traces : Traces space marking)
    (address : Address) :
    marking.space.object? address =
      if address ∈ marking.live.toList then (space.object? address).map Object.mark
      else space.object? address := by
  unfold Space.object?
  rw [traces.residents]
  split
  · simp only [Option.map_map]
    rfl
  · rfl

/-- The marked objects are found in the marked space. -/
theorem Traces.present_marked {space : Space} {marking : Marking} (traces : Traces space marking) :
    ∀ address ∈ marking.live.toList, ∃ object, marking.space.object? address = some object := by
  intro address member
  obtain ⟨object, found⟩ := traces.present address member
  exact ⟨object.mark, by rw [traces.object?, if_pos member, found, Option.map_some]⟩

/-- Marking does not show in the references. -/
theorem Traces.targetsOf_eq {space : Space} {marking : Marking} (traces : Traces space marking)
    (address : Address) : targetsOf marking.space address = targetsOf space address := by
  unfold Marking.targetsOf
  rw [traces.object? address]
  by_cases queued : address ∈ marking.live.toList
  · rw [if_pos queued]
    cases space.object? address <;> rfl
  · rw [if_neg queued]

/-- An object that has not been queued may be marked and queued. -/
theorem Traces.queue {space : Space} {marking : Marking} (traces : Traces space marking)
    {address : Address} (new : address ∉ marking.live.toList)
    (present : ∃ object, space.object? address = some object) :
    Traces space
      { space := marking.space.modify address Object.mark, live := marking.live.push address } := by
  constructor
  · exact (Space.number_modify _ _ _).trans traces.number
  · exact (Space.slabs_modify _ _ _).trans traces.slabs
  · intro other
    simp only [Array.toList_push, List.mem_append, List.mem_singleton]
    by_cases same : address = other
    · subst other
      rw [Space.resident?_modify_self, traces.residents, if_neg new, if_pos (Or.inr rfl)]
    · rw [Space.resident?_modify_of_ne _ _ same, traces.residents]
      simp only [Ne.symm same, or_false]
  · rw [Array.toList_push, List.nodup_append]
    refine ⟨traces.distinct, List.nodup_singleton _, ?_⟩
    intro first firstMember second secondMember same
    rw [List.mem_singleton] at secondMember
    exact new (secondMember ▸ same ▸ firstMember)
  · intro other member
    rw [Array.toList_push, List.mem_append, List.mem_singleton] at member
    rcases member with member | rfl
    · exact traces.present other member
    · exact present

/-- What meeting an address does to the queue. -/
theorem Traces.visit {space : Space} (unmarked : space.Unmarked) {marking : Marking}
    (traces : Traces space marking) (address : Address) :
    Traces space (marking.visit address) ∧
      marking.live.toList <+: (marking.visit address).live.toList ∧
      ∀ other, other ∈ (marking.visit address).live.toList ↔
        other ∈ marking.live.toList ∨
          other = address ∧ ∃ object, space.object? address = some object := by
  have here := traces.object? address
  unfold Marking.visit
  cases found : space.object? address with
  | none =>
      rw [found] at here
      simp only [Option.map_none, ite_self] at here
      rw [here]
      exact ⟨traces, List.prefix_refl _, by simp⟩
  | some object =>
      rw [found] at here
      by_cases queued : address ∈ marking.live.toList
      · rw [if_pos queued] at here
        rw [here]
        simp only [Option.map_some, Object.isMarked_mark, if_true]
        refine ⟨traces, List.prefix_refl _, ?_⟩
        intro other
        constructor
        · exact Or.inl
        · rintro (member | ⟨rfl, _⟩)
          · exact member
          · exact queued
      · rw [if_neg queued] at here
        rw [here]
        simp only [unmarked address object found, Bool.false_eq_true, if_false,
          Array.toList_push]
        exact ⟨traces.queue queued ⟨object, found⟩, List.prefix_append _ _, by simp⟩

/-- What meeting several addresses does to the queue. -/
theorem Traces.visitAll {space : Space} (unmarked : space.Unmarked) {marking : Marking}
    (traces : Traces space marking) (addresses : List Address) :
    Traces space (marking.visitAll addresses) ∧
      marking.live.toList <+: (marking.visitAll addresses).live.toList ∧
      ∀ other, other ∈ (marking.visitAll addresses).live.toList ↔
        other ∈ marking.live.toList ∨
          other ∈ addresses ∧ ∃ object, space.object? other = some object := by
  induction addresses generalizing marking with
  | nil => exact ⟨traces, List.prefix_refl _, by simp [Marking.visitAll]⟩
  | cons address rest ih =>
      obtain ⟨visited, kept, members⟩ := traces.visit unmarked address
      obtain ⟨all, keptAll, allMembers⟩ := ih visited
      refine ⟨all, kept.trans keptAll, ?_⟩
      intro other
      refine (allMembers other).trans ?_
      rw [members, List.mem_cons]
      constructor
      · rintro ((member | ⟨rfl, present⟩) | ⟨member, present⟩)
        · exact Or.inl member
        · exact Or.inr ⟨Or.inl rfl, present⟩
        · exact Or.inr ⟨Or.inr member, present⟩
      · rintro (member | ⟨rfl | member, present⟩)
        · exact Or.inl (Or.inl member)
        · exact Or.inl (Or.inr ⟨rfl, present⟩)
        · exact Or.inr ⟨member, present⟩

/-- The queue never holds more addresses than there are objects. -/
theorem Traces.size_le {space : Space} {marking : Marking} (traces : Traces space marking) :
    marking.live.size ≤ space.residents.size := by
  have below : ∀ address ∈ marking.live.toList,
      address.space = space.number ∧ address.position < space.residents.size := by
    intro address member
    obtain ⟨object, found⟩ := traces.present address member
    exact Space.position_lt found
  have distinct : (marking.live.toList.map Address.position).Nodup := by
    apply List.Nodup.map_on _ traces.distinct
    intro first firstMember second secondMember same
    have firstBelow := below first firstMember
    have secondBelow := below second secondMember
    cases first
    cases second
    simp_all
  have inside : marking.live.toList.map Address.position ⊆ List.range space.residents.size := by
    intro position member
    rcases List.mem_map.mp member with ⟨address, queued, rfl⟩
    exact List.mem_range.mpr (below address queued).2
  have lengths := (List.subperm_of_subset distinct inside).length_le
  rwa [List.length_map, List.length_range, Array.length_toList] at lengths

/-- The references of the first `count` queued objects have been followed. -/
def Followed (space : Space) (live : List Address) (count : Nat) : Prop :=
  ∀ position address, position < count → live[position]? = some address →
    ∀ target ∈ targetsOf space address, (∃ object, space.object? target = some object) →
      target ∈ live

/-- Meeting the references of the next queued object follows it. -/
theorem Traces.followed_visitAll {space : Space} (unmarked : space.Unmarked) {marking : Marking}
    (traces : Traces space marking) {position : Nat}
    (followed : Followed space marking.live.toList position) {address : Address}
    (queued : marking.live.toList[position]? = some address) :
    Followed space (marking.visitAll (targetsOf space address)).live.toList (position + 1) := by
  obtain ⟨_, grows, members⟩ := traces.visitAll unmarked (targetsOf space address)
  intro other source below here target member present
  have inside := (List.getElem?_eq_some_iff.mp queued).1
  rw [List.prefix_iff_getElem?.mp grows other (by omega)] at here
  rcases Nat.lt_succ_iff_lt_or_eq.mp below with below | rfl
  · apply grows.subset
    apply followed other source below _ target member present
    rw [← here]
    exact List.getElem?_eq_getElem _
  · rw [← List.getElem?_eq_getElem, queued] at here
    cases here
    exact (members target).mpr (Or.inr ⟨member, present⟩)

/-- Following the queue keeps the marking consistent, drops nothing from the queue, queues only
what a closed set of addresses has, and follows every queued object if there are steps enough. -/
theorem Traces.follow {space : Space} (unmarked : space.Unmarked) {keeps : Address → Prop}
    (closed : ∀ address, keeps address → ∀ target ∈ targetsOf space address, keeps target)
    (steps position : Nat) {marking : Marking} (traces : Traces space marking)
    (kept : ∀ address ∈ marking.live.toList, keeps address)
    (followed : Followed space marking.live.toList position)
    (enough : space.residents.size ≤ steps + position) :
    Traces space (follow steps position marking) ∧
      marking.live.toList <+: (follow steps position marking).live.toList ∧
      (∀ address ∈ (follow steps position marking).live.toList, keeps address) ∧
      Followed space (follow steps position marking).live.toList
        (follow steps position marking).live.size := by
  induction steps generalizing position marking with
  | zero =>
      refine ⟨traces, List.prefix_refl _, kept, ?_⟩
      intro other address below found
      have small := traces.size_le
      apply followed other address _ found
      simp only [Marking.follow] at below
      omega
  | succ steps ih =>
      unfold Marking.follow
      cases found : marking.live[position]? with
      | none =>
          refine ⟨traces, List.prefix_refl _, kept, ?_⟩
          intro other address below here
          apply followed other address _ here
          exact Nat.lt_of_lt_of_le below (Array.getElem?_eq_none_iff.mp found)
      | some address =>
          dsimp only
          have queued : marking.live.toList[position]? = some address := by
            rwa [Array.getElem?_toList]
          rw [traces.targetsOf_eq address]
          obtain ⟨visited, grows, members⟩ :=
            traces.visitAll unmarked (targetsOf space address)
          have visitedFollowed := traces.followed_visitAll unmarked followed queued
          have visitedKept : ∀ other ∈
              (marking.visitAll (targetsOf space address)).live.toList, keeps other := by
            intro other member
            rcases (members other).mp member with member | ⟨member, _⟩
            · exact kept other member
            · exact closed address (kept address (List.mem_of_getElem? queued)) other member
          rcases ih (position + 1) visited visitedKept visitedFollowed (by omega) with
            ⟨all, later, allKept, allFollowed⟩
          exact ⟨all, grows.trans later, allKept, allFollowed⟩

/-- Marking queues exactly the addresses that can be reached, if the roots and all references lead
to objects. -/
theorem mem_live_ofRoots_iff {space : Space} (unmarked : space.Unmarked)
    (closed : ∀ address object, space.object? address = some object → ∀ target ∈ object.targets,
      ∃ other, space.object? target = some other)
    {roots : List Address} (rooted : ∀ root ∈ roots, ∃ object, space.object? root = some object) :
    Traces space (ofRoots space roots) ∧
      ∀ address, address ∈ (ofRoots space roots).live.toList ↔ space.Reaches roots address := by
  have targets : ∀ address target, target ∈ targetsOf space address ↔
      ∃ object, space.object? address = some object ∧ target ∈ object.targets := by
    intro address target
    unfold targetsOf
    cases space.object? address <;> simp
  obtain ⟨started, _, members⟩ := (traces_start space).visitAll unmarked roots
  have startKept : ∀ address ∈ (visitAll { space, live := #[] } roots).live.toList,
      space.Reaches roots address := by
    intro address member
    rcases (members address).mp member with member | ⟨member, _⟩
    · simp at member
    · exact Space.Reaches.root member
  have reachesClosed : ∀ address, space.Reaches roots address →
      ∀ target ∈ targetsOf space address, space.Reaches roots target := by
    intro address reached target member
    rcases (targets address target).mp member with ⟨object, found, member⟩
    exact Space.Reaches.step reached found member
  rcases started.follow unmarked reachesClosed space.residents.size 0 startKept
    (fun position address below => absurd below (Nat.not_lt_zero position)) (Nat.le_refl _) with
    ⟨traces, grows, sound, followed⟩
  refine ⟨traces, ?_⟩
  intro address
  constructor
  · exact sound address
  · intro reached
    induction reached with
    | root member =>
        exact grows.subset ((members _).mpr (Or.inr ⟨member, rooted _ member⟩))
    | step reached found member ih =>
        rcases List.mem_iff_getElem?.mp ih with ⟨position, here⟩
        apply followed position _ _ here _ ((targets _ _).mpr ⟨_, found, member⟩)
          (closed _ _ found _ member)
        rw [← Array.length_toList]
        exact (List.getElem?_eq_some_iff.mp here).1

end Marking

end CompactingHeap
