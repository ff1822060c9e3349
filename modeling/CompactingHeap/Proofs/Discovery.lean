import CompactingHeap.Proofs.Marking

/-!
# Breadth-first discovery

A breadth-first search takes nodes from the front of a queue, skips those seen before, and appends
the successors of the others to the queue.  Marking does the same with a single list, which is the
result and the queue at once, and marks nodes when they join it.  Both discover the same nodes in
the same order.
-/

namespace CompactingHeap

/-- What a breadth-first search discovers, in order, from a queue on, when some nodes have been seen
before. -/
inductive Discovers {α : Type} (successors : α → List α) : List α → List α → List α → Prop
  | done (seen : List α) : Discovers successors seen [] []
  | skip {seen rest order : List α} {node : α} :
      node ∈ seen → Discovers successors seen rest order →
        Discovers successors seen (node :: rest) order
  | next {seen rest order : List α} {node : α} :
      node ∉ seen → Discovers successors (seen ++ [node]) (rest ++ successors node) order →
        Discovers successors seen (node :: rest) (node :: order)

section
variable {α β : Type} {successors : α → List α} {seen queue order : List α}

/-- A search discovers nodes in one order only. -/
theorem Discovers.unique (search : Discovers successors seen queue order) {other : List α}
    (again : Discovers successors seen queue other) : other = order := by
  induction search generalizing other with
  | done seen =>
      cases again
      rfl
  | skip member _ ih =>
      cases again with
      | skip _ rest => exact ih rest
      | next new _ => exact absurd member new
  | next new _ ih =>
      cases again with
      | skip member _ => exact absurd member new
      | next _ rest => rw [ih rest]

/-- A node that has been seen, or stands further in front of the queue, may stand in the queue once
more. -/
theorem Discovers.insert {first second : List α} {node : α}
    (search : Discovers successors seen (first ++ second) order)
    (known : node ∈ seen ∨ node ∈ first) :
    Discovers successors seen (first ++ node :: second) order := by
  generalize whole : first ++ second = queue at search
  induction search generalizing first second with
  | done seen =>
      obtain ⟨rfl, rfl⟩ := List.append_eq_nil_iff.mp whole
      exact Discovers.skip (known.resolve_right List.not_mem_nil) (Discovers.done seen)
  | @skip seen rest order front member later ih =>
      cases first with
      | nil =>
          rw [List.nil_append] at whole
          subst whole
          exact Discovers.skip (known.resolve_right List.not_mem_nil)
            (Discovers.skip member later)
      | cons head tail =>
          cases whole
          refine Discovers.skip member (ih ?_ rfl)
          rcases known with known | known
          · exact Or.inl known
          · rcases List.mem_cons.mp known with rfl | known
            · exact Or.inl member
            · exact Or.inr known
  | @next seen rest order front new later ih =>
      cases first with
      | nil =>
          rw [List.nil_append] at whole
          subst whole
          exact Discovers.skip (known.resolve_right List.not_mem_nil) (Discovers.next new later)
      | cons head tail =>
          cases whole
          refine Discovers.next new ?_
          rw [show tail.append (node :: second) ++ successors front =
            tail ++ node :: (second ++ successors front) from List.append_assoc _ _ _]
          refine ih ?_ (List.append_assoc _ _ _).symm
          rcases known with known | known
          · exact Or.inl (List.mem_append_left _ known)
          · rcases List.mem_cons.mp known with rfl | known
            · exact Or.inl (List.mem_append_right _ List.mem_cons_self)
            · exact Or.inr known

/-- A search takes its course under other names as well, if no two nodes that it may meet get the
same name. -/
theorem Discovers.rename (search : Discovers successors seen queue order) (meets : α → Prop)
    {renamed : β → List β} {name : α → β}
    (closed : ∀ node, meets node → ∀ target ∈ successors node, meets target)
    (distinct : ∀ first second, meets first → meets second → name first = name second →
      first = second)
    (same : ∀ node, meets node → renamed (name node) = (successors node).map name)
    (before : ∀ node ∈ seen, meets node) (queued : ∀ node ∈ queue, meets node) :
    Discovers renamed (seen.map name) (queue.map name) (order.map name) := by
  induction search with
  | done seen => exact Discovers.done _
  | @skip seen rest order node member _ ih =>
      refine Discovers.skip (List.mem_map_of_mem member) (ih before ?_)
      exact fun other member => queued other (List.mem_cons_of_mem node member)
  | @next seen rest order node new _ ih =>
      have met : meets node := queued node List.mem_cons_self
      refine Discovers.next ?_ ?_
      · intro member
        obtain ⟨other, earlier, equal⟩ := List.mem_map.mp member
        rw [distinct other node (before other earlier) met equal] at earlier
        exact new earlier
      · rw [same node met, ← List.map_singleton, ← List.map_append, ← List.map_append]
        apply ih
        · intro other member
          rcases List.mem_append.mp member with member | member
          · exact before other member
          · rw [List.mem_singleton.mp member]
            exact met
        · intro other member
          rcases List.mem_append.mp member with member | member
          · exact queued other (List.mem_cons_of_mem node member)
          · exact closed node met other member

end

/-! ## A single list as the result and the queue -/

section
variable {α : Type} [DecidableEq α]

/-- The nodes that join a list when several nodes are met in order: those not in it yet. -/
def joining (list : List α) : List α → List α
  | [] => []
  | node :: rest => if node ∈ list then joining list rest else node :: joining (list ++ [node]) rest

/-- It does not matter whether all nodes are appended to a queue, or only those neither seen nor
queued before. -/
theorem Discovers.of_joining {successors : α → List α} {seen queue nodes order : List α}
    (search : Discovers successors seen (queue ++ joining (seen ++ queue) nodes) order) :
    Discovers successors seen (queue ++ nodes) order := by
  induction nodes generalizing queue with
  | nil => exact search
  | cons node rest ih =>
      unfold joining at search
      split at search
      · next member => exact (ih search).insert (List.mem_append.mp member)
      · rw [List.append_cons] at search ⊢
        rw [List.append_assoc seen] at search
        exact ih search

end

namespace Marking

/-- The queue only grows. -/
theorem prefix_visitAll (marking : Marking) (addresses : List Address) :
    marking.live.toList <+: (marking.visitAll addresses).live.toList := by
  induction addresses generalizing marking with
  | nil => exact List.prefix_refl _
  | cons address rest ih =>
      have first : marking.live.toList <+: (marking.visit address).live.toList := by
        unfold visit
        split
        · exact List.prefix_refl _
        · split
          · exact List.prefix_refl _
          · rw [Array.toList_push]
            exact List.prefix_append _ _
      exact first.trans (ih (marking.visit address))

theorem prefix_follow (steps position : Nat) (marking : Marking) :
    marking.live.toList <+: (follow steps position marking).live.toList := by
  induction steps generalizing position marking with
  | zero => exact List.prefix_refl _
  | succ steps ih =>
      unfold follow
      split
      · exact List.prefix_refl _
      · exact (prefix_visitAll _ _).trans (ih _ _)

section
variable {space : Space} (unmarked : space.Unmarked) {marking : Marking}
  (traces : Traces space marking)
include unmarked traces

/-- The queue after several objects have been met. -/
theorem Traces.live_visitAll {addresses : List Address}
    (present : ∀ address ∈ addresses, ∃ object, space.object? address = some object) :
    (marking.visitAll addresses).live.toList =
      marking.live.toList ++ joining marking.live.toList addresses := by
  induction addresses generalizing marking with
  | nil => exact (List.append_nil _).symm
  | cons address rest ih =>
      have later := ih (traces.visit unmarked address).1
        fun other member => present other (List.mem_cons_of_mem address member)
      change ((marking.visit address).visitAll rest).live.toList = _
      rw [later]
      obtain ⟨object, found⟩ := present address List.mem_cons_self
      have here := traces.object? address
      rw [found, Option.map_some] at here
      unfold Marking.visit
      rw [here, joining]
      by_cases queued : address ∈ marking.live.toList
      · simp only [if_pos queued, Object.isMarked_mark, if_true]
      · simp only [if_neg queued, unmarked address object found, Bool.false_eq_true, if_false,
          Array.toList_push, List.append_assoc, List.singleton_append]

omit unmarked traces in
/-- The search from a position of a queue goes on with what joins the queue there. -/
theorem discovers_from_position {list final : List Address} {position : Nat} {address : Address}
    {successors : Address → List Address} (here : list[position]? = some address)
    (distinct : list.Nodup) (grows : list <+: final)
    (later : Discovers successors
      ((list ++ joining list (successors address)).take (position + 1))
      ((list ++ joining list (successors address)).drop (position + 1))
      (final.drop (position + 1))) :
    Discovers successors (list.take position) (list.drop position) (final.drop position) := by
  obtain ⟨inside, here⟩ := List.getElem?_eq_some_iff.mp here
  -- The list consists of what has been followed, the address, and the rest of the queue.
  have taken : list.take (position + 1) = list.take position ++ [address] := by
    rw [List.take_succ_eq_append_getElem inside, here]
  have whole := List.take_append_drop (position + 1) list
  rw [List.take_append_of_le_length inside, List.drop_append_of_le_length inside] at later
  nth_rewrite 3 [← whole] at later
  have search := later.of_joining
  rw [taken] at search
  have finalHere : final.drop position = address :: final.drop (position + 1) := by
    have there := List.prefix_iff_getElem?.mp grows position inside
    rw [here] at there
    obtain ⟨finalInside, value⟩ := List.getElem?_eq_some_iff.mp there
    rw [List.drop_eq_getElem_cons finalInside, value]
  rw [finalHere, List.drop_eq_getElem_cons inside, here]
  refine Discovers.next ?_ search
  have first := distinct.sublist (List.take_sublist (position + 1) list)
  rw [taken, List.nodup_append] at first
  exact fun member => first.2.2 address member address List.mem_cons_self rfl

/-- Following the queue from a position on discovers what joins it, if there are steps enough. -/
theorem Traces.discovers_follow
    (closed : ∀ address, ∀ target ∈ targetsOf space address,
      ∃ object, space.object? target = some object) (steps position : Nat)
    (enough : space.residents.size ≤ steps + position) :
    Discovers (targetsOf space) (marking.live.toList.take position)
      (marking.live.toList.drop position)
      ((Marking.follow steps position marking).live.toList.drop position) := by
  induction steps generalizing position marking with
  | zero =>
      have small := traces.size_le
      rw [← Array.length_toList] at small
      unfold Marking.follow
      rw [List.drop_of_length_le (by omega)]
      exact Discovers.done _
  | succ steps ih =>
      unfold Marking.follow
      cases found : marking.live[position]? with
      | none =>
          dsimp only
          have short := Array.getElem?_eq_none_iff.mp found
          rw [← Array.length_toList] at short
          rw [List.drop_of_length_le short]
          exact Discovers.done _
      | some address =>
          dsimp only
          rw [traces.targetsOf_eq address]
          have later := ih (traces.visitAll unmarked (targetsOf space address)).1 (position + 1)
            (by omega)
          have grows := (marking.prefix_visitAll (targetsOf space address)).trans
            (prefix_follow steps (position + 1) _)
          rw [traces.live_visitAll unmarked (closed address)] at later
          rw [← Array.getElem?_toList] at found
          exact discovers_from_position found traces.distinct grows later

end

/-- Marking discovers the objects breadth first from the roots, if the roots and all references
lead to objects. -/
theorem discovers_ofRoots {space : Space} (unmarked : space.Unmarked)
    (closed : ∀ address, ∀ target ∈ targetsOf space address,
      ∃ object, space.object? target = some object)
    {roots : List Address} (rooted : ∀ root ∈ roots, ∃ object, space.object? root = some object) :
    Discovers (targetsOf space) [] roots (ofRoots space roots).live.toList := by
  have start := traces_start space
  have search := (start.visitAll unmarked roots).1.discovers_follow unmarked closed
    space.residents.size 0 (Nat.le_refl _)
  rw [List.take_zero, List.drop_zero, List.drop_zero, start.live_visitAll unmarked rooted] at search
  have start : Discovers (targetsOf space) [] ([] ++ joining ([] ++ []) roots)
      (ofRoots space roots).live.toList := search
  exact start.of_joining

end Marking

end CompactingHeap
