import CompactingHeap.Class.Descriptor

/-!
# What an accepted descriptor guarantees

The check of a class description goes through the traced places one after the other.  This module
says what holds of the places once it has succeeded: each is an aligned word inside the fixed part,
no two coincide, and a run of references is the tail of the class exactly if one is traced, with
its length word at the end of the fixed part.
-/

namespace CompactingHeap

namespace Descriptor

/-- Accepted places are aligned words inside the fixed part, none of them seen before. -/
theorem checkTrace_places {size : Nat} {seen : List Nat} {tail result : Tail}
    {trace : List TraceEntry} (accepted : checkTrace size seen tail trace = .ok result) :
    ∀ entry ∈ trace,
      entry.offset % wordBytes = 0 ∧ entry.offset + wordBytes ≤ size ∧ entry.offset ∉ seen := by
  induction trace generalizing seen tail with
  | nil => simp
  | cons first rest ih =>
      have step : first.offset % wordBytes = 0 ∧ first.offset + wordBytes ≤ size ∧
          first.offset ∉ seen ∧
          ∃ tail', checkTrace size (first.offset :: seen) tail' rest = .ok result := by
        unfold checkTrace at accepted
        grind
      obtain ⟨aligned, inside, fresh, tail', later⟩ := step
      intro entry member
      rcases List.mem_cons.mp member with rfl | member
      · exact ⟨aligned, inside, fresh⟩
      · have found := ih later entry member
        exact ⟨found.1, found.2.1, fun seenBefore => found.2.2 (List.mem_cons_of_mem _ seenBefore)⟩

/-- Accepted places are pairwise different. -/
theorem checkTrace_nodup {size : Nat} {seen : List Nat} {tail result : Tail}
    {trace : List TraceEntry} (accepted : checkTrace size seen tail trace = .ok result) :
    (trace.map TraceEntry.offset).Nodup := by
  induction trace generalizing seen tail with
  | nil => simp
  | cons first rest ih =>
      have step : ∃ tail', checkTrace size (first.offset :: seen) tail' rest = .ok result := by
        unfold checkTrace at accepted
        grind
      obtain ⟨tail', later⟩ := step
      rw [List.map_cons, List.nodup_cons]
      refine ⟨?_, ih later⟩
      rw [List.mem_map]
      rintro ⟨entry, member, same⟩
      have fresh := (checkTrace_places later entry member).2.2
      exact fresh (same ▸ List.mem_cons_self)

/-- Once a run or a byte tail has been found, the kind of the tail stays. -/
theorem checkTrace_tail {size : Nat} {seen : List Nat} {tail result : Tail}
    {trace : List TraceEntry} (accepted : checkTrace size seen tail trace = .ok result)
    (found : tail ≠ .none) : result = tail ∧ ∀ offset, .run offset ∉ trace := by
  induction trace generalizing seen with
  | nil =>
      rw [checkTrace] at accepted
      grind
  | cons first rest ih =>
      unfold checkTrace at accepted
      cases first with
      | ref offset => grind
      | run offset => grind

/-- The tail is a run of references exactly if a run is traced or was found before, and a traced run
has its length word at the end of the fixed part. -/
theorem checkTrace_run {size : Nat} {seen : List Nat} {tail result : Tail}
    {trace : List TraceEntry} (accepted : checkTrace size seen tail trace = .ok result) :
    (result = .references ↔ tail = .references ∨ ∃ offset, .run offset ∈ trace) ∧
      ∀ offset, .run offset ∈ trace → offset + wordBytes = size := by
  induction trace generalizing seen tail with
  | nil =>
      rw [checkTrace] at accepted
      grind
  | cons first rest ih =>
      unfold checkTrace at accepted
      cases first with
      | ref offset => grind
      | run offset =>
          have last : offset + wordBytes = size ∧
              checkTrace size (offset :: seen) .references rest = .ok result := by
            grind [TraceEntry.offset]
          have kept := checkTrace_tail last.2 (by decide)
          grind

/-- The check of the traced places of a descriptor started without a run and ended with the tail of
the descriptor. -/
theorem trace_accepted (descriptor : Descriptor) :
    ∃ tail, tail ≠ .references ∧
      checkTrace descriptor.size [] tail descriptor.trace = .ok descriptor.tail := by
  obtain ⟨byteTail, accepted⟩ := descriptor.accepted
  refine ⟨if byteTail then .bytes else .none, by cases byteTail <;> simp, ?_⟩
  unfold check at accepted
  grind

/-- Every traced place is an aligned word. -/
theorem offset_aligned (descriptor : Descriptor) {entry : TraceEntry}
    (member : entry ∈ descriptor.trace) : entry.offset % wordBytes = 0 :=
  have ⟨_, _, accepted⟩ := descriptor.trace_accepted
  (checkTrace_places accepted entry member).1

/-- Every traced place lies inside the fixed part. -/
theorem offset_inside (descriptor : Descriptor) {entry : TraceEntry}
    (member : entry ∈ descriptor.trace) : entry.offset + wordBytes ≤ descriptor.size :=
  have ⟨_, _, accepted⟩ := descriptor.trace_accepted
  (checkTrace_places accepted entry member).2.1

/-- No two traced places coincide. -/
theorem offsets_nodup (descriptor : Descriptor) :
    (descriptor.trace.map TraceEntry.offset).Nodup :=
  have ⟨_, _, accepted⟩ := descriptor.trace_accepted
  checkTrace_nodup accepted

/-- A traced run has its length word at the end of the fixed part. -/
theorem run_last (descriptor : Descriptor) {offset : Nat}
    (member : .run offset ∈ descriptor.trace) : offset + wordBytes = descriptor.size :=
  have ⟨_, _, accepted⟩ := descriptor.trace_accepted
  (checkTrace_run accepted).2 offset member

theorem runOffset?_eq_some_iff {descriptor : Descriptor} {offset : Nat} :
    descriptor.runOffset? = some offset ↔ .run offset ∈ descriptor.trace := by
  constructor
  · intro found
    obtain ⟨entry, member, isRun⟩ := List.exists_of_findSome?_eq_some found
    cases entry with
    | ref other => simp at isRun
    | run other => simpa [← Option.some.inj isRun] using member
  · intro member
    cases search : descriptor.runOffset? with
    | none =>
        have missing := List.findSome?_eq_none_iff.mp search _ member
        simp at missing
    | some other =>
        obtain ⟨entry, memberOther, isRun⟩ := List.exists_of_findSome?_eq_some search
        cases entry with
        | ref other => simp at isRun
        | run found =>
            have first := descriptor.run_last member
            have second := descriptor.run_last memberOther
            have same : found = other := Option.some.inj isRun
            congr 1
            omega

/-- The tail is a run of references exactly if the class has a run. -/
theorem tail_eq_references_iff {descriptor : Descriptor} :
    descriptor.tail = .references ↔ ∃ offset, descriptor.runOffset? = some offset := by
  obtain ⟨tail, notRun, accepted⟩ := descriptor.trace_accepted
  simp only [(checkTrace_run accepted).1, notRun, false_or, runOffset?_eq_some_iff]

theorem isRefField_iff {descriptor : Descriptor} {offset : Nat} :
    descriptor.isRefField offset = true ↔ .ref offset ∈ descriptor.trace := by
  simp [isRefField]

end Descriptor

end CompactingHeap
