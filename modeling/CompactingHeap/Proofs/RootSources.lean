import CompactingHeap.RootSet
import Mathlib.Data.List.Infix
import Mathlib.Data.List.Nodup

/-!
# Root sources

All sources register their roots in one list, and still none of them notices the others: what a
source finds registered and what its calls answer is what they would be if it were alone.  A
registration remains until its source is dropped or more of its kind have been taken back than were
made since, and a scanner until it is removed, after which its identifier stays invalid.
-/

namespace CompactingHeap

namespace RootSet

/-- A call on the set, or a change of what an installed scanner reports. -/
inductive Call where
  | register (source : RootSource) (handle : Handle)
  | unregister (source : RootSource) (handle : Handle)
  | unregisterSource (source : RootSource)
  | addScanner (report : List Handle)
  | setReport (id : ScannerId) (report : List Handle)
  | removeScanner (id : ScannerId)
deriving DecidableEq

/-- What a call returns. -/
inductive Answer where
  | done
  | found (removed : Bool)
  | dropped (count : Nat)
  | installed (id : ScannerId)

/-- The answer to a call and the set after it. -/
def perform (set : RootSet) : Call → Answer × RootSet
  | .register source handle => (.done, set.register source handle)
  | .unregister source handle =>
      let next := set.unregister source handle
      (.found next.isSome, next.getD set)
  | .unregisterSource source => (set.unregisterSource source).map .dropped id
  | .addScanner report => (set.addScanner report).map .installed id
  | .setReport id report => (.done, set.setReport id report)
  | .removeScanner id =>
      let next := set.removeScanner id
      (.found next.isSome, next.getD set)

/-- A call with its answer. -/
structure Event where
  call : Call
  answer : Answer

/-! Calls are listed in the order in which they are made. -/

/-- The set after some calls. -/
def run (set : RootSet) (calls : List Call) : RootSet :=
  calls.foldl (fun set call => (set.perform call).2) set

/-- The calls with their answers. -/
def trace (set : RootSet) : List Call → List Event
  | [] => []
  | call :: calls => ⟨call, (set.perform call).1⟩ :: trace (set.perform call).2 calls

/-- Does the call name the source? -/
def Call.names (source : RootSource) : Call → Bool
  | .register other _ => other = source
  | .unregister other _ => other = source
  | .unregisterSource other => other = source
  | _ => false

/-- Does the call of the event name the source? -/
def Event.names (source : RootSource) (event : Event) : Bool :=
  event.call.names source

/-- What a source has registered, in registration order. -/
def rootsOf (set : RootSet) (source : RootSource) : List Root :=
  set.roots.filter fun root => root.source = source

variable {set other : RootSet} {call : Call} {calls : List Call} {source : RootSource}
  {handle : Handle}

@[simp]
theorem run_nil (set : RootSet) : set.run [] = set :=
  rfl

@[simp]
theorem run_cons (set : RootSet) (call : Call) (calls : List Call) :
    set.run (call :: calls) = (set.perform call).2.run calls :=
  rfl

@[simp]
theorem run_append (set : RootSet) (calls later : List Call) :
    set.run (calls ++ later) = (set.run calls).run later :=
  List.foldl_append

/-- What a call makes of the registrations, the latest first. -/
def Call.edit (latest : List Root) : Call → List Root
  | .register source handle => ⟨source, handle⟩ :: latest
  | .unregister source handle => latest.erase ⟨source, handle⟩
  | .unregisterSource source => latest.filter fun root => root.source ≠ source
  | _ => latest

@[simp]
theorem latest_perform (set : RootSet) (call : Call) :
    (set.perform call).2.latest = call.edit set.latest := by
  cases call with
  | register source handle => rfl
  | unregister source handle =>
      simp only [perform, unregister, Call.edit]
      split
      · rfl
      · next missing => exact (List.erase_of_not_mem missing).symm
  | unregisterSource source => rfl
  | addScanner report => rfl
  | setReport id report => rfl
  | removeScanner id =>
      simp only [perform, removeScanner, Call.edit]
      split <;> rfl

/-- Dropping a source tells how much it had registered. -/
theorem unregisterSource_fst (set : RootSet) (source : RootSource) :
    (set.unregisterSource source).1 =
      (set.latest.filter fun root => root.source = source).length := by
  have parts := List.length_eq_length_filter_add (l := set.latest)
    fun root => decide (root.source = source)
  simp only [unregisterSource, decide_not]
  omega

/-! ## What a source notices -/

/-- One set has registered what a source has registered in another. -/
def Projects (source : RootSource) (set other : RootSet) : Prop :=
  other.latest = set.latest.filter fun root => root.source = source

theorem projects_empty (source : RootSource) : Projects source empty empty :=
  rfl

/-- A call that does not name a source leaves what the source has registered alone. -/
theorem Projects.perform_of_not_names (projects : Projects source set other)
    (unnamed : call.names source = false) : Projects source (set.perform call).2 other := by
  unfold Projects at projects ⊢
  rw [projects, latest_perform]
  cases call with
  | register owner handle =>
      have apart : owner ≠ source := by simpa [Call.names] using unnamed
      simp [Call.edit, apart]
  | unregister owner handle =>
      have apart : owner ≠ source := by simpa [Call.names] using unnamed
      rw [Call.edit, ← List.erase_filter, List.erase_of_not_mem]
      simp [apart]
  | unregisterSource owner =>
      have apart : owner ≠ source := by simpa [Call.names] using unnamed
      rw [Call.edit, List.filter_filter]
      apply List.filter_congr
      intro root _
      by_cases mine : root.source = source
      · simp [mine, Ne.symm apart]
      · simp [mine]
  | addScanner report => rfl
  | setReport id report => rfl
  | removeScanner id => rfl

/-- A call that names a source answers and acts on what the source has registered. -/
theorem Projects.perform_of_names (projects : Projects source set other)
    (named : call.names source = true) :
    (other.perform call).1 = (set.perform call).1 ∧
      Projects source (set.perform call).2 (other.perform call).2 := by
  unfold Projects at projects ⊢
  rw [latest_perform, latest_perform, projects]
  cases call with
  | register owner handle =>
      have same : owner = source := by simpa [Call.names] using named
      simp [perform, Call.edit, same]
  | unregister owner handle =>
      have same : owner = source := by simpa [Call.names] using named
      refine ⟨?_, List.erase_filter⟩
      simp only [perform, unregister, projects, List.mem_filter, same, decide_true, and_true]
      split <;> rfl
  | unregisterSource owner =>
      have same : owner = source := by simpa [Call.names] using named
      constructor
      · simp [perform, Prod.map, unregisterSource_fst, same, projects]
      · simp [Call.edit, same]
  | addScanner report => cases named
  | setReport id report => cases named
  | removeScanner id => cases named

theorem Projects.run (projects : Projects source set other) :
    Projects source (set.run calls) (other.run (calls.filter (Call.names source))) := by
  induction calls generalizing set other with
  | nil => exact projects
  | cons call calls ih =>
      cases named : call.names source with
      | true =>
          rw [List.filter_cons_of_pos named, run_cons, run_cons]
          exact ih (projects.perform_of_names named).2
      | false =>
          rw [List.filter_cons_of_neg (by simp [named]), run_cons]
          exact ih (projects.perform_of_not_names named)

/-- Alone, a source gets the same answers. -/
theorem Projects.trace (projects : Projects source set other) :
    (set.trace calls).filter (Event.names source) =
      other.trace (calls.filter (Call.names source)) := by
  induction calls generalizing set other with
  | nil => rfl
  | cons call calls ih =>
      cases named : call.names source with
      | true =>
          obtain ⟨answer, after⟩ := projects.perform_of_names named
          rw [List.filter_cons_of_pos named, RootSet.trace, RootSet.trace,
            List.filter_cons_of_pos (by exact named), answer, ih after]
      | false =>
          rw [List.filter_cons_of_neg (by simp [named]), RootSet.trace,
            List.filter_cons_of_neg (by simp [Event.names, named])]
          exact ih (projects.perform_of_not_names named)

theorem Projects.rootsOf_eq (projects : Projects source set other) :
    set.rootsOf source = other.roots := by
  rw [rootsOf, roots, List.filter_reverse, roots, projects]

/-- What a source finds registered is what it has registered itself. -/
theorem rootsOf_run (calls : List Call) (source : RootSource) :
    (empty.run calls).rootsOf source = (empty.run (calls.filter (Call.names source))).roots :=
  (Projects.run (projects_empty source)).rootsOf_eq

/-- A registration that is taken back leaves no trace. -/
theorem rootsOf_restored (calls between : List Call) (source : RootSource) (handle : Handle)
    (elsewhere : ∀ call ∈ between, call.names source = false) :
    (empty.run (calls ++ Call.register source handle :: between ++
      [Call.unregister source handle])).rootsOf source = (empty.run calls).rootsOf source := by
  have unnamed : between.filter (Call.names source) = [] := by
    rw [List.filter_eq_nil_iff]
    exact fun call member => by simp [elsewhere call member]
  have mine : (calls ++ Call.register source handle :: between ++
      [Call.unregister source handle]).filter (Call.names source) =
        calls.filter (Call.names source) ++
          [.register source handle, .unregister source handle] := by
    simp [List.filter_append, Call.names, unnamed]
  rw [rootsOf_run, rootsOf_run, mine, run_append]
  simp [perform, unregister_register]

/-! ## Which registrations remain -/

/-- The call that registers a root. -/
def Call.registering (root : Root) : Call :=
  .register root.source root.handle

/-- The call that takes back a registration of a root. -/
def Call.withdrawing (root : Root) : Call :=
  .unregister root.source root.handle

@[simp]
theorem register_eq_registering {root : Root} :
    Call.register source handle = .registering root ↔ ⟨source, handle⟩ = root := by
  cases root
  simp [Call.registering]

@[simp]
theorem unregister_eq_withdrawing {root : Root} :
    Call.unregister source handle = .withdrawing root ↔ ⟨source, handle⟩ = root := by
  cases root
  simp [Call.withdrawing]

/-- How often a root was registered. -/
def registrations (root : Root) (calls : List Call) : Nat :=
  calls.count (.registering root)

/-- How often a registration of a root was to be taken back. -/
def withdrawals (root : Root) (calls : List Call) : Nat :=
  calls.count (.withdrawing root)

/-- A registration outlasts the calls after it if its source is not dropped and at no time more
registrations of its kind have been taken back than were made since. -/
def outlasts (root : Root) (later : List Call) : Bool :=
  decide (Call.unregisterSource root.source ∉ later) &&
    later.inits.all fun early => withdrawals root early ≤ registrations root early

/-- The registrations that outlast the calls after them, in registration order. -/
def remaining : List Call → List Root
  | [] => []
  | .register source handle :: later =>
      if outlasts ⟨source, handle⟩ later then ⟨source, handle⟩ :: remaining later
      else remaining later
  | _ :: later => remaining later

theorem outlasts_iff {root : Root} {later : List Call} :
    outlasts root later = true ↔ Call.unregisterSource root.source ∉ later ∧
      ∀ early, early <+: later → withdrawals root early ≤ registrations root early := by
  simp [outlasts, List.mem_inits]

theorem outlasts_concat {root : Root} {later : List Call} :
    outlasts root (later ++ [call]) = true ↔ outlasts root later = true ∧
      call ≠ .unregisterSource root.source ∧
        withdrawals root (later ++ [call]) ≤ registrations root (later ++ [call]) := by
  simp only [outlasts_iff, List.mem_append, List.mem_singleton, List.prefix_concat_iff]
  grind

@[simp]
theorem registrations_concat (root : Root) (later : List Call) (call : Call) :
    registrations root (later ++ [call]) =
      registrations root later + if call = .registering root then 1 else 0 := by
  simp [registrations, List.count_singleton]

@[simp]
theorem withdrawals_concat (root : Root) (later : List Call) (call : Call) :
    withdrawals root (later ++ [call]) =
      withdrawals root later + if call = .withdrawing root then 1 else 0 := by
  simp [withdrawals, List.count_singleton]

@[simp]
theorem run_concat (set : RootSet) (calls : List Call) (call : Call) :
    set.run (calls ++ [call]) = ((set.run calls).perform call).2 := by
  simp

/-- A registration that outlasts the calls since has been followed by as many others as are
there. -/
theorem count_latest_run {root : Root} {later : List Call} (lasting : outlasts root later = true) :
    withdrawals root later + (empty.run later).latest.count root = registrations root later := by
  induction later using List.reverseRecOn with
  | nil => rfl
  | append_singleton later call ih =>
      obtain ⟨before, kept, covered⟩ := outlasts_concat.mp lasting
      have balance := ih before
      rw [run_concat, latest_perform]
      rw [withdrawals_concat, registrations_concat] at covered ⊢
      cases call with
      | register source handle =>
          have other : Call.register source handle ≠ .withdrawing root := nofun
          simp only [Call.edit, List.count_cons, if_neg other, register_eq_registering, beq_iff_eq]
          omega
      | unregister source handle =>
          have other : Call.unregister source handle ≠ .registering root := nofun
          simp only [Call.edit, List.count_erase, if_neg other, unregister_eq_withdrawing,
            beq_iff_eq] at covered ⊢
          omega
      | unregisterSource source =>
          have apart : root.source ≠ source := fun same => kept (same ▸ rfl)
          have other : Call.unregisterSource source ≠ .registering root := nofun
          have another : Call.unregisterSource source ≠ .withdrawing root := nofun
          rw [Call.edit, List.count_filter (by simp [apart]), if_neg other, if_neg another]
          exact balance
      | addScanner report => simpa [Call.edit, Call.withdrawing, Call.registering] using balance
      | setReport id report => simpa [Call.edit, Call.withdrawing, Call.registering] using balance
      | removeScanner id => simpa [Call.edit, Call.withdrawing, Call.registering] using balance

/-- Only two kinds of calls take a registration back. -/
structure Call.Spares (call : Call) (root : Root) : Prop where
  withdraws : call ≠ .withdrawing root
  drops : call ≠ .unregisterSource root.source

theorem Call.Spares.outlasts {root : Root} (spares : call.Spares root) (later : List Call) :
    outlasts root (later ++ [call]) = outlasts root later := by
  rw [Bool.eq_iff_iff, outlasts_concat, withdrawals_concat, if_neg spares.withdraws,
    registrations_concat]
  constructor
  · exact And.left
  · intro lasting
    have covered := (outlasts_iff.mp lasting).2 later List.prefix_rfl
    exact ⟨lasting, spares.drops, covered.trans (Nat.le_add_right _ _)⟩

theorem Call.Spares.edit {root : Root} (spares : call.Spares root) (latest : List Root) :
    call.edit (latest ++ [root]) = call.edit latest ++ [root] := by
  cases call with
  | register source handle => rfl
  | unregister source handle =>
      have apart : root ≠ ⟨source, handle⟩ := fun same =>
        spares.withdraws (unregister_eq_withdrawing.mpr same.symm)
      rw [Call.edit, List.erase_append]
      split
      · rfl
      · next missing =>
        rw [Call.edit, List.erase_of_not_mem missing, List.erase_of_not_mem]
        simp [Ne.symm apart]
  | unregisterSource source =>
      have apart : root.source ≠ source := fun same => spares.drops (same ▸ rfl)
      simp [Call.edit, apart]
  | addScanner report => rfl
  | setReport id report => rfl
  | removeScanner id => rfl

@[simp]
theorem edit_withdrawing (root : Root) (latest : List Root) :
    (Call.withdrawing root).edit latest = latest.erase root :=
  rfl

/-- A registration outlasts a call that takes one of its kind back if a later one is there. -/
theorem outlasts_withdrawing {root : Root} {later : List Call} :
    outlasts root (later ++ [.withdrawing root]) = true ↔
      outlasts root later = true ∧ root ∈ (empty.run later).latest := by
  have other : Call.withdrawing root ≠ .registering root := nofun
  have another : Call.withdrawing root ≠ .unregisterSource root.source := nofun
  rw [outlasts_concat, withdrawals_concat, registrations_concat, if_neg other, if_pos rfl,
    ← List.count_pos_iff]
  refine and_congr_right fun lasting => ?_
  have balance := count_latest_run lasting
  constructor
  · rintro ⟨_, covered⟩
    omega
  · intro positive
    exact ⟨another, by omega⟩

theorem outlasts_unregisterSource (root : Root) (later : List Call) :
    outlasts root (later ++ [.unregisterSource root.source]) = false := by
  rw [Bool.eq_false_iff, Ne, outlasts_concat]
  rintro ⟨_, kept, _⟩
  exact kept rfl

/-- The first registration of all is last of the latest if it outlasts the calls after it, and
makes no difference otherwise. -/
theorem latest_run_register (root : Root) (later : List Call) :
    ((empty.register root.source root.handle).run later).latest = (empty.run later).latest ++
      if outlasts root later then [root] else [] := by
  induction later using List.reverseRecOn with
  | nil => rfl
  | append_singleton later call ih =>
      rw [run_concat, run_concat, latest_perform, latest_perform, ih]
      by_cases withdraws : call = .withdrawing root
      · subst withdraws
        rw [edit_withdrawing, edit_withdrawing]
        by_cases member : root ∈ (empty.run later).latest
        · simp [List.erase_append, outlasts_withdrawing, member]
        · rw [if_neg fun lasting => member (outlasts_withdrawing.mp lasting).2,
            List.erase_append_right _ member, List.erase_of_not_mem member]
          split <;> simp
      · by_cases drops : call = .unregisterSource root.source
        · subst drops
          rw [outlasts_unregisterSource]
          split <;> simp [Call.edit]
        · have spares : call.Spares root := ⟨withdraws, drops⟩
          rw [spares.outlasts]
          split
          · exact spares.edit _
          · rw [List.append_nil, List.append_nil]

/-- A call that registers nothing has nothing to change in an empty list. -/
theorem latest_run_congr (latest : set.latest = other.latest) (calls : List Call) :
    (set.run calls).latest = (other.run calls).latest := by
  induction calls generalizing set other with
  | nil => exact latest
  | cons call calls ih =>
      rw [run_cons, run_cons]
      exact ih (by rw [latest_perform, latest_perform, latest])

/-- The registered roots are those that outlast the calls after them. -/
theorem roots_run (calls : List Call) : (empty.run calls).roots = remaining calls := by
  induction calls with
  | nil => rfl
  | cons call calls ih =>
      have quiet (edits : call.edit [] = []) :
          (empty.run (call :: calls)).roots = remaining calls := by
        have same : (empty.perform call).2.latest = empty.latest := by
          rw [latest_perform]
          exact edits
        rw [← ih, roots, roots, run_cons, latest_run_congr same]
      cases call with
      | register source handle =>
          have first := latest_run_register ⟨source, handle⟩ calls
          rw [run_cons, roots]
          change List.reverse ((empty.register source handle).run calls).latest = _
          rw [first, remaining, List.reverse_append, ← ih, roots]
          split <;> rfl
      | unregister source handle => exact quiet rfl
      | unregisterSource source => exact quiet rfl
      | addScanner report => exact quiet rfl
      | setReport id report => exact quiet rfl
      | removeScanner id => exact quiet rfl

/-! ## Which scanners remain -/

/-- Does the call install a scanner? -/
def Call.installs : Call → Bool
  | .addScanner _ => true
  | _ => false

/-- How many scanners were installed. -/
def installations (calls : List Call) : Nat :=
  calls.countP Call.installs

/-- What a scanner reports after the calls. -/
def reported (id : ScannerId) (report : List Handle) : List Call → List Handle
  | [] => report
  | .setReport other latest :: later => reported id (if other = id then latest else report) later
  | _ :: later => reported id report later

/-- What the calls leave of a scanner. -/
def left? (later : List Call) (scanner : Scanner) : Option Scanner :=
  if .removeScanner scanner.id ∈ later then none
  else some ⟨scanner.id, reported scanner.id scanner.report later⟩

/-- The scanners that are installed under consecutive numbers and not removed afterwards, in
installation order. -/
def installed (number : UInt32) : List Call → List Scanner
  | [] => []
  | .addScanner report :: later =>
      (left? later ⟨⟨number⟩, report⟩).toList ++ installed (number + 1) later
  | _ :: later => installed number later

/-- The installed scanners have different numbers below the next one. -/
structure Numbered (set : RootSet) : Prop where
  distinct : (set.scanners.map Scanner.id).Nodup
  below : ∀ scanner ∈ set.scanners, scanner.id.index < set.nextScanner

theorem numbered_empty : empty.Numbered where
  distinct := List.nodup_nil
  below _ member := absurd member List.not_mem_nil

/-- What a call leaves of a scanner. -/
def Call.leaves? (call : Call) (scanner : Scanner) : Option Scanner :=
  match call with
  | .setReport id report => some (if scanner.id = id then { scanner with report } else scanner)
  | .removeScanner id => if scanner.id = id then none else some scanner
  | _ => some scanner

/-- The scanner that a call installs under a number. -/
def Call.installs? (number : UInt32) : Call → Option Scanner
  | .addScanner report => some ⟨⟨number⟩, report⟩
  | _ => none

/-- The next number after a call. -/
def Call.advances (number : UInt32) (call : Call) : UInt32 :=
  if call.installs then number + 1 else number

theorem left?_nil (scanner : Scanner) : left? [] scanner = some scanner :=
  rfl

theorem left?_cons (call : Call) (later : List Call) (scanner : Scanner) :
    left? (call :: later) scanner = (call.leaves? scanner).bind (left? later) := by
  cases call with
  | removeScanner id =>
      by_cases same : scanner.id = id
      · simp [left?, Call.leaves?, same]
      · simp [left?, Call.leaves?, same, reported]
  | setReport id report =>
      by_cases same : scanner.id = id
      · simp [left?, Call.leaves?, same, reported]
      · simp [left?, Call.leaves?, same, Ne.symm same, reported]
  | register source handle => simp [left?, Call.leaves?, reported]
  | unregister source handle => simp [left?, Call.leaves?, reported]
  | unregisterSource source => simp [left?, Call.leaves?, reported]
  | addScanner report => simp [left?, Call.leaves?, reported]

theorem installed_cons (number : UInt32) (call : Call) (later : List Call) :
    installed number (call :: later) = (call.installs? number).toList.filterMap (left? later) ++
      installed (call.advances number) later := by
  cases call with
  | addScanner report =>
      rw [installed, Call.installs?, Option.toList_some, List.filterMap_cons, List.filterMap_nil]
      cases left? later ⟨⟨number⟩, report⟩ <;> rfl
  | register source handle => rfl
  | unregister source handle => rfl
  | unregisterSource source => rfl
  | setReport id report => rfl
  | removeScanner id => rfl

/-- Among scanners with different numbers, the first of a number is the only one. -/
theorem eraseP_eq_filter {scanners : List Scanner} (distinct : (scanners.map Scanner.id).Nodup)
    (id : ScannerId) :
    (scanners.eraseP fun scanner => scanner.id = id) =
      scanners.filter fun scanner => scanner.id ≠ id := by
  induction scanners with
  | nil => rfl
  | cons scanner scanners ih =>
      obtain ⟨apart, distinct⟩ := List.nodup_cons.mp distinct
      by_cases same : scanner.id = id
      · subst same
        rw [List.eraseP_cons_of_pos (by simp), List.filter_cons_of_neg (by simp)]
        refine (List.filter_eq_self.mpr fun other member => ?_).symm
        simp only [ne_eq, decide_not, Bool.not_eq_true', decide_eq_false_iff_not]
        exact fun equal => apart (List.mem_map.mpr ⟨other, member, equal⟩)
      · rw [List.eraseP_cons_of_neg (by simp [same]), List.filter_cons_of_pos (by simp [same]),
          ih distinct]

theorem scanners_perform (numbered : set.Numbered) (call : Call) :
    (set.perform call).2.scanners =
      set.scanners.filterMap call.leaves? ++ (call.installs? set.nextScanner).toList := by
  have kept : set.scanners = set.scanners.filterMap some ++ [] := by simp
  cases call with
  | register source handle => exact kept
  | unregister source handle =>
      simp only [perform, unregister]
      split <;> exact kept
  | unregisterSource source => exact kept
  | addScanner report => exact congrArg (· ++ _) List.filterMap_some.symm
  | setReport id report =>
      simp only [perform, setReport, Call.installs?, Option.toList_none, List.append_nil]
      exact (congrFun (List.filterMap_eq_map ..) _).symm
  | removeScanner id =>
      have filtered : set.scanners.filterMap (Call.removeScanner id).leaves? =
          set.scanners.filter fun scanner => scanner.id ≠ id := by
        rw [← List.filterMap_eq_filter]
        congr 1
        funext scanner
        by_cases same : scanner.id = id <;> simp [Call.leaves?, Option.guard, same]
      rw [filtered, ← eraseP_eq_filter numbered.distinct]
      simp only [perform, removeScanner, Call.installs?, Option.toList_none, List.append_nil]
      split
      · rfl
      · next missing =>
        refine (List.eraseP_of_forall_not ?_).symm
        simpa using missing

theorem nextScanner_perform (set : RootSet) (call : Call) :
    (set.perform call).2.nextScanner = call.advances set.nextScanner := by
  cases call with
  | unregister source handle =>
      simp only [perform, unregister]
      split <;> rfl
  | removeScanner id =>
      simp only [perform, removeScanner]
      split <;> rfl
  | _ => rfl

/-- While there are numbers left, the next one is one more after each installation. -/
theorem toNat_advances {number : UInt32} (few : number.toNat + installations [call] < 2 ^ 32) :
    (call.advances number).toNat = number.toNat + installations [call] := by
  unfold Call.advances
  cases installs : call.installs with
  | false => simp [installations, installs]
  | true =>
      simp only [installations, List.countP_singleton, installs, if_true] at few ⊢
      rw [UInt32.toNat_add, UInt32.toNat_one, Nat.mod_eq_of_lt few]

theorem Call.id_of_leaves? {scanner after : Scanner} (left : call.leaves? scanner = some after) :
    after.id = scanner.id := by
  unfold Call.leaves? at left
  grind

theorem Call.id_of_installs? {number : UInt32} {scanner : Scanner}
    (new : call.installs? number = some scanner) :
    call.installs = true ∧ scanner.id = ⟨number⟩ := by
  cases call <;> cases new
  exact ⟨rfl, rfl⟩

/-- A scanner of the set after a call was there under its number before or has just been
installed. -/
theorem mem_scanners_perform (numbered : set.Numbered) {scanner : Scanner}
    (member : scanner ∈ (set.perform call).2.scanners) :
    (∃ former ∈ set.scanners, former.id = scanner.id) ∨
      call.installs = true ∧ scanner.id = ⟨set.nextScanner⟩ := by
  rw [scanners_perform numbered, List.mem_append, List.mem_filterMap, Option.mem_toList] at member
  rcases member with ⟨former, before, left⟩ | new
  · exact .inl ⟨former, before, (Call.id_of_leaves? left).symm⟩
  · exact .inr (Call.id_of_installs? new)

theorem Numbered.perform (numbered : set.Numbered)
    (few : set.nextScanner.toNat + installations [call] < 2 ^ 32) :
    (set.perform call).2.Numbered where
  distinct := by
    rw [scanners_perform numbered, List.Nodup, List.pairwise_map, List.pairwise_append]
    refine ⟨?_, ?_, ?_⟩
    · rw [List.pairwise_filterMap]
      apply (List.pairwise_map.mp numbered.distinct).imp
      intro first second apart one kept other left
      rw [Call.id_of_leaves? kept, Call.id_of_leaves? left]
      exact apart
    · cases call.installs? set.nextScanner <;> simp
    · intro first member second new
      obtain ⟨former, before, left⟩ := List.mem_filterMap.mp member
      rw [Call.id_of_leaves? left, (Call.id_of_installs? (Option.mem_toList.mp new)).2]
      intro same
      have below := numbered.below former before
      rw [same] at below
      exact absurd below (UInt32.lt_irrefl _)
  below scanner member := by
    rw [nextScanner_perform, UInt32.lt_iff_toNat_lt, toNat_advances few]
    rcases mem_scanners_perform numbered member with ⟨former, before, same⟩ | ⟨installs, same⟩
    · have below := UInt32.lt_iff_toNat_lt.mp (numbered.below former before)
      rw [← same]
      omega
    · simp [same, installations, installs]

theorem installations_cons (call : Call) (calls : List Call) :
    installations (call :: calls) = installations [call] + installations calls := by
  rw [installations, ← List.singleton_append, List.countP_append]
  rfl

theorem Numbered.run (numbered : set.Numbered)
    (few : set.nextScanner.toNat + installations calls < 2 ^ 32) :
    (set.run calls).Numbered ∧
      (set.run calls).nextScanner.toNat = set.nextScanner.toNat + installations calls ∧
      (set.run calls).scanners =
        set.scanners.filterMap (left? calls) ++ installed set.nextScanner calls := by
  induction calls generalizing set with
  | nil => exact ⟨numbered, rfl, by rw [funext left?_nil]; simp [installed]⟩
  | cons call calls ih =>
      rw [installations_cons] at few ⊢
      have enough : set.nextScanner.toNat + installations [call] < 2 ^ 32 := by omega
      have next : (set.perform call).2.nextScanner.toNat =
          set.nextScanner.toNat + installations [call] := by
        rw [nextScanner_perform, toNat_advances enough]
      obtain ⟨after, number, scanners⟩ := ih (numbered.perform enough) (by rw [next]; omega)
      refine ⟨after, by rw [run_cons, number, next, Nat.add_assoc], ?_⟩
      rw [run_cons, scanners, scanners_perform numbered, List.filterMap_append,
        List.filterMap_filterMap, installed_cons, nextScanner_perform, List.append_assoc]
      congr 2
      funext scanner
      exact (left?_cons call calls scanner).symm

/-- From the empty set on, scanners are numbered in installation order. -/
theorem numbered_run (few : installations calls < 2 ^ 32) :
    (empty.run calls).Numbered ∧ (empty.run calls).nextScanner.toNat = installations calls ∧
      (empty.run calls).scanners = installed 0 calls := by
  have start : empty.nextScanner.toNat = 0 := rfl
  have enough : empty.nextScanner.toNat + installations calls < 2 ^ 32 := by omega
  obtain ⟨numbered, number, scanners⟩ := numbered_empty.run enough
  exact ⟨numbered, by omega, scanners⟩

/-- A number that was given to a scanner which is gone. -/
structure Retired (set : RootSet) (id : ScannerId) : Prop where
  below : id.index < set.nextScanner
  gone : ∀ scanner ∈ set.scanners, scanner.id ≠ id

theorem Retired.perform {id : ScannerId} (retired : set.Retired id) (numbered : set.Numbered)
    (few : set.nextScanner.toNat + installations [call] < 2 ^ 32) :
    (set.perform call).2.Retired id where
  below := by
    have below := UInt32.lt_iff_toNat_lt.mp retired.below
    rw [nextScanner_perform, UInt32.lt_iff_toNat_lt, toNat_advances few]
    omega
  gone scanner member := by
    rcases mem_scanners_perform numbered member with ⟨former, before, same⟩ | ⟨_, same⟩
    · rw [← same]
      exact retired.gone former before
    · rintro rfl
      have below := retired.below
      rw [same] at below
      exact UInt32.lt_irrefl _ below

theorem Retired.run {id : ScannerId} (retired : set.Retired id) (numbered : set.Numbered)
    (few : set.nextScanner.toNat + installations calls < 2 ^ 32) : (set.run calls).Retired id := by
  induction calls generalizing set with
  | nil => exact retired
  | cons call calls ih =>
      rw [installations_cons] at few
      have enough : set.nextScanner.toNat + installations [call] < 2 ^ 32 := by omega
      refine ih (retired.perform numbered enough) (numbered.perform enough) ?_
      rw [nextScanner_perform, toNat_advances enough]
      omega

/-- Removing a scanner retires its number. -/
theorem retired_of_removeScanner {id : ScannerId} (numbered : set.Numbered)
    (valid : (set.removeScanner id).isSome = true) :
    (set.perform (.removeScanner id)).2.Retired id := by
  have installed : ∃ scanner ∈ set.scanners, scanner.id = id := by
    unfold removeScanner at valid
    split at valid
    · next found => simpa using found
    · cases valid
  obtain ⟨scanner, member, rfl⟩ := installed
  constructor
  · rw [nextScanner_perform]
    exact numbered.below scanner member
  · intro other remains same
    rw [scanners_perform numbered] at remains
    simp only [Call.installs?, Option.toList_none, List.append_nil] at remains
    obtain ⟨former, _, left⟩ := List.mem_filterMap.mp remains
    have kept := Call.id_of_leaves? left
    rw [same] at kept
    simp [Call.leaves?, ← kept] at left

theorem retired_run {before later : List Call} {id : ScannerId}
    (few : installations (before ++ .removeScanner id :: later) < 2 ^ 32)
    (valid : ((empty.run before).removeScanner id).isSome = true) :
    (empty.run (before ++ .removeScanner id :: later)).Retired id := by
  have none : installations [.removeScanner id] = 0 := rfl
  have total : installations (before ++ .removeScanner id :: later) =
      installations before + installations later := by
    rw [installations, List.countP_append, ← installations, ← installations, installations_cons,
      none, Nat.zero_add]
  have fewer : installations before < 2 ^ 32 := by omega
  obtain ⟨numbered, number, _⟩ := numbered_run fewer
  have enough :
      (empty.run before).nextScanner.toNat + installations [.removeScanner id] < 2 ^ 32 := by
    omega
  rw [run_append, run_cons]
  apply (retired_of_removeScanner numbered valid).run (numbered.perform enough)
  rw [nextScanner_perform, toNat_advances enough]
  omega

theorem Retired.removeScanner_eq_none {id : ScannerId} (retired : set.Retired id) :
    set.removeScanner id = none := by
  unfold removeScanner
  rw [if_neg]
  simpa using retired.gone

theorem Retired.addScanner_ne {id : ScannerId} (retired : set.Retired id) (report : List Handle) :
    (set.addScanner report).1 ≠ id := by
  rintro rfl
  exact UInt32.lt_irrefl _ retired.below

/-- What the calls so far say about the set. -/
structure KeepsApart (calls : List Call) : Prop where
  /-- What a source finds registered is what it would find if it were alone. -/
  roots : ∀ source, (empty.run calls).rootsOf source =
    (empty.run (calls.filter (Call.names source))).roots
  /-- What its calls answer is what they would answer if it were alone. -/
  answers : ∀ source, (empty.trace calls).filter (Event.names source) =
    empty.trace (calls.filter (Call.names source))
  /-- Taking back a registration removes the latest of its kind, if there is one. -/
  unregisters : ∀ source handle,
    ((empty.run calls).unregister source handle = none ∧
        ⟨source, handle⟩ ∉ (empty.run calls).roots) ∨
      ∃ before behind set, (empty.run calls).unregister source handle = some set ∧
        (empty.run calls).roots = before ++ ⟨source, handle⟩ :: behind ∧
          ⟨source, handle⟩ ∉ behind ∧ set.roots = before ++ behind
  /-- Registered are the roots that outlast the calls after them. -/
  registered : (empty.run calls).roots = remaining calls
  /-- The handles of the registrations that remain come before the reports of the scanners that
  remain. -/
  enumerates : (empty.run calls).enumerate =
    (remaining calls).map Root.handle ++ (installed 0 calls).flatMap Scanner.report
  /-- A registration that is taken back leaves no trace. -/
  restores : ∀ source handle between, (∀ call ∈ between, call.names source = false) →
    (empty.run (calls ++ .register source handle :: between ++
      [.unregister source handle])).rootsOf source = (empty.run calls).rootsOf source
  /-- The number of a scanner that was removed is neither valid nor given to another one. -/
  retires : ∀ before later id, calls = before ++ .removeScanner id :: later →
    ((empty.run before).removeScanner id).isSome = true →
      (empty.run calls).removeScanner id = none ∧
        ∀ report, ((empty.run calls).addScanner report).1 ≠ id

theorem unregister_cases (set : RootSet) (source : RootSource) (handle : Handle) :
    (set.unregister source handle = none ∧ ⟨source, handle⟩ ∉ set.roots) ∨
      ∃ before behind after, set.unregister source handle = some after ∧
        set.roots = before ++ ⟨source, handle⟩ :: behind ∧ ⟨source, handle⟩ ∉ behind ∧
          after.roots = before ++ behind := by
  unfold unregister
  dsimp only
  split
  · next member =>
    obtain ⟨later, earlier, new, split, erased⟩ := List.exists_erase_eq member
    refine .inr ⟨earlier.reverse, later.reverse, _, rfl, ?_, by simpa using new, ?_⟩
    · simp [roots, split]
    · simp [roots, erased]
  · next missing => exact .inl ⟨rfl, by simpa [roots] using missing⟩

/-- Whatever the sources and the scanners did, they stay apart. -/
theorem keepsApart (calls : List Call) (few : installations calls < 2 ^ 32) : KeepsApart calls where
  roots := rootsOf_run calls
  answers source := (projects_empty source).trace
  unregisters := unregister_cases _
  registered := roots_run calls
  enumerates := by rw [enumerate, roots_run, (numbered_run few).2.2]
  restores source handle between := rootsOf_restored calls between source handle
  retires := by
    rintro before later id rfl valid
    have retired := retired_run few valid
    exact ⟨retired.removeScanner_eq_none, retired.addScanner_ne⟩

/-- Two frames that register the same handle, and a scanner that is replaced by another one. -/
def twoFrames : List Call :=
  [.register 1 ⟨5, 0⟩, .addScanner [⟨7, 0⟩], .register 2 ⟨5, 0⟩, .register 1 ⟨6, 0⟩,
    .register 1 ⟨5, 0⟩, .unregister 2 ⟨5, 0⟩, .unregister 1 ⟨5, 0⟩, .removeScanner ⟨0⟩,
    .addScanner [⟨8, 0⟩], .unregisterSource 2]

theorem keepsApart_twoFrames : installations twoFrames < 2 ^ 32 ∧ KeepsApart twoFrames :=
  ⟨by decide, keepsApart twoFrames (by decide)⟩

end RootSet

end CompactingHeap
