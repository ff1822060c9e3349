import CompactingHeap.Class.Registry
import CompactingHeap.Config
import CompactingHeap.Handle.Table
import CompactingHeap.Interner
import CompactingHeap.RootSet
import CompactingHeap.Space

/-!
# The heap

The heap ties its parts together: the classes, the slabs, the space that the objects live in, the
handles, the interned strings and the roots.  Its operations are programs that read and change it
and may fail; a failure keeps the changes made before it.
-/

namespace CompactingHeap

/-- What a heap is doing.  Between operations it is idle. -/
inductive Phase where
  | idle
  | marking
  | relocating
  | sweeping
deriving DecidableEq, Repr

/-- The name of a phase. -/
def Phase.text : Phase → String
  | idle => "Idle"
  | marking => "Marking"
  | relocating => "Relocating"
  | sweeping => "Sweeping"

/-- What a heap counts while it works. -/
structure Counters where
  collections : Nat := 0
  objectsAllocated : Nat := 0
  bytesAllocated : Nat := 0
  bytesCopied : Nat := 0
  objectsReclaimed : Nat := 0
  /-- Bytes that survived the last collection. -/
  liveBytes : Nat := 0
  arrayReallocations : Nat := 0
  tableResizes : Nat := 0
deriving DecidableEq, Repr

/-- The counters of a heap together with its present sizes. -/
structure Stats extends Counters where
  liveHandles : Nat
  roots : Nat
  usedBytes : Nat
  slabBytes : Nat
  mappedBytes : Nat
  pooledSlabs : Nat
  slabsAcquired : Nat
  slabsReleased : Nat
deriving DecidableEq, Repr

/-- A managed heap. -/
structure Heap where
  config : Config
  classes : Registry
  allocator : SlabAllocator
  space : Space
  handles : HandleTable Address
  interner : Interner
  roots : RootSet
  phase : Phase
  /-- Used bytes from which an allocation that does not fit may collect. -/
  threshold : Nat
  counters : Counters

/-- A program that reads and changes a heap and may fail. -/
abbrev HeapM := ExceptT HeapError (StateM Heap)

namespace HeapM

variable {α β : Type}

/-- Run a program on a heap. -/
def run (program : HeapM α) (heap : Heap) : Except HeapError α × Heap :=
  StateT.run (ExceptT.run program) heap

/-- Ask the heap something without changing it. -/
def ask (question : Heap → Except HeapError α) : HeapM α := do
  match question (← get) with
  | .ok answer => return answer
  | .error error => throw error

/-- Run a program, and go on with its outcome even if it fails. -/
def attempt (program : HeapM α) : HeapM (Except HeapError α) :=
  ExceptT.lift program

@[simp]
theorem run_pure (value : α) (heap : Heap) : (pure value : HeapM α).run heap = (.ok value, heap) :=
  rfl

/-- A program goes on with the value and the heap that its first part leaves, and stops where the
first part fails. -/
theorem run_bind (first : HeapM α) (next : α → HeapM β) (heap : Heap) :
    (first >>= next).run heap =
      match first.run heap with
      | (.ok value, heap) => (next value).run heap
      | (.error error, heap) => (.error error, heap) := by
  change (match first.run heap with | (result, heap) => (ExceptT.bindCont next result).run heap) = _
  rcases first.run heap with ⟨_ | _, _⟩ <;> rfl

/-- If two programs run one after the other and succeed, both of them do. -/
theorem run_bind_eq_ok {first : HeapM α} {next : α → HeapM β} {heap last : Heap} {answer : β}
    (ran : (first >>= next).run heap = (.ok answer, last)) :
    ∃ value middle, first.run heap = (.ok value, middle) ∧
      (next value).run middle = (.ok answer, last) := by
  rw [run_bind] at ran
  rcases before : first.run heap with ⟨error | value, middle⟩
  · rw [before] at ran
    cases ran
  · rw [before] at ran
    exact ⟨value, middle, rfl, ran⟩

@[simp]
theorem run_get (heap : Heap) : (get : HeapM Heap).run heap = (.ok heap, heap) :=
  rfl

@[simp]
theorem run_set (replacement heap : Heap) :
    (set replacement : HeapM PUnit).run heap = (.ok ⟨⟩, replacement) :=
  rfl

@[simp]
theorem run_modify (f : Heap → Heap) (heap : Heap) :
    (modify f : HeapM PUnit).run heap = (.ok ⟨⟩, f heap) :=
  rfl

@[simp]
theorem run_throw (error : HeapError) (heap : Heap) :
    (throw error : HeapM α).run heap = (.error error, heap) :=
  rfl

@[simp]
theorem run_ask (question : Heap → Except HeapError α) (heap : Heap) :
    (ask question).run heap = (question heap, heap) := by
  unfold ask
  rw [run_bind]
  simp only [run_get]
  cases question heap <;> rfl

/-- If a program succeeds that starts with a question, the question has an answer. -/
theorem run_ask_bind_eq_ok {question : Heap → Except HeapError α} {next : α → HeapM β}
    {heap last : Heap} {answer : β}
    (ran : (ask question >>= next).run heap = (.ok answer, last)) :
    ∃ value, question heap = .ok value ∧ (next value).run heap = (.ok answer, last) := by
  obtain ⟨value, middle, asks, ran⟩ := run_bind_eq_ok ran
  rw [run_ask] at asks
  obtain ⟨answers, rfl⟩ := Prod.mk.inj asks
  exact ⟨value, answers, ran⟩

@[simp]
theorem run_attempt (program : HeapM α) (heap : Heap) :
    (attempt program).run heap = (.ok (program.run heap).1, (program.run heap).2) :=
  rfl

end HeapM

namespace Heap

/-- An empty heap with settings that have been accepted, on memory of the given system. -/
def new (system : MemorySystem) (config : Config) : Except HeapError Heap :=
  match config.validate with
  | .error error => .error error
  | .ok () =>
      .ok { config
            classes := .initial
            allocator := .new system config.slabBytes config.maxHeapBytes config.slabPool
            space := .empty 0
            handles := .empty
            interner := .empty
            roots := .empty
            phase := .idle
            threshold := config.minCollectBytes
            counters := {} }

/-- A heap is new if its settings were accepted and nothing has happened in it. -/
theorem new_eq_ok_iff {system : MemorySystem} {config : Config} {heap : Heap} :
    new system config = .ok heap ↔ config.validate = .ok () ∧
      heap =
        { config
          classes := .initial
          allocator := .new system config.slabBytes config.maxHeapBytes config.slabPool
          space := .empty 0
          handles := .empty
          interner := .empty
          roots := .empty
          phase := .idle
          threshold := config.minCollectBytes
          counters := {} } := by
  unfold new
  cases config.validate with
  | error error => simp
  | ok accepted => simp [eq_comm]

/-- Bytes handed out in the active slabs, padding included. -/
def usedBytes (heap : Heap) : Nat :=
  heap.space.usedBytes

/-- Bytes of the active slabs. -/
def slabBytes (heap : Heap) : Nat :=
  heap.space.slabBytes

/-- The counters and sizes of a heap. -/
def stats (heap : Heap) : Stats :=
  { heap.counters with
    liveHandles := heap.handles.live
    roots := heap.roots.size
    usedBytes := heap.usedBytes
    slabBytes := heap.slabBytes
    mappedBytes := heap.allocator.mapped
    pooledSlabs := heap.allocator.pool.length
    slabsAcquired := heap.allocator.acquired
    slabsReleased := heap.allocator.released }

/-- Register a class, with a byte tail if `byteTail` holds. -/
def register (name : String) (size align : Nat) (trace : List TraceEntry) (byteTail : Bool) :
    HeapM ClassId := do
  let heap ← get
  match heap.classes.register name size align trace byteTail with
  | .ok (id, classes) =>
      set { heap with classes }
      return id
  | .error error => throw error

/-- The identifier of the class of a name. -/
def lookupClass (heap : Heap) (name : String) : Except HeapError ClassId :=
  (heap.classes.lookup name).map Descriptor.id

/-- The address and the resident that a handle names. -/
def residentOf (heap : Heap) (handle : Handle) : Except HeapError (Address × Resident) :=
  match heap.handles.resolve handle with
  | .error error => .error error
  | .ok address =>
      match heap.space.resident? address with
      | some resident => .ok (address, resident)
      | none => .error (.fault (.missingObject address))

/-- The object that a handle names. -/
def objectOf (heap : Heap) (handle : Handle) : Except HeapError HeapObject :=
  (heap.residentOf handle).map fun found => found.2.object

/-- Change the object that a handle names; a stale handle changes nothing. -/
def modifyObject (heap : Heap) (handle : Handle) (f : HeapObject → HeapObject) : Heap :=
  match heap.handles.resolve handle with
  | .ok address => { heap with space := heap.space.modify address f }
  | .error _ => heap

/-- Run an operation of the handle table on the table of the heap. -/
def onHandles {α : Type}
    (operation : HandleTable Address → Except HeapError α × HandleTable Address) : HeapM α :=
  ExceptT.mk fun heap =>
    let (outcome, handles) := operation heap.handles
    (outcome, { heap with handles })

@[simp]
theorem run_onHandles {α : Type}
    (operation : HandleTable Address → Except HeapError α × HandleTable Address) (heap : Heap) :
    (onHandles operation).run heap =
      ((operation heap.handles).1, { heap with handles := (operation heap.handles).2 }) :=
  rfl

end Heap

end CompactingHeap
