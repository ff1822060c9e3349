import CompactingHeap.Handle.Basic

/-!
# Roots

Objects are kept alive from outside the heap in two ways: by explicit registrations, each tagged
with the source that made it so that a whole frame can be dropped at once, and by scanners, which
report handles whenever a collection asks for them.  A scanner is represented by what it reports at
present.
-/

namespace CompactingHeap

/-- Who registered a root. -/
abbrev RootSource := UInt32

/-- The source of registrations that name none. -/
def RootSource.default : RootSource := 0

/-- One registration. -/
structure Root where
  source : RootSource
  handle : Handle
deriving DecidableEq, Repr

/-- The number of an installed scanner. -/
structure ScannerId where
  index : UInt32
deriving DecidableEq, Repr

/-- Scanner identifiers are written with their number in brackets. -/
def ScannerId.text (id : ScannerId) : String :=
  s!"ScannerId({id.index})"

/-- An installed scanner with its present report. -/
structure Scanner where
  id : ScannerId
  report : List Handle
deriving DecidableEq, Repr

/-- The registrations, the latest first, and the scanners in the order in which they were
installed. -/
structure RootSet where
  latest : List Root
  scanners : List Scanner
  nextScanner : UInt32
deriving DecidableEq, Repr

namespace RootSet

/-- No registrations and no scanners. -/
def empty : RootSet :=
  { latest := [], scanners := [], nextScanner := 0 }

/-- The registrations in the order in which they were made. -/
def roots (set : RootSet) : List Root :=
  set.latest.reverse

/-- The number of registrations. -/
def size (set : RootSet) : Nat :=
  set.latest.length

/-- Add a registration. -/
def register (set : RootSet) (source : RootSource) (handle : Handle) : RootSet :=
  { set with latest := ⟨source, handle⟩ :: set.latest }

/-- Remove the most recent registration of `handle` by `source`, if there is one. -/
def unregister (set : RootSet) (source : RootSource) (handle : Handle) : Option RootSet :=
  let root : Root := ⟨source, handle⟩
  if root ∈ set.latest then some { set with latest := set.latest.erase root }
  else none

/-- Unregistering the last registration takes exactly that one back. -/
theorem unregister_register (set : RootSet) (source : RootSource) (handle : Handle) :
    (set.register source handle).unregister source handle = some set := by
  simp [unregister, register]

theorem unregister_eq_none_iff {set : RootSet} {source : RootSource} {handle : Handle} :
    set.unregister source handle = none ↔ ⟨source, handle⟩ ∉ set.roots := by
  simp [unregister, roots]

/-- Remove everything that `source` registered, and tell how many registrations went. -/
def unregisterSource (set : RootSet) (source : RootSource) : Nat × RootSet :=
  let kept := set.latest.filter fun root => root.source ≠ source
  (set.latest.length - kept.length, { set with latest := kept })

/-- Is there a registration of `handle`, by whichever source? -/
def contains (set : RootSet) (handle : Handle) : Bool :=
  set.latest.any fun root => root.handle = handle

theorem contains_iff {set : RootSet} {handle : Handle} :
    set.contains handle = true ↔ ∃ source, ⟨source, handle⟩ ∈ set.roots := by
  simp only [contains, roots, List.mem_reverse, List.any_eq_true, decide_eq_true_eq]
  constructor
  · rintro ⟨⟨source, _⟩, member, rfl⟩
    exact ⟨source, member⟩
  · rintro ⟨source, member⟩
    exact ⟨_, member, rfl⟩

/-- Install a scanner that reports the given handles. -/
def addScanner (set : RootSet) (report : List Handle) : ScannerId × RootSet :=
  let id : ScannerId := ⟨set.nextScanner⟩
  (id, { set with
    scanners := set.scanners ++ [⟨id, report⟩]
    nextScanner := set.nextScanner + 1 })

/-- From now on the scanner, if it is still installed, reports the given handles. -/
def setReport (set : RootSet) (id : ScannerId) (report : List Handle) : RootSet :=
  { set with
    scanners := set.scanners.map fun scanner =>
      if scanner.id = id then { scanner with report := report } else scanner }

/-- Remove a scanner, if it is still installed. -/
def removeScanner (set : RootSet) (id : ScannerId) : Option RootSet :=
  if set.scanners.any (·.id = id) then
    some { set with scanners := set.scanners.eraseP (·.id = id) }
  else none

/-- The registered handles in registration order, then the reports of the scanners in installation
order. -/
def enumerate (set : RootSet) : List Handle :=
  set.roots.map Root.handle ++ set.scanners.flatMap Scanner.report

@[simp]
theorem enumerate_register (set : RootSet) (source : RootSource) (handle : Handle) :
    (set.register source handle).enumerate =
      set.roots.map Root.handle ++ handle :: set.scanners.flatMap Scanner.report := by
  simp [enumerate, roots, register]

end RootSet

end CompactingHeap
