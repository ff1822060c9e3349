import CompactingHeap.Class.Accepted
import CompactingHeap.Heap.Interning
import CompactingHeap.Heap.Verification
import CompactingHeap.RefTable.Basic
import CompactingHeap.Proofs.Layout
import CompactingHeap.Proofs.TracedSlots
import CompactingHeap.Proofs.Accounts
import CompactingHeap.Proofs.Solvency
import CompactingHeap.Proofs.Placement
import CompactingHeap.Proofs.HandleSlots
import CompactingHeap.Proofs.LiveSlots
import CompactingHeap.Proofs.Soundness
import CompactingHeap.Proofs.Linkage
import CompactingHeap.Proofs.Reading
import CompactingHeap.Proofs.Marking
import CompactingHeap.Proofs.Relocation
import CompactingHeap.Proofs.Sweep
import CompactingHeap.Proofs.Collection
import CompactingHeap.Proofs.Compaction
import CompactingHeap.Proofs.Course
import CompactingHeap.Proofs.Growth
import CompactingHeap.Proofs.Preservation
import CompactingHeap.Proofs.Programs
import CompactingHeap.Proofs.HeapPrograms
import CompactingHeap.Proofs.ValuePrograms
import CompactingHeap.Proofs.ContainerPrograms
import CompactingHeap.Proofs.Operations
import CompactingHeap.Proofs.Reclamation
import CompactingHeap.Proofs.Transparency
import CompactingHeap.Proofs.WellFormed
import CompactingHeap.Proofs.Abandonment
import CompactingHeap.Proofs.Generations
import CompactingHeap.Proofs.Views
import CompactingHeap.Proofs.Allocation
import CompactingHeap.Proofs.Writes
import CompactingHeap.Proofs.Holding
import CompactingHeap.Proofs.Classes
import CompactingHeap.Proofs.Exhaustion
import CompactingHeap.Proofs.Freshness
import CompactingHeap.Proofs.Lasting
import CompactingHeap.Proofs.Enclaves
import CompactingHeap.Proofs.Sparing
import CompactingHeap.Proofs.SparingPrograms
import CompactingHeap.Proofs.SparingContainers
import CompactingHeap.Proofs.Elsewhere
import CompactingHeap.Proofs.Containers
import CompactingHeap.Proofs.Compounds
import CompactingHeap.Proofs.Lists
import CompactingHeap.Proofs.Arrays
import CompactingHeap.Proofs.OwnedArrays
import CompactingHeap.Proofs.Sanity
import CompactingHeap.Proofs.GrowableLists
import CompactingHeap.Proofs.Discretion
import CompactingHeap.Proofs.Interning
import CompactingHeap.Proofs.CanonicalStrings
import CompactingHeap.Proofs.LoadFactor
import CompactingHeap.Proofs.Probing
import CompactingHeap.Proofs.Keys
import CompactingHeap.Proofs.Buckets
import CompactingHeap.Proofs.MakingTables
import CompactingHeap.Proofs.GrowingTables
import CompactingHeap.Proofs.FiniteMaps
import CompactingHeap.Proofs.Conservation
import CompactingHeap.Proofs.Packing
import CompactingHeap.Proofs.NextFit
import CompactingHeap.Proofs.Discovery
import CompactingHeap.Proofs.Canonical
import CompactingHeap.Proofs.Tending
import CompactingHeap.Proofs.HoldBalance
import CompactingHeap.Proofs.Exactness
import CompactingHeap.Proofs.ExactCollections
import CompactingHeap.Proofs.Headroom
import CompactingHeap.Proofs.HighWater
import CompactingHeap.Proofs.Gentleness
import CompactingHeap.Proofs.Restocking
import CompactingHeap.Proofs.Garbage
import CompactingHeap.Proofs.HandleHistories
import CompactingHeap.Proofs.FreeSlots
import CompactingHeap.Proofs.RootSources
import CompactingHeap.Proofs.Reservations
import CompactingHeap.Proofs.Anatomy
import CompactingHeap.Proofs.QualifiedNames
import CompactingHeap.Proofs.Faults
import CompactingHeap.Proofs.Sturdiness
import CompactingHeap.Proofs.Counts
import CompactingHeap.Proofs.Faultless
import CompactingHeap.Proofs.Registration
import CompactingHeap.Proofs.Stores
import CompactingHeap.Proofs.Reallocations
import CompactingHeap.Proofs.LogarithmicGrowth
import CompactingHeap.Proofs.RewrittenKeys
