import CompactingHeap.Error

/-!
# Class descriptors

A descriptor says how large an instance of a class is, how it is aligned, which of its words hold
references, and what follows the fixed part: nothing, raw bytes, or a run of references whose length
is kept in the last fixed word.  Descriptors are checked once, when they are made.
-/

namespace CompactingHeap

/-- One place inside an instance that holds references. -/
inductive TraceEntry where
  /-- A single reference at this payload offset. -/
  | ref (offset : Nat)
  /-- A length word at this offset, followed by that many references. -/
  | run (offset : Nat)
deriving DecidableEq, Repr

/-- The payload offset of a traced place. -/
def TraceEntry.offset : TraceEntry → Nat
  | ref offset => offset
  | run offset => offset

/-- What follows the fixed part of an instance. -/
inductive Tail where
  | none
  | bytes
  | references
deriving DecidableEq, Repr

/-- Bytes that one element of the tail takes. -/
def Tail.elementBytes : Tail → Nat
  | none => 0
  | bytes => 1
  | references => wordBytes

/-- The largest number of traced places in a class. -/
def maxTraceEntries : Nat := 32

namespace Descriptor

/-- Split a name at its dots. -/
def segments : List Char → List (List Char)
  | [] => [[]]
  | c :: rest =>
      match segments rest with
      | [] => [[c]]
      | first :: others => if c = '.' then [] :: first :: others else (c :: first) :: others

/-- Check the traced places in order.  `seen` holds the offsets checked before, and `tail` the kind
of tail found so far; the result is the kind of tail after all places. -/
def checkTrace (size : Nat) (seen : List Nat) (tail : Tail) :
    List TraceEntry → Except DescriptorFlaw Tail
  | [] => .ok tail
  | entry :: rest =>
      let offset := entry.offset
      if offset % wordBytes ≠ 0 then .error (.unaligned offset)
      else if size < offset + wordBytes then .error (.outside offset size)
      else if offset ∈ seen then .error (.repeated offset)
      else
        match entry with
        | .ref _ => checkTrace size (offset :: seen) tail rest
        | .run _ =>
            if tail ≠ .none then .error .secondTail
            else if offset + wordBytes ≠ size then .error (.runNotLast offset)
            else checkTrace size (offset :: seen) .references rest

/-- Check the description of a class and find the kind of its tail. -/
def check (name : String) (size align : Nat) (trace : List TraceEntry) (byteTail : Bool) :
    Except DescriptorFlaw Tail :=
  if (segments name.toList).any List.isEmpty then .error .nameSegments
  else if !isPowerOfTwo align || pageBytes < align then .error (.alignment align)
  else if maxTraceEntries < trace.length then .error (.entryCount trace.length)
  else if !trace.isEmpty && align < wordBytes then .error .referenceAlignment
  else checkTrace size [] (if byteTail then .bytes else .none) trace

end Descriptor

/-- The layout data of a class.  It cannot be had without passing the check: the last field says
that the description was accepted with this kind of tail. -/
structure Descriptor where
  id : ClassId
  name : String
  size : Nat
  align : Nat
  trace : List TraceEntry
  tail : Tail
  accepted : ∃ byteTail, Descriptor.check name size align trace byteTail = .ok tail
deriving DecidableEq, Repr

namespace Descriptor

/-- Make the descriptor of a class, or tell what is wrong with its description. -/
def make (id : ClassId) (name : String) (size align : Nat) (trace : List TraceEntry)
    (byteTail : Bool) : Except HeapError Descriptor :=
  match accepted : check name size align trace byteTail with
  | .ok tail => .ok { id, name, size, align, trace, tail, accepted := ⟨byteTail, accepted⟩ }
  | .error flaw => .error (.invalidDescriptor name flaw)

/-- The offset of the length word, if instances carry a run of references. -/
def runOffset? (descriptor : Descriptor) : Option Nat :=
  descriptor.trace.findSome? fun
    | .run offset => some offset
    | .ref _ => Option.none

/-- Is there a single reference at this offset? -/
def isRefField (descriptor : Descriptor) (offset : Nat) : Bool :=
  descriptor.trace.contains (.ref offset)

/-- Is the word at this offset plain data, clear of every traced place? -/
def isDataWord (descriptor : Descriptor) (offset : Nat) : Bool :=
  offset % wordBytes = 0 && offset + wordBytes ≤ descriptor.size &&
    !descriptor.trace.any (·.offset = offset)

/-- The offsets of the reference slots of an instance, in trace order, given the length of its
run. -/
def slotOffsets (descriptor : Descriptor) (runLength : Nat) : List Nat :=
  descriptor.trace.flatMap fun
    | .ref offset => [offset]
    | .run offset => (List.range runLength).map fun index => offset + wordBytes * (index + 1)

/-- Payload bytes of an instance with `extra` tail elements, unless they exceed a word. -/
def payloadBytes? (descriptor : Descriptor) (extra : Nat) : Option Nat := do
  let tail ← checkedMul extra descriptor.tail.elementBytes
  checkedAdd tail descriptor.size

end Descriptor

end CompactingHeap
