import CompactingHeap.Class.Descriptor

/-!
# Layouts

An object is a header, padding up to the alignment of its class, and the payload; the whole is
rounded up to words.  A layout exists as long as the number of tail elements fits the header and the
size fits a word.
-/

namespace CompactingHeap

/-- Bytes of the header that precedes every payload. -/
def headerBytes : Nat := 24

/-- The alignment of an object, the distance from its start to its payload, and its size. -/
structure Layout where
  align : Nat
  payload : Nat
  size : Nat
deriving DecidableEq, Repr

/-- The layout of an instance with `extra` tail elements, if it has one. -/
def Layout.of? (descriptor : Descriptor) (extra : Nat) : Option Layout := do
  let align := max descriptor.align wordBytes
  let payload := alignUp headerBytes align
  if 2 ^ 32 ≤ extra then none
  else
    let content ← descriptor.payloadBytes? extra
    let total ← checkedAdd content payload
    let padded ← checkedAdd total (wordBytes - 1)
    return { align, payload, size := padded / wordBytes * wordBytes }

end CompactingHeap
