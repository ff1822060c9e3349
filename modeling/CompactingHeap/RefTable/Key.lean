import CompactingHeap.Heap.Values

/-!
# Keys of tables

Scalars and strings are compared by their content, and all other objects by identity.  The
operations of a table take any function from keys to words as their hash.  The one that they take
by default folds the class and the content, or the handle of an object without content, word by
word.
-/

namespace CompactingHeap

/-- What counts when an object is a key. -/
inductive Key where
  | int (value : Int64)
  | float (bits : UInt64)
  | bool (value : Bool)
  | char (value : Char)
  | string (bytes : Bytes)
  | identity (id : ClassId) (handle : Handle)
deriving DecidableEq

namespace Key

/-- The key that an object is. -/
def ofHandle (heap : Heap) (handle : Handle) : Except HeapError Key := do
  let id ← heap.classOf handle
  if id = .int then return .int (← heap.int handle)
  else if id = .float then return .float (← heap.float handle)
  else if id = .bool then return .bool (← heap.bool handle)
  else if id = .char then return .char (← heap.char handle)
  else if id = .string then return .string (← heap.string handle)
  else return .identity id handle

/-- Are two objects the same key? -/
def same (heap : Heap) (first second : Handle) : Except HeapError Bool := do
  if first = second then return true
  else
    let firstClass ← heap.classOf first
    let secondClass ← heap.classOf second
    if firstClass = secondClass then
      let firstKey ← ofHandle heap first
      let secondKey ← ofHandle heap second
      return firstKey = secondKey
    else return false

/-- The odd multiplier of the hash. -/
def hashMultiplier : UInt64 := 0x517cc1b727220a95

/-- Fold one word into a hash: rotate the hash by five bits, mix the word in, and multiply. -/
def foldWord (hash word : UInt64) : UInt64 :=
  (((hash <<< 5) ||| (hash >>> 59)) ^^^ word) * hashMultiplier

/-- Fold bytes into a hash: eight at a time as one word, then four if as many remain, then single
ones. -/
def foldBytes (hash : UInt64) (bytes : Bytes) : UInt64 :=
  match bytes with
  | a :: b :: c :: d :: e :: f :: g :: h :: rest =>
      foldBytes (foldWord hash (wordOfBytes [a, b, c, d, e, f, g, h])) rest
  | a :: b :: c :: d :: rest =>
      rest.foldl (fun hash byte => foldWord hash byte.toUInt64)
        (foldWord hash (wordOfBytes [a, b, c, d]))
  | rest => rest.foldl (fun hash byte => foldWord hash byte.toUInt64) hash

/-- The number of the class of a key. -/
def classIndex : Key → Nat
  | int _ => ClassId.int.index
  | float _ => ClassId.float.index
  | bool _ => ClassId.bool.index
  | char _ => ClassId.char.index
  | string _ => ClassId.string.index
  | identity id _ => id.index

/-- The hash that tables take by default. -/
def hash (key : Key) : UInt64 :=
  let start := foldWord 0 key.classIndex.toUInt64
  match key with
  | int value => foldWord start value.toUInt64
  | float bits => foldWord start bits
  | bool value => foldWord start (if value then 1 else 0)
  | char value => foldWord start value.val.toUInt64
  | string bytes => foldBytes (foldWord start bytes.length.toUInt64) bytes
  | identity _ handle =>
      foldWord (foldWord start handle.index.toUInt64) handle.generation.toUInt64

end Key

end CompactingHeap
