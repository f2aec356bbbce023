import WorkflowEngine.Store.Key
/-!
Handles of stored data. They are plain data and travel inside workflows; only the chunk size of
a sequence is checked when a handle is read.
-/
set_option autoImplicit false

namespace WorkflowEngine

/-- A value that is written once. -/
structure Cell where
  key : Key
  deriving DecidableEq

/-- A mutable slot. -/
structure Atom where
  key : Key
  deriving DecidableEq

/-- A list stored in chunks of equal size, the last one shorter. -/
structure Sequence where
  key : Key
  length : UInt64
  chunkSize : UInt64
  chunkSize_ne_zero : chunkSize ≠ 0
  deriving DecidableEq

/-- A list of sequences read as one. -/
structure PartitionVector where
  partitions : List Sequence
  deriving DecidableEq

namespace Cell

def toJson (c : Cell) : Json := .object [("key", c.key.toJson)]

def decoder : Decoder Cell :=
  .record "struct CloudCell" (Layout.pure Cell.mk |>.required "key" Key.decoder)

end Cell

namespace Atom

def toJson (a : Atom) : Json := .object [("key", a.key.toJson)]

def decoder : Decoder Atom :=
  .record "struct CloudAtom" (Layout.pure Atom.mk |>.required "key" Key.decoder)

end Atom

namespace Sequence

def zeroChunk (key : Key) : String := "sequence " ++ key.text ++ " has a zero chunk size"

def ofParts (key : Key) (length chunkSize : UInt64) : Except String Sequence :=
  if h : chunkSize = 0 then .error (zeroChunk key) else .ok ⟨key, length, chunkSize, h⟩

def toJson (s : Sequence) : Json :=
  .object [("key", s.key.toJson), ("len", .integer s.length), ("chunk_size", .integer s.chunkSize)]

def layout : Layout (Key × UInt64 × UInt64) :=
  Layout.pure (fun key length chunkSize => (key, length, chunkSize))
    |>.required "key" Key.decoder
    |>.required "len" Decoder.count
    |>.required "chunk_size" Decoder.count

def decoder : Decoder Sequence :=
  (Decoder.record "struct SequenceHandle" layout).refine
    fun (key, length, chunkSize) => ofParts key length chunkSize

/-- The number of chunks that hold the items. -/
def chunkCount (s : Sequence) : Nat :=
  (s.length.toNat + s.chunkSize.toNat - 1) / s.chunkSize.toNat

end Sequence

namespace PartitionVector

def toJson (v : PartitionVector) : Json :=
  .object [("partitions", .array (v.partitions.map Sequence.toJson))]

def decoder : Decoder PartitionVector :=
  .record "struct CloudVector"
    (Layout.pure PartitionVector.mk |>.required "partitions" Sequence.decoder.list)

def length (v : PartitionVector) : Nat := v.partitions.foldr (·.length.toNat + ·) 0

/-- The partition and the place in it of an index. -/
def locate : List Sequence → Nat → Option (Sequence × Nat)
  | [], _ => none
  | s :: rest, index =>
    if index < s.length.toNat then some (s, index) else locate rest (index - s.length.toNat)

end PartitionVector

end WorkflowEngine
