import WorkflowEngine.Data.Handle
import WorkflowEngine.Data.Settings
/-!
Operations on sequences. The chunks are written before the header under the sequence's own key,
so that a sequence can be found by name only when it is complete.
-/
set_option autoImplicit false

namespace WorkflowEngine

/-- Cuts a list into pieces of `size` items, the last one shorter. -/
def chunksOf {α : Type} (size : Nat) : List α → List (List α)
  | [] => []
  | a :: rest => (a :: rest.take (size - 1)) :: chunksOf size (rest.drop (size - 1))
  termination_by items => items.length
  decreasing_by simp only [List.length_drop, List.length_cons]; omega

namespace Sequence

/-- The name of a chunk has at least six digits. -/
def chunkName (i : Nat) : String :=
  let ds := Nat.toDigits 10 i
  "chunk-" ++ String.ofList (List.replicate (6 - ds.length) '0' ++ ds)

def chunkKey (key : Key) (i : Nat) : Key := key.child (chunkName i)

def headerJson (length chunkSize : UInt64) : Json :=
  .object [("len", .integer length), ("chunk_size", .integer chunkSize)]

def headerDecoder : Decoder (UInt64 × UInt64) :=
  .record "struct SequenceHeader"
    (Layout.pure Prod.mk |>.required "len" Decoder.count |>.required "chunk_size" Decoder.count)

def writeChunks (key : Key) : Nat → List (List Value) → StoreProgram Unit
  | _, [] => pure ()
  | i, chunk :: rest => do
    StoreProgram.createImmutable (chunkKey key i) (Value.array chunk).json.toBytes
    writeChunks key (i + 1) rest

def create (s : DataSettings) (items : List Value) : StoreProgram Sequence := do
  let key ← s.freshKey
  writeChunks key 0 (chunksOf s.chunkSize.toNat items)
  let length := UInt64.ofNat items.length
  StoreProgram.createImmutable key (headerJson length s.chunkSize).toBytes
  return ⟨key, length, s.chunkSize, s.chunkSize_ne_zero⟩

/-- The sequence of a name, by its stored header. -/
def find (s : DataSettings) (name : String) : StoreProgram Sequence := do
  let key := s.key name
  let data ← StoreProgram.readImmutable key
  let (length, chunkSize) ← StoreProgram.decode headerDecoder data
  match ofParts key length chunkSize with
  | .ok q => return q
  | .error reason => throw (.backend reason)

def readChunk (element : Decoder Value) (q : Sequence) (i : Nat) : StoreProgram (List Value) := do
  StoreProgram.decode element.list (← StoreProgram.readImmutable (chunkKey q.key i))

/-- The item at an index; only its chunk is read. -/
def get (element : Decoder Value) (q : Sequence) (index : Nat) : StoreProgram Value := do
  if q.length.toNat ≤ index then
    throw (.notFound (q.key.text ++ "[" ++ toString index ++ "]"))
  let i := index / q.chunkSize.toNat
  let items ← readChunk element q i
  match items[index % q.chunkSize.toNat]? with
  | some v => return v
  | none => throw (.backend ("chunk " ++ toString i ++ " of " ++ q.key.text ++
      " is shorter than expected"))

/-- The items of `count` chunks from the one at `i` on. -/
def readChunks (element : Decoder Value) (q : Sequence) (i : Nat) :
    Nat → StoreProgram (List Value)
  | 0 => pure []
  | count + 1 => do
    let items ← readChunk element q i
    return items ++ (← readChunks element q (i + 1) count)

def toList (element : Decoder Value) (q : Sequence) : StoreProgram (List Value) :=
  readChunks element q 0 q.chunkCount

/-- The first items, at most `n`; no chunk is read after the last of them. -/
def takeChunks (element : Decoder Value) (q : Sequence) (i : Nat) :
    Nat → Nat → StoreProgram (List Value)
  | 0, _ => pure []
  | _ + 1, 0 => pure []
  | count + 1, n + 1 => do
    let items ← readChunk element q i
    if n + 1 ≤ items.length then return items.take (n + 1)
    else return items ++ (← takeChunks element q (i + 1) count (n + 1 - items.length))

def take (element : Decoder Value) (q : Sequence) (n : Nat) : StoreProgram (List Value) :=
  takeChunks element q 0 q.chunkCount n

end Sequence

end WorkflowEngine
