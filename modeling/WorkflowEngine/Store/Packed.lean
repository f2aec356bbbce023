import WorkflowEngine.Store.Command
import WorkflowEngine.Store.Table
/-!
The store in a table of bytes: an entry is packed into eight bytes of its version, the most
significant one first, and its data, and stands under the text of its key.
-/
set_option autoImplicit false

namespace WorkflowEngine

namespace Entry

/-- The last `count` bytes of a number, the most significant one first. -/
def bigEndian : Nat → Nat → Bytes
  | 0, _ => []
  | count + 1, n => bigEndian count (n / 256) ++ [UInt8.ofNat n]

def ofBigEndian (bytes : Bytes) : Nat := bytes.foldl (fun n b => n * 256 + b.toNat) 0

def headerSize : Nat := 8

def pack (e : Entry) : Bytes := bigEndian headerSize e.version.toNat ++ e.data

/-- Bytes without a whole header are no entry. -/
def unpack (raw : Bytes) : Except StoreError Entry :=
  if raw.length < headerSize then
    .error (.backend ("corrupt entry: " ++ toString raw.length ++
      " bytes is shorter than the version header"))
  else .ok ⟨UInt64.ofNat (ofBigEndian (raw.take headerSize)), raw.drop headerSize⟩

end Entry

structure PackedStore where
  table : Table String Bytes

namespace PackedStore

def empty : PackedStore := ⟨.empty⟩

/-- The entry under the text of a key. -/
def read (p : PackedStore) (flat : String) : Except StoreError (Option Entry) :=
  match p.table.get? flat with
  | none => .ok none
  | some raw => (Entry.unpack raw).map some

def write (p : PackedStore) (flat : String) (entry : Entry) : PackedStore :=
  ⟨p.table.insert flat entry.pack⟩

/-- Puts raw bytes under a text. -/
def putRaw (p : PackedStore) (flat : String) (raw : Bytes) : PackedStore :=
  ⟨p.table.insert flat raw⟩

/-- The answer of a command and the store after it. Only deletion does not look at the entry. -/
def run (p : PackedStore) : (c : StoreCommand) → Except StoreError c.Answer × PackedStore
  | .create key data =>
    match p.read key.text with
    | .error e => (.error e, p)
    | .ok (some _) => (.error (.alreadyExists key.text), p)
    | .ok none => (.ok (), p.write key.text ⟨0, data⟩)
  | .overwrite key data =>
    match p.read key.text with
    | .error e => (.error e, p)
    | .ok (some entry) => (.ok (), p.write key.text ⟨entry.version + 1, data⟩)
    | .ok none => (.error (.notFound key.text), p)
  | .get key => ((p.read key.text).map fun entry => entry.map Entry.data, p)
  | .getVersioned key => (p.read key.text, p)
  | .compareAndSwap key expected data =>
    match p.read key.text with
    | .error e => (.error e, p)
    | .ok (some entry) =>
      if entry.version = expected then (.ok true, p.write key.text ⟨entry.version + 1, data⟩)
      else (.ok false, p)
    | .ok none => (.error (.notFound key.text), p)
  | .contains key => ((p.read key.text).map Option.isSome, p)
  | .delete key => (.ok (p.table.get? key.text).isSome, ⟨p.table.erase key.text⟩)

end PackedStore

end WorkflowEngine
