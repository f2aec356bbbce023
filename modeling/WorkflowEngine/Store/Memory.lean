import WorkflowEngine.Store.Command
import WorkflowEngine.Store.Table
/-!
The store in memory: entries under their keys.
-/
set_option autoImplicit false

namespace WorkflowEngine

structure MemoryStore where
  table : Table Key Entry

namespace MemoryStore

def empty : MemoryStore := ⟨.empty⟩

def size (m : MemoryStore) : Nat := m.table.size

def set (m : MemoryStore) (key : Key) (entry : Entry) : MemoryStore := ⟨m.table.insert key entry⟩

/-- The answer of a command and the store after it. -/
def run (m : MemoryStore) : (c : StoreCommand) → Except StoreError c.Answer × MemoryStore
  | .create key data =>
    match m.table.get? key with
    | some _ => (.error (.alreadyExists key.text), m)
    | none => (.ok (), m.set key ⟨0, data⟩)
  | .overwrite key data =>
    match m.table.get? key with
    | some entry => (.ok (), m.set key ⟨entry.version + 1, data⟩)
    | none => (.error (.notFound key.text), m)
  | .get key => (.ok ((m.table.get? key).map Entry.data), m)
  | .getVersioned key => (.ok (m.table.get? key), m)
  | .compareAndSwap key expected data =>
    match m.table.get? key with
    | some entry =>
      if entry.version = expected then (.ok true, m.set key ⟨entry.version + 1, data⟩)
      else (.ok false, m)
    | none => (.error (.notFound key.text), m)
  | .contains key => (.ok (m.table.get? key).isSome, m)
  | .delete key => (.ok (m.table.get? key).isSome, ⟨m.table.erase key⟩)

end MemoryStore

end WorkflowEngine
