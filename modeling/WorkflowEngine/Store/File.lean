import WorkflowEngine.Store.Packed
/-!
Packed stores on disk. Every command that changes a store is committed before it is answered, so
that a store which is closed leaves its table as the last command left it.
-/
set_option autoImplicit false

namespace WorkflowEngine

/-- What stands on disk: no table before a store was opened there for the first time. -/
structure StoreFile where
  table? : Option (Table String Bytes)

namespace StoreFile

def blank : StoreFile := ⟨none⟩

/-- Opens the store of a file. A table that is missing is made. -/
def load (f : StoreFile) : PackedStore := ⟨f.table?.getD .empty⟩

end StoreFile

/-- Closes a store. -/
def PackedStore.save (p : PackedStore) : StoreFile := ⟨some p.table⟩

end WorkflowEngine
