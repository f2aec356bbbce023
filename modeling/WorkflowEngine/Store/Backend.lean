import WorkflowEngine.Store.Memory
import WorkflowEngine.Store.Packed
/-!
The two kinds of store behind one interface.
-/
set_option autoImplicit false

namespace WorkflowEngine

inductive Backend where
  | memory (m : MemoryStore)
  | packed (p : PackedStore)

namespace Backend

def run : Backend → (c : StoreCommand) → Except StoreError c.Answer × Backend
  | .memory m, c => (m.run c).map id .memory
  | .packed p, c => (p.run c).map id .packed

end Backend

end WorkflowEngine
