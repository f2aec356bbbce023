import WorkflowEngine.Data.Handle
import WorkflowEngine.Data.Settings
/-!
Operations on cells.
-/
set_option autoImplicit false

namespace WorkflowEngine.Cell

def write (key : Key) (v : Value) : StoreProgram Cell := do
  StoreProgram.createImmutable key v.json.toBytes
  return ⟨key⟩

def create (s : DataSettings) (v : Value) : StoreProgram Cell := do
  write (← s.freshKey) v

def createNamed (s : DataSettings) (name : String) (v : Value) : StoreProgram Cell :=
  write (s.key name) v

/-- The cell of a name, if something is stored there. -/
def find (s : DataSettings) (name : String) : StoreProgram Cell := do
  let key := s.key name
  if ← StoreProgram.contains key then return ⟨key⟩ else throw (.notFound key.text)

/-- The value of a cell, which has to have the element type. -/
def read (element : Decoder Value) (c : Cell) : StoreProgram Value := do
  StoreProgram.decode element (← StoreProgram.readImmutable c.key)

end WorkflowEngine.Cell
