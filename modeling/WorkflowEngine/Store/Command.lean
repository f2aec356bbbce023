import WorkflowEngine.Store.Error
/-!
The operations of a store of versioned entries, as commands with their answers.
-/
set_option autoImplicit false

namespace WorkflowEngine

abbrev Bytes := List UInt8

def Bytes.ofText (s : String) : Bytes := s.toUTF8.data.toList

/-- The text of bytes, which have to be UTF-8. -/
def Bytes.text? (bytes : Bytes) : Option String := String.fromUTF8? ⟨bytes.toArray⟩

/-- Data with the number of writes since its creation. -/
structure Entry where
  version : UInt64
  data : Bytes
  deriving DecidableEq

inductive StoreCommand where
  | create (key : Key) (data : Bytes)
  | overwrite (key : Key) (data : Bytes)
  | get (key : Key)
  | getVersioned (key : Key)
  | compareAndSwap (key : Key) (expected : UInt64) (data : Bytes)
  | contains (key : Key)
  | delete (key : Key)
  deriving DecidableEq

namespace StoreCommand

def key : StoreCommand → Key
  | .create k _ | .overwrite k _ | .get k | .getVersioned k | .compareAndSwap k _ _
  | .contains k | .delete k => k

/-- What a command answers when it does not fail. -/
def Answer : StoreCommand → Type
  | .create _ _ | .overwrite _ _ => Unit
  | .get _ => Option Bytes
  | .getVersioned _ => Option Entry
  | .compareAndSwap _ _ _ | .contains _ | .delete _ => Bool

end StoreCommand

end WorkflowEngine
