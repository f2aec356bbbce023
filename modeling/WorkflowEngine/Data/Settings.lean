import WorkflowEngine.Program.Basic
/-!
Where data is stored and how: the keys of data that never changes and of data that does, and
the cache through which the former is read. Names never lead to mutable data, whose container
has a name of its own.
-/
set_option autoImplicit false

namespace WorkflowEngine

structure DataSettings where
  container : String
  chunkSize : UInt64
  retries : UInt32
  chunkSize_ne_zero : chunkSize ≠ 0

namespace DataSettings

/-- Chunks hold one item at least. -/
def ofParts (container : String) (chunkSize : UInt64) (retries : UInt32) : DataSettings :=
  if h : chunkSize = 0 then ⟨container, 1, retries, by decide⟩
  else ⟨container, chunkSize, retries, h⟩

def mutableContainer (s : DataSettings) : String := s.container ++ "#mutable"

def key (s : DataSettings) (name : String) : Key := ⟨s.container, name⟩

def freshKey (s : DataSettings) : StoreProgram Key := do
  let id ← StoreProgram.freshId
  return s.key id.text

def freshMutableKey (s : DataSettings) : StoreProgram Key := do
  let id ← StoreProgram.freshId
  return ⟨s.mutableContainer, id.text⟩

end DataSettings

namespace StoreProgram

/-- Immutable data, from the cache if it is there. -/
def readImmutable (key : Key) : StoreProgram Bytes := do
  match ← cached key with
  | some data => return data
  | none =>
    match ← get key with
    | some data =>
      remember key data
      return data
    | none => throw (.notFound key.text)

/-- Data is cached only after it was written. -/
def createImmutable (key : Key) (data : Bytes) : StoreProgram Unit := do
  create key data
  remember key data

end StoreProgram

/-- The stored form of a document. -/
def Json.toBytes (j : Json) : Bytes := Bytes.ofText j.text

end WorkflowEngine
