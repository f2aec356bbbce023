import WorkflowEngine.Data.Sequence
/-!
Operations on lists of sequences that are read as one.
-/
set_option autoImplicit false

namespace WorkflowEngine.PartitionVector

def get (element : Decoder Value) (v : PartitionVector) (index : Nat) : StoreProgram Value :=
  match locate v.partitions index with
  | some (q, place) => q.get element place
  | none => throw (.notFound ("vector[" ++ toString index ++ "]"))

def readAll (element : Decoder Value) : List Sequence → StoreProgram (List Value)
  | [] => pure []
  | q :: rest => do
    let items ← q.toList element
    return items ++ (← readAll element rest)

def toList (element : Decoder Value) (v : PartitionVector) : StoreProgram (List Value) :=
  readAll element v.partitions

def takeAll (element : Decoder Value) : List Sequence → Nat → StoreProgram (List Value)
  | [], _ => pure []
  | q :: rest, n => do
    let items ← q.take element n
    if n ≤ items.length then return items
    else return items ++ (← takeAll element rest (n - items.length))

/-- The first items, at most `n`. -/
def take (element : Decoder Value) (v : PartitionVector) (n : Nat) : StoreProgram (List Value) :=
  takeAll element v.partitions n

end WorkflowEngine.PartitionVector
