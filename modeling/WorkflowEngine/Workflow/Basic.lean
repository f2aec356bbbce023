import WorkflowEngine.Failure.Basic
import WorkflowEngine.Data.Handle
/-!
Workflows: descriptions of computations that wait, fail, fork and join. They hold no functions,
only the names of registered ones with captured values, so that a workflow can be sent whole.
-/
set_option autoImplicit false

namespace WorkflowEngine

/-- A registered function with the value it captured. -/
structure FunctionRef where
  name : String
  env : Value := .null

/-- What a workflow asks of the world outside. -/
inductive Operation where
  | sleep (millis : UInt64)
  | log (message : String)
  | logFormat (format : String) (args : List Value)
  | workerCount
  | processId
  | workerId
  | invoke (function : String) (arg : Value)
  | cellNew (value : Value) (name : Option String)
  | cellValue (cell : Cell)
  | cellParse (name : String)
  | sequenceNew (items : List Value)
  | sequenceItems (sequence : Sequence)
  | sequenceGet (sequence : Sequence) (index : UInt64)
  | vectorOf (partitions : List Sequence)
  | vectorItems (vector : PartitionVector)
  | atomNew (value : Value)
  | atomRead (atom : Atom)
  | atomSet (atom : Atom) (update : FunctionRef)
  | atomForce (atom : Atom) (value : Value)
  | atomTransact (atom : Atom) (update : FunctionRef)
  | atomFree (atom : Atom)

inductive Workflow where
  | ret (value : Value)
  | bind (body : Workflow) (continuation : FunctionRef)
  | parallel (children : List Workflow)
  | choice (children : List Workflow)
  | perform (operation : Operation)
  | tryWith (body : Workflow) (handler : FunctionRef)
  | raise (error : WorkflowError)

namespace FunctionRef

/-- Equality up to the sign of zero. -/
def same (f g : FunctionRef) : Bool := f.name == g.name && f.env.same g.env

end FunctionRef

def Value.allSame : List Value → List Value → Bool
  | [], [] => true
  | v :: vs, w :: ws => v.same w && allSame vs ws
  | _, _ => false

namespace Operation

/-- Equality up to the sign of zero. -/
def same : Operation → Operation → Bool
  | .sleep a, .sleep b => a == b
  | .log a, .log b => a == b
  | .logFormat a vs, .logFormat b ws => a == b && Value.allSame vs ws
  | .workerCount, .workerCount | .processId, .processId | .workerId, .workerId => true
  | .invoke f v, .invoke g w => f == g && v.same w
  | .cellNew v m, .cellNew w n => v.same w && m == n
  | .cellValue c, .cellValue d => c == d
  | .cellParse m, .cellParse n => m == n
  | .sequenceNew vs, .sequenceNew ws => Value.allSame vs ws
  | .sequenceItems s, .sequenceItems t => s == t
  | .sequenceGet s i, .sequenceGet t j => s == t && i == j
  | .vectorOf ss, .vectorOf ts => ss == ts
  | .vectorItems v, .vectorItems w => v == w
  | .atomNew v, .atomNew w => v.same w
  | .atomRead a, .atomRead b | .atomFree a, .atomFree b => a == b
  | .atomSet a f, .atomSet b g | .atomTransact a f, .atomTransact b g => a == b && f.same g
  | .atomForce a v, .atomForce b w => a == b && v.same w
  | _, _ => false

end Operation

namespace Workflow

mutual
/-- Equality up to the sign of zero. -/
def same : Workflow → Workflow → Bool
  | .ret v, .ret w => v.same w
  | .bind u f, .bind v g | .tryWith u f, .tryWith v g => u.same v && f.same g
  | .parallel us, .parallel vs | .choice us, .choice vs => allSame us vs
  | .perform a, .perform b => a.same b
  | .raise d, .raise e => d.same e
  | _, _ => false

def allSame : List Workflow → List Workflow → Bool
  | [], [] => true
  | u :: us, v :: vs => u.same v && allSame us vs
  | _, _ => false
end

end Workflow

end WorkflowEngine
