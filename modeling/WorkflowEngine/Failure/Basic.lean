import WorkflowEngine.Json.Value
/-!
Errors that workflows raise, faults and outcomes. Cancellation is a fault of its own: it is no
error and no handler sees it.
-/
set_option autoImplicit false

namespace WorkflowEngine

inductive ErrorKind where
  | evaluation
  | store
  | notFound
  | unknownFunction
  | serialization
  | transport
  | user (tag : String)
  deriving DecidableEq

namespace ErrorKind

def text : ErrorKind → String
  | .evaluation => "evaluation"
  | .store => "store"
  | .notFound => "not_found"
  | .unknownFunction => "unknown_function"
  | .serialization => "serialization"
  | .transport => "transport"
  | .user tag => tag

end ErrorKind

/-- An error as data, so that it can travel between workers. -/
structure WorkflowError where
  kind : ErrorKind
  message : String
  payload : Option Value := none

namespace WorkflowError

def evaluation (message : String) : WorkflowError := { kind := .evaluation, message }

def store (message : String) : WorkflowError := { kind := .store, message }

def notFound (message : String) : WorkflowError := { kind := .notFound, message }

def serialization (message : String) : WorkflowError := { kind := .serialization, message }

def transport (message : String) : WorkflowError := { kind := .transport, message }

def user (tag message : String) : WorkflowError := { kind := .user tag, message }

def unknownFunction (name : String) : WorkflowError :=
  { kind := .unknownFunction, message := "function '" ++ name ++ "' is not registered" }

def withPayload (e : WorkflowError) (payload : Value) : WorkflowError :=
  { e with payload := some payload }

def text (e : WorkflowError) : String := e.kind.text ++ ": " ++ e.message

/-- Equality up to the sign of zero in the payload. -/
def same (d e : WorkflowError) : Bool :=
  d.kind == e.kind && d.message == e.message &&
    match d.payload, e.payload with
    | none, none => true
    | some v, some w => v.same w
    | _, _ => false

end WorkflowError

/-- Why an evaluation gives no value. -/
inductive Fault where
  | error (e : WorkflowError)
  | cancelled

/-- How an evaluation ends. -/
abbrev Outcome := Except Fault Value

end WorkflowEngine
