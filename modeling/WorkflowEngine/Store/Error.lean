import WorkflowEngine.Failure.Codec
import WorkflowEngine.Store.Key
/-!
Why a store operation fails.
-/
set_option autoImplicit false

namespace WorkflowEngine

inductive StoreError where
  | notFound (place : String)
  | alreadyExists (place : String)
  | exhausted (place : String) (attempts : Nat)
  | serialization (cause : DecodeError)
  | backend (reason : String)

namespace StoreError

def message : StoreError → String
  | .notFound place => "entry not found: " ++ place
  | .alreadyExists place => "entry already exists: " ++ place
  | .exhausted place attempts =>
    "transaction on " ++ place ++ " abandoned after " ++ toString attempts ++
      " conflicting attempts"
  | .serialization cause => "serialization error: " ++ cause.message
  | .backend reason => "storage backend error: " ++ reason

/-- Missing entries and texts that do not decode keep their kind. -/
def toWorkflowError : StoreError → WorkflowError
  | .notFound place => .notFound ("entry not found: " ++ place)
  | .serialization cause => .serialization cause.message
  | e => .store e.message

end StoreError

end WorkflowEngine
