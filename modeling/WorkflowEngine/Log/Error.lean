import WorkflowEngine.Decoding.Error
/-!
Why a log sink fails.
-/
set_option autoImplicit false

namespace WorkflowEngine

inductive LogError where
  | unavailable (reason : String)
  | serialization (cause : DecodeError)

def LogError.message : LogError → String
  | .unavailable reason => "log sink unavailable: " ++ reason
  | .serialization cause => "serialization error: " ++ cause.message

end WorkflowEngine
