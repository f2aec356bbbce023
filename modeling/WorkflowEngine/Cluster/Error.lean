import WorkflowEngine.Job.Record
import WorkflowEngine.Log.Error
import WorkflowEngine.Store.Error
/-!
What those who submit jobs are told when there is no value.
-/
set_option autoImplicit false

namespace WorkflowEngine

/-- Why no reply came from a worker. -/
inductive TransportError where
  | unreachable (worker : WorkerId)
  | dropped (worker : WorkerId)
  deriving DecidableEq

def TransportError.message : TransportError → String
  | .unreachable worker => "worker " ++ worker.name ++ " is not reachable"
  | .dropped worker => "worker " ++ worker.name ++ " dropped the reply"

inductive EngineError where
  | workflow (e : WorkflowError)
  | cancelled (job : JobId)
  | jobNotFound (job : JobId)
  | jobNotRunning (job : JobId)
  | jobRunning (job : JobId)
  | store (e : StoreError)
  | log (e : LogError)
  | config (reason : String)
  | decode (e : DecodeError)

namespace EngineError

def message : EngineError → String
  | .workflow e => "workflow failed with " ++ e.text
  | .cancelled job => "job " ++ job.uuid.text ++ " was cancelled"
  | .jobNotFound job => "job " ++ job.uuid.text ++ " not found"
  | .jobNotRunning job => "job " ++ job.uuid.text ++ " is not running"
  | .jobRunning job => "job " ++ job.uuid.text ++ " is still running"
  | .store e => "store error: " ++ e.message
  | .log e => "job log error: " ++ e.message
  | .config reason => "configuration error: " ++ reason
  | .decode e => "failed to decode result: " ++ e.message

/-- What is told for the outcome of a job. -/
def ofOutcome (job : JobId) : Outcome → Except EngineError Value
  | .ok v => .ok v
  | .error (.error e) => .error (.workflow e)
  | .error .cancelled => .error (.cancelled job)

end EngineError

end WorkflowEngine
