import WorkflowEngine.Cluster.Error
import WorkflowEngine.Dispatch.Ledger
import WorkflowEngine.Dispatch.Pool
import WorkflowEngine.Failure.Codec
/-!
Placing evaluations on workers and settling them. A placed evaluation holds a slot of its worker
and a running record until its response comes; then the slot is free and the record ended.
-/
set_option autoImplicit false

namespace WorkflowEngine

/-- What comes back for an evaluation: the text of a reply, or the reason why there is none. -/
inductive Response where
  | reply (text : String)
  | failed (e : TransportError)
  | unplaced

namespace Response

def outcome : Response → Outcome
  | .reply text => Outcome.decode text
  | .failed e => .error (.error (.transport e.message))
  | .unplaced => .error (.error (.transport "no workers available"))

end Response

namespace Outcome

/-- The status of an evaluation or a job that ended so. -/
def status : Outcome → Status
  | .ok _ => .completed
  | .error .cancelled => .cancelled
  | .error (.error _) => .failed

@[simp] theorem isTerminal_status (o : Outcome) : o.status.isTerminal = true := by
  cases o with
  | ok v => rfl
  | error f => cases f <;> rfl

end Outcome

structure Dispatcher where
  pool : Pool
  ledger : Ledger

/-- The worker of an evaluation and its index in the pool. -/
structure Placement where
  slot : Nat
  worker : WorkerId

namespace Dispatcher

def ofWorkers (workers : List WorkerId) : Dispatcher := ⟨.ofWorkers workers, .empty⟩

/-- Places an evaluation. Without workers there is no placement and no record. -/
def place (d : Dispatcher) (id : EvaluationId) (job : JobId) (parent : Option EvaluationId)
    (now : Timestamp) : Option (Placement × Dispatcher) :=
  match d.pool.acquire with
  | none => none
  | some (slot, worker, pool) =>
    some (⟨slot, worker⟩, ⟨pool, d.ledger.add ⟨id, job, parent, worker, .running, now, none⟩⟩)

/-- Frees the slot and ends the record of an evaluation. -/
def settle (d : Dispatcher) (id : EvaluationId) (p : Placement) (response : Response)
    (now : Timestamp) : Outcome × Dispatcher :=
  let outcome := response.outcome
  (outcome, ⟨d.pool.release p.slot, d.ledger.finish id outcome.status now⟩)

end Dispatcher

end WorkflowEngine
