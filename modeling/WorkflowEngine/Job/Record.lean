import WorkflowEngine.Uuid
import WorkflowEngine.Timestamp
import WorkflowEngine.Decoding.Variant
/-!
Records of jobs and of the evaluations they consist of. A record starts running and ends once.
-/
set_option autoImplicit false

namespace WorkflowEngine

structure JobId where
  uuid : Uuid
  deriving DecidableEq

structure EvaluationId where
  uuid : Uuid
  deriving DecidableEq

structure WorkerId where
  name : String
  deriving DecidableEq

def WorkerId.indexed (i : Nat) : WorkerId := ⟨"worker-" ++ toString i⟩

inductive Status where
  | running
  | completed
  | failed
  | cancelled
  deriving DecidableEq, Repr

structure Job where
  id : JobId
  name : String
  status : Status
  startedAt : Timestamp
  completedAt : Option Timestamp
  error : Option String

structure EvaluationRecord where
  id : EvaluationId
  job : JobId
  parent : Option EvaluationId
  worker : WorkerId
  status : Status
  startedAt : Timestamp
  completedAt : Option Timestamp

namespace Status

def isTerminal (s : Status) : Bool := s != .running

def text : Status → String
  | .running => "running"
  | .completed => "completed"
  | .failed => "failed"
  | .cancelled => "cancelled"

def toJson (s : Status) : Json := .string s.text

def decoder : Decoder Status :=
  .named [("running", .running), ("completed", .completed), ("failed", .failed),
    ("cancelled", .cancelled)]

end Status

def JobId.decoder : Decoder JobId := Uuid.decoder.map .mk

def EvaluationId.decoder : Decoder EvaluationId := Uuid.decoder.map .mk

def WorkerId.decoder : Decoder WorkerId := Decoder.string.map .mk

/-- An absent part is written as null. -/
def Json.ofOption {α : Type} (f : α → Json) : Option α → Json
  | none => .null
  | some a => f a

namespace Job

def toJson (j : Job) : Json :=
  .object [("id", j.id.uuid.toJson), ("name", .string j.name), ("status", j.status.toJson),
    ("started_at", j.startedAt.toJson), ("completed_at", .ofOption Timestamp.toJson j.completedAt),
    ("error", .ofOption .string j.error)]

def layout : Layout Job :=
  Layout.pure Job.mk
    |>.required "id" JobId.decoder
    |>.required "name" Decoder.string
    |>.required "status" Status.decoder
    |>.required "started_at" Timestamp.decoder
    |>.optional "completed_at" Timestamp.decoder
    |>.optional "error" Decoder.string

def decoder : Decoder Job := .record "struct Job" layout

end Job

namespace EvaluationRecord

/-- Ends a running record; a record that has ended stays as it is. -/
def finish (r : EvaluationRecord) (status : Status) (now : Timestamp) :
    Bool × EvaluationRecord :=
  if r.status.isTerminal then (false, r)
  else (true, { r with status, completedAt := some now })

def toJson (r : EvaluationRecord) : Json :=
  .object [("id", r.id.uuid.toJson), ("job_id", r.job.uuid.toJson),
    ("parent", .ofOption (·.uuid.toJson) r.parent), ("worker", .string r.worker.name),
    ("status", r.status.toJson), ("started_at", r.startedAt.toJson),
    ("completed_at", .ofOption Timestamp.toJson r.completedAt)]

def layout : Layout EvaluationRecord :=
  Layout.pure EvaluationRecord.mk
    |>.required "id" EvaluationId.decoder
    |>.required "job_id" JobId.decoder
    |>.optional "parent" EvaluationId.decoder
    |>.required "worker" WorkerId.decoder
    |>.required "status" Status.decoder
    |>.required "started_at" Timestamp.decoder
    |>.optional "completed_at" Timestamp.decoder

def decoder : Decoder EvaluationRecord := .record "struct EvaluationRecord" layout

end EvaluationRecord

end WorkflowEngine
