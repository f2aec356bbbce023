import WorkflowEngine.Job.Record
/-!
Entries of job logs, and messages made from a format and arguments.
-/
set_option autoImplicit false

namespace WorkflowEngine

structure LogEntry where
  job : JobId
  worker : WorkerId
  timestamp : Timestamp
  message : String
  deriving DecidableEq

namespace LogEntry

def toJson (e : LogEntry) : Json :=
  .object [("job_id", e.job.uuid.toJson), ("worker", .string e.worker.name),
    ("timestamp", e.timestamp.toJson), ("message", .string e.message)]

def layout : Layout LogEntry :=
  Layout.pure LogEntry.mk
    |>.required "job_id" JobId.decoder
    |>.required "worker" WorkerId.decoder
    |>.required "timestamp" Timestamp.decoder
    |>.required "message" Decoder.string

def decoder : Decoder LogEntry := .record "struct LogEntry" layout

end LogEntry

/-- A string stands for itself, any other value for its text. -/
def Value.display (v : Value) : List Char :=
  match v.json with
  | .string s => s.toList
  | j => j.write []

/-- Each placeholder takes the next argument; placeholders without an argument stay, and
arguments without a placeholder follow after a space each. -/
def formatChars : List Char → List Value → List Char
  | '\x7b' :: '\x7d' :: rest, v :: args => v.display ++ formatChars rest args
  | '\x7b' :: '\x7d' :: rest, [] => '\x7b' :: '\x7d' :: formatChars rest []
  | c :: rest, args => c :: formatChars rest args
  | [], args => args.flatMap fun v => ' ' :: v.display

def formatMessage (format : String) (args : List Value) : String :=
  String.ofList (formatChars format.toList args)

end WorkflowEngine
