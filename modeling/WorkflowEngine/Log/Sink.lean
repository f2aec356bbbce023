import WorkflowEngine.Log.Lines
/-!
Where log entries go: streams in memory, files of lines, or a sink that cannot be reached.
-/
set_option autoImplicit false

namespace WorkflowEngine

/-- The entries of each job in the order of their appends. -/
structure MemoryLog where
  streams : Table JobId (List LogEntry)

namespace MemoryLog

def empty : MemoryLog := ⟨.empty⟩

def read (s : MemoryLog) (job : JobId) : List LogEntry := (s.streams.get? job).getD []

def append (s : MemoryLog) (e : LogEntry) : MemoryLog :=
  ⟨s.streams.insert e.job (s.read e.job ++ [e])⟩

theorem read_append (s : MemoryLog) (e : LogEntry) (job : JobId) :
    (s.append e).read job = if e.job = job then s.read job ++ [e] else s.read job := by
  unfold append read
  rw [Table.get?_insert]
  split
  · next same => simp [same]
  · rfl

end MemoryLog

inductive LogSink where
  | memory (s : MemoryLog)
  | lines (s : LineLog)
  | down (reason : String)

namespace LogSink

/-- Whether the entry was stored. -/
def append : LogSink → LogEntry → Bool × LogSink
  | .memory s, e => (true, .memory (s.append e))
  | .lines s, e => (true, .lines (s.append e))
  | .down reason, _ => (false, .down reason)

def read : LogSink → JobId → Except LogError (List LogEntry)
  | .memory s, job => .ok (s.read job)
  | .lines s, job => s.read job
  | .down reason, _ => .error (.unavailable reason)

end LogSink

end WorkflowEngine
