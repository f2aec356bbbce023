import WorkflowEngine.Job.Record
/-!
The records of all evaluations, in the order in which they were placed.
-/
set_option autoImplicit false

namespace WorkflowEngine

structure Ledger where
  records : List EvaluationRecord

namespace Ledger

def empty : Ledger := ⟨[]⟩

def add (l : Ledger) (r : EvaluationRecord) : Ledger := ⟨l.records ++ [r]⟩

def find? (l : Ledger) (id : EvaluationId) : Option EvaluationRecord :=
  l.records.find? (·.id = id)

/-- Ends the record of an evaluation if it is still running. -/
def finish (l : Ledger) (id : EvaluationId) (status : Status) (now : Timestamp) : Ledger :=
  ⟨l.records.map fun r => if r.id = id then (r.finish status now).2 else r⟩

def ofJob (l : Ledger) (job : JobId) : List EvaluationRecord := l.records.filter (·.job = job)

def childrenOf (l : Ledger) (parent : EvaluationId) : List EvaluationRecord :=
  l.records.filter (·.parent = some parent)

/-- Drops the records of a job; the number tells how many there were. -/
def prune (l : Ledger) (job : JobId) : Nat × Ledger :=
  ((l.ofJob job).length, ⟨l.records.filter (·.job ≠ job)⟩)

end Ledger

end WorkflowEngine
