import WorkflowEngine.Cluster.Schedule
import WorkflowEngine.Config.Load
/-!
What an engine offers: jobs are submitted, joined, cancelled and forgotten, and their records and
logs are read.
-/
set_option autoImplicit false

namespace WorkflowEngine

namespace Cluster

/-- Adds a job, whose scope is inside that of the engine. -/
def submit (c : Cluster) (name : String) (w : Workflow) : JobId × Cluster :=
  let (uuid, c) := c.freshId
  let id : JobId := ⟨uuid⟩
  let (scope, scopes) := c.scopes.child .root
  let entry : JobEntry := ⟨⟨id, name, .running, c.time, none, none⟩, scope⟩
  let jobs := c.jobs.insert id entry
  let threads := c.threads.insert id (.submitted w scope)
  (id, { c with scopes, jobs, threads }.wake (.job id))

def cancel (c : Cluster) (id : JobId) : Except EngineError Cluster :=
  match c.jobs.get? id with
  | none => .error (.jobNotFound id)
  | some entry =>
    if entry.job.status.isTerminal then .error (.jobNotRunning id)
    else .ok (c.cancelScope entry.scope)

/-- Drops what is known of a job that has ended. -/
def forget (c : Cluster) (id : JobId) : Except EngineError Cluster :=
  match c.jobs.get? id with
  | none => .error (.jobNotFound id)
  | some entry =>
    if entry.job.status.isTerminal then
      let dispatcher := { c.dispatcher with ledger := (c.dispatcher.ledger.prune id).2 }
      .ok { c with jobs := c.jobs.erase id, dispatcher }
    else .error (.jobRunning id)

/-- Cancels everything under way; the workers stop when they notice. -/
def shutdown (c : Cluster) : Cluster :=
  let c := c.cancelScope .root
  (List.range c.workers.length).foldl (fun c i => c.wake (.worker i)) c

def job? (c : Cluster) (id : JobId) : Option Job := (c.jobs.get? id).map JobEntry.job

/-- All jobs, the oldest one first. -/
def jobList (c : Cluster) : List Job := c.jobs.entries.map fun (_, entry) => entry.job

def evaluationsOf (c : Cluster) (id : JobId) : List EvaluationRecord :=
  c.dispatcher.ledger.ofJob id

def jobLog (c : Cluster) (id : JobId) : Except EngineError (List LogEntry) :=
  (c.sink.read id).mapError .log

/-- How a job has ended; forgetting the job does not change that. -/
def outcome? (c : Cluster) (id : JobId) : Option Outcome :=
  match c.threads.get? id with
  | some (.ended o) => some o
  | _ => none

/-- An engine as its settings want it. -/
def ofConfig (registry : Registry) (config : EngineConfig) : Except EngineError Cluster :=
  match config.check with
  | .error e => .error (.config e.message)
  | .ok config =>
    let backend : Backend := match config.store.backend with
      | .memory => .memory .empty
      | .table => .packed .empty
    let sink : LogSink := match config.log.backend with
      | .memory => .memory .empty
      | .lines => .lines .empty
    .ok (start registry config backend sink)

end Cluster

namespace Schedule

/-- Waits for the end of a job. -/
def join (s : Schedule) (id : JobId) : Option (Except EngineError Value) × Schedule :=
  let s := s.runJob id
  ((s.cluster.outcome? id).map (EngineError.ofOutcome id), s)

/-- Cancels a job and waits for its end. A job that has ended before keeps its result. -/
def interrupt (s : Schedule) (id : JobId) : Option (Except EngineError Value) × Schedule :=
  match s.cluster.cancel id with
  | .ok cluster => { s with cluster }.join id
  | .error _ => s.join id

/-- Runs a workflow as a job of which nothing is kept. -/
def runWorkflow (s : Schedule) (name : String) (w : Workflow) :
    Option (Except EngineError Value) × Schedule :=
  let (id, cluster) := s.cluster.submit name w
  let (result, s) := { s with cluster }.join id
  match s.cluster.forget id with
  | .ok cluster => (result, { s with cluster })
  | .error _ => (result, s)

end Schedule

end WorkflowEngine
