import WorkflowEngine.Dispatch.Dispatcher
import WorkflowEngine.Evaluation.Effect
import WorkflowEngine.Evaluation.Machine
import WorkflowEngine.Log.Sink
import WorkflowEngine.Scope.Basic
import WorkflowEngine.Store.Backend
/-!
The state of an engine: its workers, the evaluations under way on them, the jobs and all that
they share. Threads are what makes progress: a job, a worker, an evaluation.
-/
set_option autoImplicit false

namespace WorkflowEngine

/-- An evaluation on its way to a worker. -/
structure Delivery where
  evaluation : EvaluationId
  payload : String

structure Worker where
  id : WorkerId
  listening : Bool
  inbox : List Delivery
  cache : Table Key Bytes

/-- A fork under way. Children are placed one after the other, and their outcomes may arrive while
others still wait for that; `missing` counts the outcomes that have not arrived. -/
structure Fork where
  join : Join
  scope : Scope
  placed : Nat
  waiting : List Workflow
  missing : Nat

/-- How far an evaluation has come. A suspended operation may wait for a moment; a join waits for
the children that are missing. The response waits for the one who placed the evaluation. -/
inductive Phase where
  | queued
  | accepted (payload : String)
  | running (m : Machine)
  | operating (p : Program (Reply Value)) (due : Option Nat) (stack : List Frame)
  | joining (f : Fork) (stack : List Frame)
  | responded (r : Response)

/-- A parent with the index of the child. -/
structure Parent where
  id : EvaluationId
  index : Nat

structure Evaluation where
  job : JobId
  parent : Option Parent
  placement : Option Placement
  scope : Scope
  steps : Nat
  phase : Phase

/-- What is known of a job, and the scope of all its evaluations. -/
structure JobEntry where
  job : Job
  scope : Scope

/-- The thread of a job: it places the root evaluation, waits for it, and ends. -/
inductive JobThread where
  | submitted (w : Workflow) (scope : Scope)
  | waiting
  | ended (o : Outcome)

inductive Thread where
  | job (id : JobId)
  | worker (index : Nat)
  | evaluation (id : EvaluationId)
  deriving DecidableEq

/-- `ready` lists the threads that have been woken, `arrived` the evaluations whose response waits,
each with the thread it waits for; both are in the order in which that happened. -/
structure Cluster where
  registry : Registry
  settings : DataSettings
  policy : DeliveryPolicy
  dispatcher : Dispatcher
  workers : List Worker
  evaluations : Table EvaluationId Evaluation
  jobs : Table JobId JobEntry
  threads : Table JobId JobThread
  backend : Backend
  cache : Table Key Bytes
  sink : LogSink
  scopes : ScopeTree
  nextId : Nat
  now : Nat
  ready : List Thread
  arrived : List (Thread × EvaluationId)

namespace Cluster

/-- An engine that has just been started. -/
def start (registry : Registry) (config : EngineConfig) (backend : Backend) (sink : LogSink) :
    Cluster :=
  let ids := (List.range (max 1 config.workers.toNat)).map WorkerId.indexed
  { registry
    settings := .ofParts config.store.container config.store.chunkSize config.store.retries
    policy := config.log.policy
    dispatcher := .ofWorkers ids
    workers := ids.map fun id => ⟨id, true, [], .empty⟩
    evaluations := .empty
    jobs := .empty
    threads := .empty
    backend
    cache := .empty
    sink
    scopes := .initial
    nextId := 0
    now := 0
    ready := []
    arrived := [] }

def time (c : Cluster) : Timestamp := .ofMillis c.now

def freshId (c : Cluster) : Uuid × Cluster :=
  (Uuid.fresh c.nextId, { c with nextId := c.nextId + 1 })

def wake (c : Cluster) (t : Thread) : Cluster :=
  if c.ready.contains t then c else { c with ready := c.ready ++ [t] }

def modifyWorker (c : Cluster) (i : Nat) (f : Worker → Worker) : Cluster :=
  { c with workers := c.workers.modify i f }

def setPhase (c : Cluster) (id : EvaluationId) (e : Evaluation) (phase : Phase) : Cluster :=
  { c with evaluations := c.evaluations.insert id { e with phase } }

/-- The thread that waits for the response of an evaluation. -/
def waiter (e : Evaluation) : Thread :=
  match e.parent with
  | some parent => .evaluation parent.id
  | none => .job e.job

/-- Leaves a response for the one who placed the evaluation. -/
def respond (c : Cluster) (id : EvaluationId) (e : Evaluation) (r : Response) : Cluster :=
  { c.setPhase id e (.responded r) with arrived := c.arrived ++ [(waiter e, id)] }.wake (waiter e)

/-- Whether an evaluation waits in an operation inside a scope. -/
def waitsIn (s : Scope) (e : Evaluation) : Bool :=
  match e.phase with
  | .operating _ _ _ => e.scope.path.contains s.number
  | _ => false

/-- Cancels a scope and wakes the evaluations that wait inside it. -/
def cancelScope (c : Cluster) (s : Scope) : Cluster :=
  let woken := c.evaluations.entries.filter fun (_, e) => waitsIn s e
  woken.foldl (fun c (id, _) => c.wake (.evaluation id)) { c with scopes := c.scopes.cancel s }

end Cluster

end WorkflowEngine
