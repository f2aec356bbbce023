import WorkflowEngine.Cluster.Basic
/-!
The steps of an engine. Each is one uninterrupted piece of work of one thread; a step that is not
possible in a state has no result there.
-/
set_option autoImplicit false

namespace WorkflowEngine

/-- `begin` places the root evaluation of a job. A worker receives a delivery, or closes its inbox
when the engine is shut down. An evaluation advances on its worker until it responds, and
whoever placed it collects the response. -/
inductive Move where
  | begin (job : JobId)
  | receive (worker : Nat)
  | close (worker : Nat)
  | advance (evaluation : EvaluationId)
  | collect (evaluation : EvaluationId)
  deriving DecidableEq

namespace Cluster

/-- Hands a placed evaluation over to its worker. -/
def send (c : Cluster) (id : EvaluationId) (e : Evaluation) (p : Placement) (payload : String) :
    Cluster :=
  match c.workers[p.slot]? with
  | some worker =>
    if worker.listening then
      ((c.setPhase id e .queued).modifyWorker p.slot fun w =>
        { w with inbox := w.inbox ++ [⟨id, payload⟩] }).wake (.worker p.slot)
    else c.respond id e (.failed (.unreachable p.worker))
  | none => c.respond id e (.failed (.unreachable p.worker))

/-- Places a workflow as a new evaluation of a job. -/
def dispatch (c : Cluster) (job : JobId) (parent : Option Parent) (scope : Scope) (w : Workflow) :
    Cluster :=
  let (uuid, c) := c.freshId
  let id : EvaluationId := ⟨uuid⟩
  match c.dispatcher.place id job (parent.map Parent.id) c.time with
  | none => c.respond id ⟨job, parent, none, scope, 0, .queued⟩ .unplaced
  | some (p, dispatcher) =>
    { c with dispatcher }.send id ⟨job, parent, some p, scope, 0, .queued⟩ p w.encode

def beginJob (c : Cluster) (job : JobId) : Option Cluster :=
  match c.threads.get? job with
  | some (.submitted w scope) =>
    some ({ c with threads := c.threads.insert job .waiting }.dispatch job none scope w)
  | _ => none

def receive (c : Cluster) (i : Nat) : Option Cluster := do
  let worker ← c.workers[i]?
  if !worker.listening then none
  match worker.inbox with
  | [] => none
  | d :: rest =>
    let c := c.modifyWorker i fun w => { w with inbox := rest }
    match c.evaluations.get? d.evaluation with
    | some e =>
      return (c.setPhase d.evaluation e (.accepted d.payload)).wake (.evaluation d.evaluation)
    | none => return c

/-- Drops a delivery that nobody will receive. -/
def dropDelivery (worker : WorkerId) (c : Cluster) (d : Delivery) : Cluster :=
  match c.evaluations.get? d.evaluation with
  | some e => c.respond d.evaluation e (.failed (.dropped worker))
  | none => c

def close (c : Cluster) (i : Nat) : Option Cluster := do
  let worker ← c.workers[i]?
  if !worker.listening || !c.scopes.isCancelled .root then none
  let c := c.modifyWorker i fun w => { w with listening := false, inbox := [] }
  return worker.inbox.foldl (dropDelivery worker.id) c

/-- The cache of the worker of an evaluation. -/
def cacheOf (c : Cluster) (e : Evaluation) : Table Key Bytes :=
  match e.placement.bind fun p => c.workers[p.slot]? with
  | some worker => worker.cache
  | none => .empty

def remember (c : Cluster) (e : Evaluation) (key : Key) (data : Bytes) : Cluster :=
  match e.placement with
  | some p => c.modifyWorker p.slot fun w => { w with cache := w.cache.insert key data }
  | none => c

/-- Answers a request of an evaluation, other than for a pause. -/
def serve (c : Cluster) (e : Evaluation) : (r : Request) → r.Answer × Cluster
  | .store command =>
    let (answer, backend) := c.backend.run command
    (answer, { c with backend })
  | .cached key => ((c.cacheOf e).get? key, c)
  | .remember key data => ((), c.remember e key data)
  | .freshId => c.freshId
  | .now => (c.time, c)
  | .append entry _ =>
    let (stored, sink) := c.sink.append entry
    (stored, { c with sink })
  | .pause _ => ((), c)

/-- The error that stands for an abort. -/
def abortError (message : Option String) : WorkflowError :=
  .evaluation ("evaluation panicked: " ++ message.getD "unknown panic")

def finish (c : Cluster) (id : EvaluationId) (e : Evaluation) (o : Outcome) : Cluster :=
  c.respond id e (.reply o.encode)

def resume (c : Cluster) (id : EvaluationId) (e : Evaluation) (stack : List Frame) (o : Outcome) :
    Cluster :=
  c.setPhase id e (.running ⟨stack, .resume o⟩)

def surroundings (c : Cluster) (e : Evaluation) : Surroundings :=
  { job := e.job
    worker := (e.placement.map Placement.worker).getD ⟨""⟩
    workerCount := c.dispatcher.pool.size
    registry := c.registry
    settings := c.settings
    policy := c.policy }

/-- Opens a fork. Without children there is nothing to wait for. -/
def fork (c : Cluster) (id : EvaluationId) (e : Evaluation) (kind : ForkKind)
    (children : List Workflow) (stack : List Frame) : Cluster :=
  if children.isEmpty then c.resume id e stack ((Join.start kind 0).outcome false)
  else
    let (scope, scopes) := c.scopes.child e.scope
    let f : Fork := ⟨Join.start kind children.length, scope, 0, children, children.length⟩
    { c with scopes }.setPhase id e (.joining f stack)

/-- Places the next child of a fork, in a scope of its own inside that of the fork. -/
def placeChild (c : Cluster) (id : EvaluationId) (e : Evaluation) (f : Fork) (w : Workflow)
    (rest : List Workflow) (stack : List Frame) : Cluster :=
  let (scope, scopes) := c.scopes.child f.scope
  let f' := { f with placed := f.placed + 1, waiting := rest }
  ({ c with scopes }.setPhase id e (.joining f' stack)).dispatch e.job (some ⟨id, f.placed⟩) scope w

/-- A step of the machine. -/
def runMachine (c : Cluster) (id : EvaluationId) (e : Evaluation) (m : Machine) : Cluster :=
  match m.step c.registry with
  | .next m => c.setPhase id e (.running m)
  | .finished o => c.finish id e o
  | .aborted message => c.finish id e (.error (.error (abortError message)))
  | .fork kind children stack => c.fork id e kind children stack
  | .operate op stack =>
    match op.effect (c.surroundings e) with
    | .immediate r => c.resume id e stack (r.mapError .error)
    | .guarded p => c.setPhase id e (.operating p none stack)

/-- A request of an operation. A pause first fixes its end, then waits for it. -/
def request (c : Cluster) (id : EvaluationId) (e : Evaluation) (due : Option Nat)
    (stack : List Frame) : (r : Request) → (r.Answer → Program (Reply Value)) → Option Cluster
  | .pause micros, next =>
    match due with
    | none =>
      let due := c.now + millisOf micros
      some (c.setPhase id e (.operating (.ask (.pause micros) next) (some due) stack))
    | some due =>
      if due ≤ c.now then some (c.setPhase id e (.operating (next ()) none stack)) else none
  | r, next =>
    let (answer, c) := c.serve e r
    some (c.setPhase id e (.operating (next answer) none stack))

/-- What an evaluation does next by itself. -/
inductive Turn where
  | step (m : Machine)
  | ask (r : Request) (next : r.Answer → Program (Reply Value)) (due : Option Nat)
      (stack : List Frame)
  | place (w : Workflow) (rest : List Workflow) (f : Fork) (stack : List Frame)
  | resume (stack : List Frame) (o : Outcome)
  | start (w : Workflow)
  | reply (o : Outcome)

/-- What follows an operation. -/
def endOperation (stack : List Frame) : Reply Value → Turn
  | .ok v => .resume stack (.ok v)
  | .failed err => .resume stack (.error (.error err))
  | .aborted message => .reply (.error (.error (abortError message)))

/-- What is next for an evaluation. Cancellation stops a machine before its next step and ends an
operation before its next request. -/
def turn (scopes : ScopeTree) (e : Evaluation) : Option Turn :=
  match e.phase with
  | .queued | .responded _ => none
  | .accepted payload =>
    match Workflow.decode payload with
    | .ok w => some (.start w)
    | .error err => some (.reply (.error (.error err)))
  | .running m =>
    if scopes.isCancelled e.scope then some (.reply (.error .cancelled)) else some (.step m)
  | .operating p due stack =>
    if scopes.isCancelled e.scope then some (.resume stack (.error .cancelled))
    else match p with
      | .done reply => some (endOperation stack reply)
      | .ask r next => some (.ask r next due stack)
  | .joining f stack =>
    match f.waiting with
    | w :: rest => some (.place w rest f stack)
    | [] =>
      if f.missing = 0 then some (.resume stack (f.join.outcome (scopes.isCancelled e.scope)))
      else none

def take (c : Cluster) (id : EvaluationId) (e : Evaluation) : Turn → Option Cluster
  | .step m => some (c.runMachine id { e with steps := e.steps + 1 } m)
  | .ask r next due stack => c.request id e due stack r next
  | .place w rest f stack => some (c.placeChild id e f w rest stack)
  | .resume stack o => some (c.resume id e stack o)
  | .start w => some (c.setPhase id e (.running (.start w)))
  | .reply o => some (c.finish id e o)

/-- A step of an evaluation by itself. -/
def advance (c : Cluster) (id : EvaluationId) : Option Cluster := do
  let e ← c.evaluations.get? id
  let next ← turn c.scopes e
  c.take id e next

/-- Takes the outcome of a child into the join of its parent. -/
def arrive (c : Cluster) (parent : Parent) (o : Outcome) : Cluster :=
  match c.evaluations.get? parent.id with
  | some e =>
    match e.phase with
    | .joining f stack =>
      let (decides, join) := f.join.receive parent.index o
      let c := c.setPhase parent.id e (.joining { f with join, missing := f.missing - 1 } stack)
      if decides then c.cancelScope f.scope else c
    | _ => c
  | none => c

/-- What is known of a job after its end. -/
def endedEntry (entry : JobEntry) (o : Outcome) (now : Timestamp) : JobEntry :=
  let error := match o with
    | .error (.error e) => some e.text
    | _ => none
  { entry with job := { entry.job with status := o.status, completedAt := some now, error } }

/-- Ends the thread of a job and tells what became of the job. -/
def endJob (c : Cluster) (job : JobId) (o : Outcome) : Cluster :=
  let c := { c with threads := c.threads.insert job (.ended o) }
  match c.jobs.get? job with
  | some entry => { c with jobs := c.jobs.insert job (endedEntry entry o c.time) }
  | none => c

def collect (c : Cluster) (id : EvaluationId) : Option Cluster := do
  let e ← c.evaluations.get? id
  match e.phase with
  | .responded r =>
    let (o, dispatcher) := match e.placement with
      | some p => c.dispatcher.settle id p r c.time
      | none => (r.outcome, c.dispatcher)
    let evaluations := c.evaluations.erase id
    let c := { c with dispatcher, evaluations, arrived := c.arrived.filter (·.2 ≠ id) }
    match e.parent with
    | some parent => some (c.arrive parent o)
    | none => some (c.endJob e.job o)
  | _ => none

/-- The state after a move, if the move is possible. -/
def step (c : Cluster) : Move → Option Cluster
  | .begin job => c.beginJob job
  | .receive worker => c.receive worker
  | .close worker => c.close worker
  | .advance evaluation => c.advance evaluation
  | .collect evaluation => c.collect evaluation

end Cluster

end WorkflowEngine
