import WorkflowEngine.Cluster.Step
/-!
The order in which an engine takes its steps. Woken threads take turns in the order in which they
were woken, and each goes on as long as it can; one that evaluates for long rests until the others
have had their turns. Time stands still while any thread can go on, then it moves to the next
moment that an operation waits for.
-/
set_option autoImplicit false

namespace WorkflowEngine

/-- A cluster with the thread whose turn it is and those that rest. -/
structure Schedule where
  cluster : Cluster
  current : Option Thread
  resting : List Thread

namespace Cluster

/-- The first response that waits for a thread. -/
def arrivedFor (c : Cluster) (t : Thread) : Option EvaluationId :=
  (c.arrived.find? fun (waiter, _) => decide (waiter = t)).map Prod.snd

/-- What a thread does next. It collects responses before it goes on by itself. -/
def nextMove (c : Cluster) (t : Thread) : Move :=
  match c.arrivedFor t with
  | some id => .collect id
  | none =>
    match t with
    | .job id => .begin id
    | .worker i => if c.scopes.isCancelled .root then .close i else .receive i
    | .evaluation id => .advance id

/-- The number of steps after which an evaluation rests. -/
def turnLength : Nat := 1024

/-- Whether a thread rests before its next step. -/
def isTired (c : Cluster) : Thread → Bool
  | .evaluation id =>
    match c.evaluations.get? id with
    | some e =>
      match e.phase with
      | .running _ => (e.steps + 1) % turnLength == 0
      | _ => false
    | none => false
  | _ => false

/-- The moments that operations wait for. -/
def dueTimes (c : Cluster) : List (EvaluationId × Nat) :=
  c.evaluations.entries.filterMap fun (id, e) =>
    match e.phase with
    | .operating _ (some due) _ => some (id, due)
    | _ => none

def nextDue (c : Cluster) : Option Nat := (c.dueTimes.map Prod.snd).min?

/-- Moves time on and wakes the evaluations that have waited for it. -/
def elapseTo (c : Cluster) (time : Nat) : Cluster :=
  let c := { c with now := max c.now time }
  (c.dueTimes.filter fun (_, due) => decide (due ≤ c.now)).foldl
    (fun c (id, _) => c.wake (.evaluation id)) c

end Cluster

namespace Schedule

def ofCluster (c : Cluster) : Schedule := ⟨c, none, []⟩

/-- One step of the thread whose turn it is, or the next turn. There is none when all threads
wait. -/
def next (s : Schedule) : Option Schedule :=
  match s.current with
  | some t =>
    match s.cluster.step (s.cluster.nextMove t) with
    | none => some { s with current := none }
    | some c =>
      if c.isTired t then some ⟨c, none, s.resting ++ [t]⟩ else some { s with cluster := c }
  | none =>
    match s.cluster.ready with
    | t :: ready => some { s with cluster := { s.cluster with ready }, current := some t }
    | [] =>
      match s.resting with
      | [] => none
      | resting => some ⟨{ s.cluster with ready := resting }, none, []⟩

/-- Takes turns until all threads wait and the goal is reached, moving time where nothing else
can be done, but not beyond a limit. -/
def run (goal : Cluster → Bool) (limit : Option Nat) : Nat → Schedule → Schedule
  | 0, s => s
  | fuel + 1, s =>
    match s.next with
    | some s => run goal limit fuel s
    | none =>
      if goal s.cluster then s
      else
        match s.cluster.nextDue with
        | none => s
        | some due =>
          if limit.any (· < due) then s
          else run goal limit fuel { s with cluster := s.cluster.elapseTo due }

/-- More steps than any run that ends takes. -/
def fuel : Nat := 1000000000000

/-- Runs until the thread of a job has ended. -/
def runJob (s : Schedule) (job : JobId) : Schedule :=
  s.run (fun c =>
    match c.threads.get? job with
    | some (.ended _) => true
    | _ => false) none fuel

/-- Runs until a moment has come. -/
def runUntil (s : Schedule) (time : Nat) : Schedule :=
  let s := s.run (fun _ => false) (some time) fuel
  { s with cluster := s.cluster.elapseTo time }

end Schedule

end WorkflowEngine
