import WorkflowEngine.Proofs.CachedKeys
import WorkflowEngine.Proofs.Run
/-!
How entries get into logs. An operation that logs a message appends it as one entry, and is done
when the entry is stored. Nothing else that happens in an engine touches the sink.
-/
set_option autoImplicit false

namespace WorkflowEngine

namespace Program

/-- A program that appends an entry with a message to the log of a job. It gives null as soon as
the entry is stored. -/
inductive Delivers (job : JobId) (message : String) : Program (Reply Value) → Prop
  | clock {next : Timestamp → Program (Reply Value)}
      (delivers : ∀ time, Delivers job message (next time)) :
      Delivers job message (.ask .now next)
  | entry {entry : LogEntry} {limit : Nat} {next : Bool → Program (Reply Value)}
      (own : entry.job = job) (same : entry.message = message)
      (ends : next true = .done (.ok .null)) : Delivers job message (.ask (.append entry limit) next)

/-- A program that appends nothing. -/
def Silent (p : Program (Reply Value)) : Prop := p.Asks (Request.Quiet fun _ => True)

end Program

theorem Effect.delivers_ofMessage {s : Surroundings} {message : String} {p : Program (Reply Value)}
    (h : ofMessage s message = .guarded p) : p.Delivers s.job message := by
  cases h
  refine .clock fun time => ?_
  unfold DeliveryPolicy.deliver
  cases s.policy.attempts - 1 with
  | zero => exact .entry rfl rfl rfl
  | succ left => exact .entry rfl rfl rfl

theorem Effect.Quiet.silent {K : Key → Prop} {effect : Effect} {p : Program (Reply Value)}
    (h : effect.Quiet K) (guarded : effect = .guarded p) : p.Silent := by
  subst guarded
  refine Program.Asks.mono h fun r hr => ?_
  cases r with
  | append => exact hr
  | store | cached | remember | freshId | now | pause => trivial

namespace Cluster

variable {c c' : Cluster} {id : EvaluationId} {e : Evaluation}

/-- Whether an event appends an entry. -/
def Appends (c : Cluster) : Event → Prop
  | .move (.advance id) => ∃ e entry limit next due stack, c.evaluations.get? id = some e ∧
    turn c.scopes e = some (.ask (.append entry limit) next due stack)
  | _ => False

/-- The state after an entry was appended: the evaluation goes on with the answer. -/
theorem after_append {entry : LogEntry} {limit : Nat} {next : Bool → Program (Reply Value)}
    {due : Option Nat} {stack : List Frame} (live : c.evaluations.get? id = some e)
    (ht : turn c.scopes e = some (.ask (.append entry limit) next due stack))
    (after : c.after (.move (.advance id)) = some c') :
    c' = { c with sink := (c.sink.append entry).2 }.setPhase id e
      (.operating (next (c.sink.append entry).1) none stack) := by
  have eq : c.after (.move (.advance id)) = _ := advance_eq live
  rw [ht] at eq
  exact Option.some.inj (after.symm.trans eq)

/-! ## What leaves the sink alone -/

theorem sink_wake (c : Cluster) (t : Thread) : (c.wake t).sink = c.sink := by
  unfold wake
  split <;> rfl

theorem sink_foldl_wake {α : Type} (f : α → Thread) (l : List α) (c : Cluster) :
    (l.foldl (fun c a => c.wake (f a)) c).sink = c.sink := by
  induction l generalizing c with
  | nil => rfl
  | cons a rest ih => exact (ih _).trans (sink_wake c (f a))

theorem sink_respond (c : Cluster) (id : EvaluationId) (e : Evaluation) (r : Response) :
    (c.respond id e r).sink = c.sink := by
  unfold respond
  rw [sink_wake]
  rfl

theorem sink_dispatch (c : Cluster) (job : JobId) (parent : Option Parent) (scope : Scope)
    (w : Workflow) : (c.dispatch job parent scope w).sink = c.sink := by
  unfold dispatch
  simp only [freshId]
  split
  · rw [sink_respond]
  · unfold send
    split
    · split
      · rw [sink_wake]
        rfl
      · rw [sink_respond]
    · rw [sink_respond]

theorem sink_foldl_dropDelivery (worker : WorkerId) (ds : List Delivery) (c : Cluster) :
    (ds.foldl (dropDelivery worker) c).sink = c.sink := by
  induction ds generalizing c with
  | nil => rfl
  | cons d rest ih =>
    refine (ih _).trans ?_
    unfold dropDelivery
    split
    · exact sink_respond _ _ _ _
    · rfl

theorem sink_cancelScope (c : Cluster) (s : Scope) : (c.cancelScope s).sink = c.sink :=
  sink_foldl_wake (fun entry : EvaluationId × Evaluation => .evaluation entry.1) _ _

theorem sink_serve {r : Request} (silent : ∀ entry limit, r ≠ .append entry limit) :
    (c.serve e r).2.sink = c.sink := by
  cases r with
  | append entry limit => exact absurd rfl (silent entry limit)
  | remember key data =>
    simp only [serve, remember]
    split <;> rfl
  | store | cached | freshId | now | pause => rfl

theorem sink_runMachine (c : Cluster) (id : EvaluationId) (e : Evaluation) (m : Machine) :
    (c.runMachine id e m).sink = c.sink := by
  unfold runMachine
  split
  · rfl
  · exact sink_respond _ _ _ _
  · exact sink_respond _ _ _ _
  · unfold fork
    split <;> rfl
  · split <;> rfl

theorem sink_request {due : Option Nat} {stack : List Frame} {r : Request}
    {next : r.Answer → Program (Reply Value)} (silent : ∀ entry limit, r ≠ .append entry limit)
    (after : c.request id e due stack r next = some c') : c'.sink = c.sink := by
  cases r with
  | append entry limit => exact absurd rfl (silent entry limit)
  | pause micros =>
    simp only [request] at after
    split at after
    · cases after
      rfl
    · split at after <;> cases after
      rfl
  | store | cached | remember | freshId | now =>
    cases after
    exact sink_serve (e := e) silent

theorem sink_advance (silent : ¬ c.Appends (.move (.advance id)))
    (after : c.advance id = some c') : c'.sink = c.sink := by
  obtain ⟨e, t, live, ht, after⟩ := advance_cases after
  cases t with
  | step m =>
    cases after
    exact sink_runMachine _ _ _ _
  | ask r next due stack =>
    refine sink_request (fun entry limit same => ?_) after
    subst same
    exact silent ⟨e, entry, limit, next, due, stack, live, ht⟩
  | place w rest f stack =>
    cases after
    exact sink_dispatch _ _ _ _ _
  | resume | start =>
    cases after
    rfl
  | reply o =>
    cases after
    exact sink_respond _ _ _ _

theorem sink_arrive (c : Cluster) (parent : Parent) (o : Outcome) :
    (c.arrive parent o).sink = c.sink := by
  simp only [arrive]
  split
  · split
    · split
      · exact sink_cancelScope _ _
      · rfl
    · rfl
  · rfl

theorem sink_endJob (c : Cluster) (job : JobId) (o : Outcome) :
    (c.endJob job o).sink = c.sink := by
  simp only [endJob]
  split <;> rfl

theorem sink_step {m : Move} (silent : ¬ c.Appends (.move m)) (after : c.step m = some c') :
    c'.sink = c.sink := by
  cases m with
  | begin job =>
    obtain ⟨w, scope, -, rfl⟩ := begin_cases after
    exact sink_dispatch _ _ _ _ _
  | receive i =>
    obtain ⟨worker, d, rest, -, -, -, ⟨e, -, rfl⟩ | ⟨-, rfl⟩⟩ := receive_cases after
    · exact sink_wake _ _
    · rfl
  | close i =>
    obtain ⟨worker, -, -, -, rfl⟩ := close_cases after
    exact sink_foldl_dropDelivery _ _ _
  | advance id => exact sink_advance silent after
  | collect id =>
    obtain ⟨e, r, o, dispatcher, -, -, -, ⟨parent, -, rfl⟩ | ⟨-, rfl⟩⟩ := collect_cases after
    · exact sink_arrive _ _ _
    · exact sink_endJob _ _ _

/-- The sink changes only when an entry is appended. -/
theorem sink_after {ev : Event} (silent : ¬ c.Appends ev) (after : c.after ev = some c') :
    c'.sink = c.sink := by
  cases ev with
  | submit name w =>
    cases after
    exact sink_wake _ _
  | cancel job =>
    obtain ⟨entry, -, -, rfl⟩ := cancel_cases after
    exact sink_cancelScope _ _
  | forget job =>
    obtain ⟨entry, -, -, rfl⟩ := forget_cases after
    rfl
  | shutdown =>
    cases after
    exact (sink_foldl_wake (fun i => Thread.worker i) _ _).trans (sink_cancelScope _ _)
  | elapse time =>
    cases after
    exact sink_foldl_wake (fun due : EvaluationId × Nat => Thread.evaluation due.1) _ _
  | arrange ready =>
    cases after
    rfl
  | move m => exact sink_step silent after

end Cluster

end WorkflowEngine
