import WorkflowEngine.Proofs.Durations
import Mathlib
/-!
Workflows of which every evaluation comes to an end, whatever their operations give and in whatever
order children settle. What an evaluation of one still has to do goes down in a well-founded order
with each thing that it does. No number of steps need bound it: a function may go on for as long as
a value tells that was read from the store.
-/
set_option autoImplicit false

namespace WorkflowEngine

/-- A workflow of which every evaluation comes to an end. Continuations and handlers are asked for
the results that their bodies permit. -/
inductive Workflow.Terminates (s : Surroundings) : Workflow → Prop
  | ret (v : Value) : Terminates s (.ret v)
  | raise (e : WorkflowError) : Terminates s (.raise e)
  | perform (op : Operation) : Terminates s (.perform op)
  | bind {w : Workflow} {f : FunctionRef} (body : Terminates s w)
      (rest : ∀ {v next}, Permits s w (.ok v) → s.registry.continueWith f v = .ok next →
        Terminates s next) : Terminates s (.bind w f)
  | tryWith {w : Workflow} {f : FunctionRef} (body : Terminates s w)
      (rest : ∀ {e next}, Permits s w (.error e) → s.registry.handle f e = .ok next →
        Terminates s next) : Terminates s (.tryWith w f)
  | parallel {ws : List Workflow} (each : ∀ w ∈ ws, Terminates s w) : Terminates s (.parallel ws)
  | choice {ws : List Workflow} (each : ∀ w ∈ ws, Terminates s w) : Terminates s (.choice ws)

/-- The stages of an evaluation, with all that is before it. -/
inductive Stage where
  | queued (w : Workflow)
  | accepted (w : Workflow)
  | running (m : Machine)
  | operating (p : Program (Reply Value)) (pausing : Bool) (stack : List Frame)
  | joining (kind : ForkKind) (children waiting : List Workflow) (stack : List Frame)
  | responded

namespace Stage

/-- What an evaluation does next, and the children that it places. -/
inductive Leads (s : Surroundings) : Stage → Stage → Prop
  | accept (w : Workflow) : Leads s (.queued w) (.accepted w)
  | start (w : Workflow) : Leads s (.accepted w) (.running (.start w))
  | next {m m' : Machine} (step : m.step s.registry = .next m') :
      Leads s (.running m) (.running m')
  | respond (m : Machine) : Leads s (.running m) .responded
  | answer {m : Machine} {op : Operation} {stack : List Frame} {r : Except WorkflowError Value}
      (worker : WorkerId) (step : m.step s.registry = .operate op stack)
      (immediate : op.effect { s with worker } = .immediate r) :
      Leads s (.running m) (.running ⟨stack, .resume (r.mapError .error)⟩)
  | operate {m : Machine} {op : Operation} {stack : List Frame} {p : Program (Reply Value)}
      (worker : WorkerId) (step : m.step s.registry = .operate op stack)
      (guarded : op.effect { s with worker } = .guarded p) :
      Leads s (.running m) (.operating p false stack)
  | pause (p : Program (Reply Value)) (stack : List Frame) :
      Leads s (.operating p false stack) (.operating p true stack)
  | ask {r : Request} (next : r.Answer → Program (Reply Value)) (a : r.Answer) (pausing : Bool)
      (stack : List Frame) :
      Leads s (.operating (.ask r next) pausing stack) (.operating (next a) false stack)
  | returned (v : Value) (pausing : Bool) (stack : List Frame) :
      Leads s (.operating (.done (.ok v)) pausing stack) (.running ⟨stack, .resume (.ok v)⟩)
  | failed (e : WorkflowError) (pausing : Bool) (stack : List Frame) :
      Leads s (.operating (.done (.failed e)) pausing stack)
        (.running ⟨stack, .resume (.error (.error e))⟩)
  | fork {m : Machine} {kind : ForkKind} {children : List Workflow} {stack : List Frame}
      (step : m.step s.registry = .fork kind children stack) :
      Leads s (.running m) (.joining kind children children stack)
  | place (kind : ForkKind) (children : List Workflow) (w : Workflow) (rest : List Workflow)
      (stack : List Frame) :
      Leads s (.joining kind children (w :: rest) stack) (.joining kind children rest stack)
  | child (kind : ForkKind) (children : List Workflow) (w : Workflow) (rest : List Workflow)
      (stack : List Frame) : Leads s (.joining kind children (w :: rest) stack) (.queued w)
  | join {kind : ForkKind} {children : List Workflow} {r : Except WorkflowError Value}
      (stack : List Frame) (permits : Permits s (kind.workflow children) r) :
      Leads s (.joining kind children [] stack) (.running ⟨stack, .resume (r.mapError .error)⟩)

/-- A stage from which no path goes on for ever. -/
def Ends (s : Surroundings) (t : Stage) : Prop := Acc (fun t' t => Leads s t t') t

variable {s : Surroundings} {t t' : Stage} {m m' : Machine} {stack : List Frame}

theorem ends_responded : Stage.responded.Ends s := by
  refine ⟨_, fun t' leads => ?_⟩
  cases leads

/-- Only what a machine does next counts, not how it is written. -/
theorem Ends.of_step_eq (same : m.step s.registry = m'.step s.registry)
    (h : (Stage.running m').Ends s) : (Stage.running m).Ends s := by
  refine ⟨_, fun t leads => ?_⟩
  cases leads with
  | next step => exact h.inv (.next (same ▸ step))
  | respond => exact ends_responded
  | answer worker step immediate => exact h.inv (.answer worker (same ▸ step) immediate)
  | operate worker step guarded => exact h.inv (.operate worker (same ▸ step) guarded)
  | fork step => exact h.inv (.fork (same ▸ step))

/-- A program comes to an end with each answer. -/
theorem ends_operating {p : Program (Reply Value)}
    (h : ∀ r, (Effect.guarded p).Gives r →
      (Stage.running ⟨stack, .resume (r.mapError .error)⟩).Ends s) :
    ∀ pausing, (Stage.operating p pausing stack).Ends s := by
  induction p with
  | done reply =>
    have paused : (Stage.operating (.done reply) true stack).Ends s := by
      refine ⟨_, fun t leads => ?_⟩
      cases leads with
      | returned v => exact h (.ok v) (.ok (.done _))
      | failed e => exact h (.error e) (.failed (.done _))
    intro pausing
    cases pausing with
    | true => exact paused
    | false =>
      refine ⟨_, fun t leads => ?_⟩
      cases leads with
      | pause => exact paused
      | returned v => exact h (.ok v) (.ok (.done _))
      | failed e => exact h (.error e) (.failed (.done _))
  | ask request next ih =>
    have answered : ∀ a, (Stage.operating (next a) false stack).Ends s := by
      refine fun a => ih a (fun r gives => h r ?_) false
      cases gives with
      | ok gives => exact .ok (.ask a gives)
      | failed gives => exact .failed (.ask a gives)
    have paused : (Stage.operating (.ask request next) true stack).Ends s := by
      refine ⟨_, fun t leads => ?_⟩
      cases leads with
      | ask _ a => exact answered a
    intro pausing
    cases pausing with
    | true => exact paused
    | false =>
      refine ⟨_, fun t leads => ?_⟩
      cases leads with
      | pause => exact paused
      | ask _ a => exact answered a

theorem ends_queued {w : Workflow} (h : (Stage.running (.start w)).Ends s) :
    (Stage.queued w).Ends s := by
  have accepted : (Stage.accepted w).Ends s := by
    refine ⟨_, fun t leads => ?_⟩
    cases leads
    exact h
  refine ⟨_, fun t leads => ?_⟩
  cases leads
  exact accepted

/-- A fork comes to an end if its children do and whatever it gives does. -/
theorem ends_joining {kind : ForkKind} {children waiting : List Workflow}
    (each : ∀ w ∈ waiting, (Stage.queued w).Ends s)
    (rest : ∀ r, Permits s (kind.workflow children) r →
      (Stage.running ⟨stack, .resume (r.mapError .error)⟩).Ends s) :
    (Stage.joining kind children waiting stack).Ends s := by
  induction waiting with
  | nil =>
    refine ⟨_, fun t leads => ?_⟩
    cases leads with
    | join _ permits => exact rest _ permits
  | cons w waiting ih =>
    refine ⟨_, fun t leads => ?_⟩
    cases leads with
    | place => exact ih fun w' hw => each w' (List.mem_cons_of_mem w hw)
    | child => exact each w List.mem_cons_self

/-- Whether a machine goes on for ever on no path after a step, whatever an operation or a fork
gives. -/
def StepEnds (s : Surroundings) : Machine.Step → Prop
  | .next m => (Stage.running m).Ends s
  | .operate op stack => ∀ r, Permits s (.perform op) r →
      (Stage.running ⟨stack, .resume (r.mapError .error)⟩).Ends s
  | .fork kind children stack => (∀ w ∈ children, (Stage.queued w).Ends s) ∧
      ∀ r, Permits s (kind.workflow children) r →
        (Stage.running ⟨stack, .resume (r.mapError .error)⟩).Ends s
  | .finished _ | .aborted _ => True

theorem ends_running {step : Machine.Step} (taken : m.step s.registry = step)
    (h : StepEnds s step) : (Stage.running m).Ends s := by
  subst taken
  refine ⟨_, fun t leads => ?_⟩
  cases leads with
  | respond => exact ends_responded
  | next step =>
    rw [step] at h
    exact h
  | @answer _ _ _ r worker step immediate =>
    rw [step] at h
    exact h r (.perform worker (immediate ▸ .immediate r))
  | operate worker step guarded =>
    rw [step] at h
    exact ends_operating (fun r gives => h r (.perform worker (guarded ▸ gives))) false
  | fork step =>
    rw [step] at h
    exact ends_joining h.1 h.2

/-- With nothing around it a result is the last one. -/
theorem ends_result (r : Except WorkflowError Value) :
    (Stage.running ⟨[], .resume (r.mapError .error)⟩).Ends s := by
  cases r with
  | ok v => exact ends_running rfl trivial
  | error e => exact ends_running rfl trivial

/-- What a function replied. -/
theorem ends_reply {reply : Reply Workflow} (step : m.step s.registry = .ofReply stack reply)
    (ok : ∀ next, reply = .ok next → (Stage.running ⟨stack, .eval next⟩).Ends s)
    (failed : ∀ e, reply = .failed e →
      (Stage.running ⟨stack, .resume (.error (.error e))⟩).Ends s) :
    (Stage.running m).Ends s := by
  cases reply with
  | ok next => exact ends_running step (ok next rfl)
  | failed e => exact ends_running step (failed e rfl)
  | aborted message => exact ends_running step trivial

end Stage

namespace Workflow

variable {s : Surroundings} {w : Workflow}

open Machine Stage in
/-- A workflow that terminates does so wherever it stands: its evaluation goes on from there with a
result that it permits. -/
theorem Terminates.ends_eval (h : w.Terminates s) {stack : List Frame}
    (rest : ∀ r, Permits s w r → (Stage.running ⟨stack, .resume (r.mapError .error)⟩).Ends s) :
    (Stage.running ⟨stack, .eval w⟩).Ends s := by
  induction h generalizing stack with
  | ret v => exact ends_running rfl (rest (.ok v) (.ret v))
  | raise e => exact ends_running rfl (rest (.error e) (.raise e))
  | perform op => exact ends_running rfl rest
  | @bind w f _ _ body next_ih =>
    refine ends_running rfl (body fun r permits => ?_)
    cases r with
    | ok v =>
      refine ends_reply (step_value_bind v) (fun next call => ?_) fun e call => ?_
      · exact next_ih permits call fun r gives => rest r (.bind permits call gives)
      · exact rest (.error e) (.bindFailed permits call)
    | error e => exact .of_step_eq (step_error_bind e) (rest (.error e) (.bindError permits))
  | @tryWith w f _ _ body next_ih =>
    refine ends_running rfl (body fun r permits => ?_)
    cases r with
    | ok v => exact .of_step_eq (step_value_tryWith v) (rest (.ok v) (.tryValue permits))
    | error e =>
      refine ends_reply (step_error_tryWith e) (fun next call => ?_) fun d call => ?_
      · exact next_ih permits call fun r gives => rest r (.handled permits call gives)
      · exact rest (.error d) (.handlerFailed permits call)
  | parallel _ each =>
    exact ends_running rfl ⟨fun w hw => ends_queued (each w hw fun r _ => ends_result r), rest⟩
  | choice _ each =>
    exact ends_running rfl ⟨fun w hw => ends_queued (each w hw fun r _ => ends_result r), rest⟩

theorem Terminates.ends (h : w.Terminates s) : (Stage.queued w).Ends s :=
  Stage.ends_queued (h.ends_eval fun r _ => Stage.ends_result r)

end Workflow

end WorkflowEngine
