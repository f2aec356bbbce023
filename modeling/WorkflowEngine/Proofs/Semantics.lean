import WorkflowEngine.Evaluation.Machine
import WorkflowEngine.Proofs.Calm
/-!
What the parts of a workflow say of its result, without machines, workers and scopes. The machine
that evaluates a workflow goes from one part to another with no result that the whole does not
permit.
-/
set_option autoImplicit false

namespace WorkflowEngine

inductive Effect.Gives : Effect → Except WorkflowError Value → Prop
  | immediate (r : Except WorkflowError Value) : Gives (.immediate r) r
  | ok {p : Program (Reply Value)} {v : Value} (gives : p.Gives (.ok v)) :
      Gives (.guarded p) (.ok v)
  | failed {p : Program (Reply Value)} {e : WorkflowError} (gives : p.Gives (.failed e)) :
      Gives (.guarded p) (.error e)

def ForkKind.workflow : ForkKind → List Workflow → Workflow
  | .parallel => .parallel
  | .choice => .choice

/-- The workflow that gives a result at once. -/
def Workflow.ofResult : Except WorkflowError Value → Workflow
  | .ok v => .ret v
  | .error e => .raise e

/-- The results that a workflow permits. An operation may be performed on any worker, and one of
several results of a choice or errors of a fork may be the one that counts. -/
inductive Permits (s : Surroundings) : Workflow → Except WorkflowError Value → Prop
  | ret (v : Value) : Permits s (.ret v) (.ok v)
  | raise (e : WorkflowError) : Permits s (.raise e) (.error e)
  | bind {w next : Workflow} {f : FunctionRef} {v : Value} {r : Except WorkflowError Value}
      (body : Permits s w (.ok v)) (call : s.registry.continueWith f v = .ok next)
      (rest : Permits s next r) : Permits s (.bind w f) r
  | bindFailed {w : Workflow} {f : FunctionRef} {v : Value} {e : WorkflowError}
      (body : Permits s w (.ok v)) (call : s.registry.continueWith f v = .failed e) :
      Permits s (.bind w f) (.error e)
  | bindError {w : Workflow} {f : FunctionRef} {e : WorkflowError}
      (body : Permits s w (.error e)) : Permits s (.bind w f) (.error e)
  | tryValue {w : Workflow} {f : FunctionRef} {v : Value} (body : Permits s w (.ok v)) :
      Permits s (.tryWith w f) (.ok v)
  | handled {w next : Workflow} {f : FunctionRef} {e : WorkflowError}
      {r : Except WorkflowError Value} (body : Permits s w (.error e))
      (call : s.registry.handle f e = .ok next) (rest : Permits s next r) :
      Permits s (.tryWith w f) r
  | handlerFailed {w : Workflow} {f : FunctionRef} {d e : WorkflowError}
      (body : Permits s w (.error d)) (call : s.registry.handle f d = .failed e) :
      Permits s (.tryWith w f) (.error e)
  | parallel {ws : List Workflow} {vs : List Value} (size : vs.length = ws.length)
      (each : ∀ {i : Nat} {w : Workflow} {v : Value}, ws[i]? = some w → vs[i]? = some v →
        Permits s w (.ok v)) :
      Permits s (.parallel ws) (.ok (.array vs))
  | parallelError {ws : List Workflow} {w : Workflow} {e : WorkflowError} (child : w ∈ ws)
      (fails : Permits s w (.error e)) : Permits s (.parallel ws) (.error e)
  | choice {ws : List Workflow} {w : Workflow} {v : Value} (child : w ∈ ws)
      (gives : Permits s w (.ok v)) (found : v.isNull = false) : Permits s (.choice ws) (.ok v)
  | choiceError {ws : List Workflow} {w : Workflow} {e : WorkflowError} (child : w ∈ ws)
      (fails : Permits s w (.error e)) : Permits s (.choice ws) (.error e)
  | choiceNull {ws : List Workflow} (each : ∀ w ∈ ws, Permits s w (.ok .null)) :
      Permits s (.choice ws) (.ok .null)
  | perform {op : Operation} {r : Except WorkflowError Value} (worker : WorkerId)
      (gives : (op.effect { s with worker }).Gives r) : Permits s (.perform op) r

/-- Whether a workflow permits nothing that another one does not. -/
def Within (s : Surroundings) (w whole : Workflow) : Prop := ∀ r, Permits s w r → Permits s whole r

namespace Within

variable {s : Surroundings} {u v w : Workflow}

theorem refl (w : Workflow) : Within s w w := fun _ h => h

theorem trans (h : Within s u v) (h' : Within s v w) : Within s u w := fun r hr => h' r (h r hr)

theorem bind (h : Within s u w) (f : FunctionRef) : Within s (.bind u f) (.bind w f) := by
  intro r hr
  cases hr with
  | bind body call rest => exact .bind (h _ body) call rest
  | bindFailed body call => exact .bindFailed (h _ body) call
  | bindError body => exact .bindError (h _ body)

theorem tryWith (h : Within s u w) (f : FunctionRef) : Within s (.tryWith u f) (.tryWith w f) := by
  intro r hr
  cases hr with
  | tryValue body => exact .tryValue (h _ body)
  | handled body call rest => exact .handled (h _ body) call rest
  | handlerFailed body call => exact .handlerFailed (h _ body) call

theorem of_permits {r : Except WorkflowError Value} (h : Permits s w r) :
    Within s (.ofResult r) w := by
  intro r' hr
  cases r with
  | ok v =>
    cases hr
    exact h
  | error e =>
    cases hr
    exact h

end Within

namespace Machine

/-- The workflow that is left when a part stands below a stack. -/
def plug : List Frame → Workflow → Workflow
  | [], w => w
  | .bind f :: rest, w => plug rest (.bind w f)
  | .tryWith f :: rest, w => plug rest (.tryWith w f)

theorem within_plug {s : Surroundings} {u w : Workflow} (h : Within s u w) (stack : List Frame) :
    Within s (plug stack u) (plug stack w) := by
  induction stack generalizing u w with
  | nil => exact h
  | cons frame rest ih =>
    cases frame with
    | bind f => exact ih (h.bind f)
    | tryWith f => exact ih (h.tryWith f)

/-- The part of a workflow that a machine is at. Cancellation is no part of any workflow. -/
inductive Part : Control → Workflow → Prop
  | eval (w : Workflow) : Part (.eval w) w
  | value (v : Value) : Part (.resume (.ok v)) (.ret v)
  | error (e : WorkflowError) : Part (.resume (.error (.error e))) (.raise e)

theorem part_ofResult (r : Except WorkflowError Value) :
    Part (.resume (r.mapError .error)) (.ofResult r) := by
  cases r with
  | ok v => exact .value v
  | error e => exact .error e

theorem within_continuation {s : Surroundings} {stack rest : List Frame} {f : FunctionRef}
    (h : nearestContinuation stack = some (f, rest)) (v : Value) :
    Within s (plug rest (.bind (.ret v) f)) (plug stack (.ret v)) := by
  induction stack with
  | nil => cases h
  | cons frame below ih =>
    cases frame with
    | bind g =>
      cases h
      exact .refl _
    | tryWith g => exact (ih h).trans (within_plug (.of_permits (.tryValue (.ret v))) below)

theorem permits_value {s : Surroundings} {stack : List Frame}
    (h : nearestContinuation stack = none) (v : Value) :
    Permits s (plug stack (.ret v)) (.ok v) := by
  induction stack with
  | nil => exact .ret v
  | cons frame below ih =>
    cases frame with
    | bind g => cases h
    | tryWith g => exact within_plug (.of_permits (.tryValue (.ret v))) below _ (ih h)

theorem within_handler {s : Surroundings} {stack rest : List Frame} {f : FunctionRef}
    (h : nearestHandler stack = some (f, rest)) (e : WorkflowError) :
    Within s (plug rest (.tryWith (.raise e) f)) (plug stack (.raise e)) := by
  induction stack with
  | nil => cases h
  | cons frame below ih =>
    cases frame with
    | bind g => exact (ih h).trans (within_plug (.of_permits (.bindError (.raise e))) below)
    | tryWith g =>
      cases h
      exact .refl _

theorem permits_error {s : Surroundings} {stack : List Frame} (h : nearestHandler stack = none)
    (e : WorkflowError) : Permits s (plug stack (.raise e)) (.error e) := by
  induction stack with
  | nil => exact .raise e
  | cons frame below ih =>
    cases frame with
    | bind g => exact within_plug (.of_permits (.bindError (.raise e))) below _ (ih h)
    | tryWith g => cases h

/-- A machine gives nothing that a workflow does not permit. -/
def Pursues (s : Surroundings) (w : Workflow) (m : Machine) : Prop :=
  ∃ u, Part m.control u ∧ Within s (plug m.stack u) w

theorem pursues_start (s : Surroundings) (w : Workflow) : Pursues s w (.start w) :=
  ⟨w, .eval w, .refl w⟩

theorem pursues_resume {s : Surroundings} {w : Workflow} {stack : List Frame}
    {r : Except WorkflowError Value} (h : Within s (plug stack (.ofResult r)) w) :
    Pursues s w ⟨stack, .resume (r.mapError .error)⟩ :=
  ⟨.ofResult r, part_ofResult r, h⟩

/-- What a step leads to gives nothing that a workflow does not permit. -/
def Step.Pursues (s : Surroundings) (w : Workflow) : Step → Prop
  | .next m => Machine.Pursues s w m
  | .operate op stack => Within s (plug stack (.perform op)) w
  | .fork kind children stack => Within s (plug stack (kind.workflow children)) w
  | .finished o => ∃ r : Except WorkflowError Value, Permits s w r ∧ o = r.mapError .error
  | .aborted _ => False

theorem pursues_continuation {s : Surroundings} (calm : s.registry.Calm) {w : Workflow}
    {rest : List Frame} {f : FunctionRef} {v : Value}
    (h : Within s (plug rest (.bind (.ret v) f)) w) :
    (Step.ofReply rest (s.registry.continueWith f v)).Pursues s w := by
  cases hr : s.registry.continueWith f v with
  | ok next =>
    have hw : Within s next (.bind (.ret v) f) := fun r hr' => .bind (.ret v) hr hr'
    exact ⟨next, .eval next, (within_plug hw rest).trans h⟩
  | failed e =>
    have hp : Permits s (.bind (.ret v) f) (.error e) := .bindFailed (.ret v) hr
    exact ⟨.raise e, .error e, (within_plug (.of_permits hp) rest).trans h⟩
  | aborted message => exact calm.continueWith hr

theorem pursues_handler {s : Surroundings} (calm : s.registry.Calm) {w : Workflow}
    {rest : List Frame} {f : FunctionRef} {e : WorkflowError}
    (h : Within s (plug rest (.tryWith (.raise e) f)) w) :
    (Step.ofReply rest (s.registry.handle f e)).Pursues s w := by
  cases hr : s.registry.handle f e with
  | ok next =>
    have hw : Within s next (.tryWith (.raise e) f) := fun r hr' => .handled (.raise e) hr hr'
    exact ⟨next, .eval next, (within_plug hw rest).trans h⟩
  | failed d =>
    have hp : Permits s (.tryWith (.raise e) f) (.error d) := .handlerFailed (.raise e) hr
    exact ⟨.raise d, .error d, (within_plug (.of_permits hp) rest).trans h⟩
  | aborted message => exact calm.handle hr

theorem pursues_eval {s : Surroundings} {w u : Workflow} {stack : List Frame}
    (h : Within s (plug stack u) w) : (eval stack u).Pursues s w := by
  cases u with
  | ret v => exact ⟨_, .value v, h⟩
  | raise e => exact ⟨_, .error e, h⟩
  | bind u f => exact ⟨u, .eval u, h⟩
  | tryWith u f => exact ⟨u, .eval u, h⟩
  | parallel us => exact h
  | choice us => exact h
  | perform op => exact h

theorem pursues_resumed {s : Surroundings} (calm : s.registry.Calm) {w u : Workflow}
    {stack : List Frame} {o : Outcome} (part : Part (.resume o) u)
    (h : Within s (plug stack u) w) : (resume s.registry stack o).Pursues s w := by
  cases part with
  | value v =>
    simp only [resume]
    split
    · next none => exact ⟨.ok v, h _ (permits_value none v), rfl⟩
    · next f rest found => exact pursues_continuation calm ((within_continuation found v).trans h)
  | error e =>
    simp only [resume]
    split
    · next none => exact ⟨.error e, h _ (permits_error none e), rfl⟩
    · next f rest found => exact pursues_handler calm ((within_handler found e).trans h)

theorem Pursues.step {s : Surroundings} (calm : s.registry.Calm) {w : Workflow} {m : Machine}
    (h : Pursues s w m) : (m.step s.registry).Pursues s w := by
  obtain ⟨stack, control⟩ := m
  obtain ⟨u, part, within⟩ := h
  cases control with
  | eval v =>
    cases part
    exact pursues_eval within
  | resume o => exact pursues_resumed calm part within

end Machine

end WorkflowEngine
