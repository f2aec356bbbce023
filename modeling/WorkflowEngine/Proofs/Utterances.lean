import WorkflowEngine.Cluster.Step
import WorkflowEngine.Proofs.CachedKeys
import WorkflowEngine.Proofs.Semantics
/-!
What the parts of a workflow without forks log, one after the other, without machines and workers.
A machine that evaluates such a workflow logs its messages in this order.
-/
set_option autoImplicit false

namespace WorkflowEngine

/-- The replies of an operation, whatever the answers to its requests are. -/
inductive Effect.Replies : Effect → Reply Value → Prop
  | value (v : Value) : Replies (.immediate (.ok v)) (.ok v)
  | error (e : WorkflowError) : Replies (.immediate (.error e)) (.failed e)
  | guarded {p : Program (Reply Value)} {r : Reply Value} (gives : p.Gives r) :
      Replies (.guarded p) r

/-- The messages that a workflow without forks logs until it comes to a reply, in their order.
There is no reply when it is cut off, which may be anywhere. -/
inductive Utters (s : Surroundings) : Workflow → List String → Option (Reply Value) → Prop
  | cut (w : Workflow) : Utters s w [] none
  | ret (v : Value) : Utters s (.ret v) [] (some (.ok v))
  | raise (e : WorkflowError) : Utters s (.raise e) [] (some (.failed e))
  | perform {op : Operation} {r : Reply Value} (worker : WorkerId)
      (replies : (op.effect { s with worker }).Replies r) :
      Utters s (.perform op) op.message?.toList (some r)
  | performing (op : Operation) : Utters s (.perform op) op.message?.toList none
  | bind {w next : Workflow} {f : FunctionRef} {v : Value} {before after : List String}
      {r : Option (Reply Value)} (body : Utters s w before (some (.ok v)))
      (call : s.registry.continueWith f v = .ok next) (rest : Utters s next after r) :
      Utters s (.bind w f) (before ++ after) r
  | bindFailed {w : Workflow} {f : FunctionRef} {v : Value} {e : WorkflowError}
      {messages : List String} (body : Utters s w messages (some (.ok v)))
      (call : s.registry.continueWith f v = .failed e) :
      Utters s (.bind w f) messages (some (.failed e))
  | bindAborted {w : Workflow} {f : FunctionRef} {v : Value} {cause : Option String}
      {messages : List String} (body : Utters s w messages (some (.ok v)))
      (call : s.registry.continueWith f v = .aborted cause) :
      Utters s (.bind w f) messages (some (.aborted cause))
  | bindEnds {w : Workflow} {f : FunctionRef} {messages : List String} {r : Option (Reply Value)}
      (body : Utters s w messages r) (ends : ∀ v, r ≠ some (.ok v)) :
      Utters s (.bind w f) messages r
  | handled {w next : Workflow} {f : FunctionRef} {e : WorkflowError} {before after : List String}
      {r : Option (Reply Value)} (body : Utters s w before (some (.failed e)))
      (call : s.registry.handle f e = .ok next) (rest : Utters s next after r) :
      Utters s (.tryWith w f) (before ++ after) r
  | handlerFailed {w : Workflow} {f : FunctionRef} {d e : WorkflowError} {messages : List String}
      (body : Utters s w messages (some (.failed d))) (call : s.registry.handle f d = .failed e) :
      Utters s (.tryWith w f) messages (some (.failed e))
  | handlerAborted {w : Workflow} {f : FunctionRef} {e : WorkflowError} {cause : Option String}
      {messages : List String} (body : Utters s w messages (some (.failed e)))
      (call : s.registry.handle f e = .aborted cause) :
      Utters s (.tryWith w f) messages (some (.aborted cause))
  | tryEnds {w : Workflow} {f : FunctionRef} {messages : List String} {r : Option (Reply Value)}
      (body : Utters s w messages r) (ends : ∀ e, r ≠ some (.failed e)) :
      Utters s (.tryWith w f) messages r

/-- Whether what is left of a whole workflow is another one, after some messages. -/
def Leaves (s : Surroundings) (before : List String) (w whole : Workflow) : Prop :=
  ∀ messages r, Utters s w messages r → Utters s whole (before ++ messages) r

namespace Leaves

variable {s : Surroundings} {before after : List String} {u v w : Workflow}

theorem refl (w : Workflow) : Leaves s [] w w := fun _ _ h => h

theorem trans (h : Leaves s after u v) (h' : Leaves s before v w) :
    Leaves s (before ++ after) u w := by
  intro messages r hr
  rw [List.append_assoc]
  exact h' _ r (h messages r hr)

/-- A part goes on as another one without a message. -/
theorem head (h : Leaves s [] u v) (h' : Leaves s before v w) : Leaves s before u w := by
  simpa using h.trans h'

theorem bind (h : Leaves s before u w) (f : FunctionRef) :
    Leaves s before (.bind u f) (.bind w f) := by
  intro messages r hr
  cases hr with
  | cut => exact .bindEnds (h _ _ (.cut u)) (by simp)
  | bind body call rest =>
    rw [← List.append_assoc]
    exact .bind (h _ _ body) call rest
  | bindFailed body call => exact .bindFailed (h _ _ body) call
  | bindAborted body call => exact .bindAborted (h _ _ body) call
  | bindEnds body ends => exact .bindEnds (h _ _ body) ends

theorem tryWith (h : Leaves s before u w) (f : FunctionRef) :
    Leaves s before (.tryWith u f) (.tryWith w f) := by
  intro messages r hr
  cases hr with
  | cut => exact .tryEnds (h _ _ (.cut u)) (by simp)
  | handled body call rest =>
    rw [← List.append_assoc]
    exact .handled (h _ _ body) call rest
  | handlerFailed body call => exact .handlerFailed (h _ _ body) call
  | handlerAborted body call => exact .handlerAborted (h _ _ body) call
  | tryEnds body ends => exact .tryEnds (h _ _ body) ends

theorem ret {x : Value} (h : Utters s w before (some (.ok x))) (stops : Utters s w before none) :
    Leaves s before (.ret x) w := by
  intro messages r hr
  cases hr with
  | cut | ret => simpa using by assumption

theorem raise {e : WorkflowError} (h : Utters s w before (some (.failed e)))
    (stops : Utters s w before none) : Leaves s before (.raise e) w := by
  intro messages r hr
  cases hr with
  | cut | raise => simpa using by assumption

/-- What was logged so far is logged by the whole when it is cut off here. -/
theorem stops (h : Leaves s before u w) : Utters s w before none := by
  simpa using h _ _ (.cut u)

end Leaves

/-! ## What machines log -/

namespace Machine

variable {s : Surroundings} {before after : List String} {u v w : Workflow}
  {stack rest : List Frame} {f : FunctionRef}

theorem leaves_plug (h : Leaves s before u w) (stack : List Frame) :
    Leaves s before (plug stack u) (plug stack w) := by
  induction stack generalizing u w with
  | nil => exact h
  | cons frame rest ih =>
    cases frame with
    | bind f => exact ih (h.bind f)
    | tryWith f => exact ih (h.tryWith f)

theorem leaves_continuation (found : nearestContinuation stack = some (f, rest)) (v : Value) :
    Leaves s [] (plug rest (.bind (.ret v) f)) (plug stack (.ret v)) := by
  induction stack with
  | nil => cases found
  | cons frame below ih =>
    cases frame with
    | bind g =>
      cases found
      exact .refl _
    | tryWith g =>
      have through : Leaves s [] (.ret v) (.tryWith (.ret v) g) :=
        .ret (.tryEnds (.ret v) (by simp)) (.cut _)
      exact (ih found).head (leaves_plug through below)

theorem utters_value (none : nearestContinuation stack = none) (v : Value) :
    Utters s (plug stack (.ret v)) [] (some (.ok v)) := by
  induction stack with
  | nil => exact .ret v
  | cons frame below ih =>
    cases frame with
    | bind g => cases none
    | tryWith g =>
      have through : Leaves s [] (.ret v) (.tryWith (.ret v) g) :=
        .ret (.tryEnds (.ret v) (by simp)) (.cut _)
      exact leaves_plug through below _ _ (ih none)

theorem leaves_handler (found : nearestHandler stack = some (f, rest)) (e : WorkflowError) :
    Leaves s [] (plug rest (.tryWith (.raise e) f)) (plug stack (.raise e)) := by
  induction stack with
  | nil => cases found
  | cons frame below ih =>
    cases frame with
    | bind g =>
      have through : Leaves s [] (.raise e) (.bind (.raise e) g) :=
        .raise (.bindEnds (.raise e) (by simp)) (.cut _)
      exact (ih found).head (leaves_plug through below)
    | tryWith g =>
      cases found
      exact .refl _

theorem utters_error (none : nearestHandler stack = none) (e : WorkflowError) :
    Utters s (plug stack (.raise e)) [] (some (.failed e)) := by
  induction stack with
  | nil => exact .raise e
  | cons frame below ih =>
    cases frame with
    | bind g =>
      have through : Leaves s [] (.raise e) (.bind (.raise e) g) :=
        .raise (.bindEnds (.raise e) (by simp)) (.cut _)
      exact leaves_plug through below _ _ (ih none)
    | tryWith g => cases none

/-- What is neither a value nor an error passes all continuations and handlers. -/
theorem utters_plug {messages : List String} {r : Option (Reply Value)}
    (h : Utters s u messages r) (value : ∀ v, r ≠ some (.ok v))
    (error : ∀ e, r ≠ some (.failed e)) (stack : List Frame) :
    Utters s (plug stack u) messages r := by
  induction stack generalizing u with
  | nil => exact h
  | cons frame below ih =>
    cases frame with
    | bind g => exact ih (.bindEnds h value)
    | tryWith g => exact ih (.tryEnds h error)

/-- What is left of a workflow, after some messages, is at the part where a machine is. -/
def Recites (s : Surroundings) (w : Workflow) (before : List String) (m : Machine) : Prop :=
  ∃ u, Part m.control u ∧ Leaves s before (plug m.stack u) w

theorem recites_start (s : Surroundings) (w : Workflow) : Recites s w [] (.start w) :=
  ⟨w, .eval w, .refl w⟩

/-- The outcome of an evaluation that comes to a reply. -/
def outcomeOf : Reply Value → Outcome
  | .ok v => .ok v
  | .failed e => .error (.error e)
  | .aborted cause => .error (.error (Cluster.abortError cause))

/-- Where a step of a machine leads that has logged some messages. -/
def Step.Recites (s : Surroundings) (w : Workflow) (before : List String) : Step → Prop
  | .next m => Machine.Recites s w before m
  | .operate op stack => Leaves s before (plug stack (.perform op)) w
  | .fork _ _ _ => True
  | .finished o => ∃ r, Utters s w before (some r) ∧ o = outcomeOf r
  | .aborted cause => Utters s w before (some (.aborted cause))

theorem recites_continuation {v : Value} (h : Leaves s before (plug rest (.bind (.ret v) f)) w) :
    (Step.ofReply rest (s.registry.continueWith f v)).Recites s w before := by
  cases call : s.registry.continueWith f v with
  | ok next =>
    have goes : Leaves s [] next (.bind (.ret v) f) := fun _ _ hr => .bind (.ret v) call hr
    exact ⟨next, .eval next, (leaves_plug goes rest).head h⟩
  | failed e =>
    have goes : Leaves s [] (.raise e) (.bind (.ret v) f) :=
      .raise (.bindFailed (.ret v) call) (.cut _)
    exact ⟨.raise e, .error e, (leaves_plug goes rest).head h⟩
  | aborted cause =>
    have ends := utters_plug (.bindAborted (.ret v) call) (by simp) (by simp) rest
    exact List.append_nil before ▸ h _ _ ends

theorem recites_handler {e : WorkflowError}
    (h : Leaves s before (plug rest (.tryWith (.raise e) f)) w) :
    (Step.ofReply rest (s.registry.handle f e)).Recites s w before := by
  cases call : s.registry.handle f e with
  | ok next =>
    have goes : Leaves s [] next (.tryWith (.raise e) f) := fun _ _ hr =>
      .handled (.raise e) call hr
    exact ⟨next, .eval next, (leaves_plug goes rest).head h⟩
  | failed d =>
    have goes : Leaves s [] (.raise d) (.tryWith (.raise e) f) :=
      .raise (.handlerFailed (.raise e) call) (.cut _)
    exact ⟨.raise d, .error d, (leaves_plug goes rest).head h⟩
  | aborted cause =>
    have ends := utters_plug (.handlerAborted (.raise e) call) (by simp) (by simp) rest
    exact List.append_nil before ▸ h _ _ ends

theorem recites_eval (h : Leaves s before (plug stack u) w) :
    (eval stack u).Recites s w before := by
  cases u with
  | ret v => exact ⟨_, .value v, h⟩
  | raise e => exact ⟨_, .error e, h⟩
  | bind u f => exact ⟨u, .eval u, h⟩
  | tryWith u f => exact ⟨u, .eval u, h⟩
  | parallel us => trivial
  | choice us => trivial
  | perform op => exact h

theorem recites_resumed {o : Outcome} (part : Part (.resume o) u)
    (h : Leaves s before (plug stack u) w) :
    (resume s.registry stack o).Recites s w before := by
  cases part with
  | value v =>
    simp only [resume]
    split
    · next none => exact ⟨.ok v, by simpa using h _ _ (utters_value none v), rfl⟩
    · next f rest found => exact recites_continuation ((leaves_continuation found v).head h)
  | error e =>
    simp only [resume]
    split
    · next none => exact ⟨.failed e, by simpa using h _ _ (utters_error none e), rfl⟩
    · next f rest found => exact recites_handler ((leaves_handler found e).head h)

/-- A step of a machine stays in the order of the workflow. -/
theorem Recites.step {m : Machine} (h : Recites s w before m) :
    (m.step s.registry).Recites s w before := by
  obtain ⟨stack, control⟩ := m
  obtain ⟨u, part, leaves⟩ := h
  cases control with
  | eval v =>
    cases part
    exact recites_eval leaves
  | resume o => exact recites_resumed part leaves

/-- A machine goes on with the value that an operation gives, after its message. -/
theorem recites_value {op : Operation} {worker : WorkerId} {v : Value}
    (h : Leaves s before (plug stack (.perform op)) w)
    (replies : (op.effect { s with worker }).Replies (.ok v)) :
    Recites s w (before ++ op.message?.toList) ⟨stack, .resume (.ok v)⟩ := by
  have goes : Leaves s op.message?.toList (.ret v) (.perform op) :=
    .ret (.perform worker replies) (.performing op)
  exact ⟨.ret v, .value v, (leaves_plug goes stack).trans h⟩

theorem recites_error {op : Operation} {worker : WorkerId} {e : WorkflowError}
    (h : Leaves s before (plug stack (.perform op)) w)
    (replies : (op.effect { s with worker }).Replies (.failed e)) :
    Recites s w (before ++ op.message?.toList) ⟨stack, .resume (.error (.error e))⟩ := by
  have goes : Leaves s op.message?.toList (.raise e) (.perform op) :=
    .raise (.perform worker replies) (.performing op)
  exact ⟨.raise e, .error e, (leaves_plug goes stack).trans h⟩

theorem utters_abort {op : Operation} {worker : WorkerId} {cause : Option String}
    (h : Leaves s before (plug stack (.perform op)) w)
    (replies : (op.effect { s with worker }).Replies (.aborted cause)) :
    Utters s w (before ++ op.message?.toList) (some (.aborted cause)) :=
  h _ _ (utters_plug (.perform worker replies) (by simp) (by simp) stack)

/-- An operation may be cut off after its message. -/
theorem utters_performing {op : Operation} (h : Leaves s before (plug stack (.perform op)) w) :
    Utters s w (before ++ op.message?.toList) none :=
  h _ _ (utters_plug (.performing op) (by simp) (by simp) stack)

end Machine

end WorkflowEngine
