import WorkflowEngine.Cluster.Engine
/-!
Runs of an engine. Its moves come in any order, and between them jobs are submitted, cancelled and
forgotten, time passes and the engine may be shut down. For each move and each request there is a
lemma that tells all it can do; invariants follow from these.
-/
set_option autoImplicit false

namespace WorkflowEngine

/-- What happens to an engine. `arrange` stands for the order in which woken threads take turns. -/
inductive Event where
  | submit (name : String) (w : Workflow)
  | cancel (job : JobId)
  | forget (job : JobId)
  | shutdown
  | elapse (time : Nat)
  | arrange (ready : List Thread)
  | move (m : Move)

namespace Cluster

/-- The state after an event. A request that is refused changes nothing and is no event. -/
def after (c : Cluster) : Event → Option Cluster
  | .submit name w => some (c.submit name w).2
  | .cancel job => (c.cancel job).toOption
  | .forget job => (c.forget job).toOption
  | .shutdown => some c.shutdown
  | .elapse time => some (c.elapseTo time)
  | .arrange ready => some { c with ready }
  | .move m => c.step m

/-- One state follows another by events that are permitted where they happen. -/
inductive Run (P : Cluster → Event → Prop) : Cluster → Cluster → Prop
  | refl (c : Cluster) : Run P c c
  | step {a b c : Cluster} {ev : Event} (run : Run P a b) (may : P b ev)
      (next : b.after ev = some c) : Run P a c

/-- One state follows another by whatever happens. -/
abbrev Reaches : Cluster → Cluster → Prop := Run fun _ _ => True

namespace Run

variable {P Q : Cluster → Event → Prop} {a b c : Cluster}

theorem single {ev : Event} (may : P a ev) (next : a.after ev = some b) : Run P a b :=
  .step (.refl a) may next

theorem trans (first : Run P a b) (last : Run P b c) : Run P a c := by
  induction last with
  | refl => exact first
  | step _ may next ih => exact .step ih may next

theorem mono (h : ∀ c ev, P c ev → Q c ev) (run : Run P a b) : Run Q a b := by
  induction run with
  | refl => exact .refl _
  | step _ may next ih => exact .step ih (h _ _ may) next

theorem reaches (run : Run P a b) : Reaches a b := run.mono fun _ _ _ => trivial

end Run

theorem get?_setPhase (c : Cluster) (id : EvaluationId) (e : Evaluation) (phase : Phase) :
    (c.setPhase id e phase).evaluations.get? id = some { e with phase } :=
  (Table.get?_insert _ _ _ _).trans (if_pos rfl)

theorem advance_eq {c : Cluster} {id : EvaluationId} {e : Evaluation}
    (live : c.evaluations.get? id = some e) :
    c.advance id = (turn c.scopes e).bind (c.take id e) := by
  simp only [advance, live, Option.bind_eq_bind, Option.bind_some]

section Steps

variable {c c' : Cluster} {job : JobId} {id : EvaluationId} {e : Evaluation} {i : Nat}

theorem begin_cases (h : c.beginJob job = some c') :
    ∃ w scope, c.threads.get? job = some (.submitted w scope) ∧
      c' = { c with threads := c.threads.insert job .waiting }.dispatch job none scope w := by
  unfold beginJob at h
  split at h
  · next w scope thread =>
    cases h
    exact ⟨w, scope, thread, rfl⟩
  · cases h

theorem receive_cases (h : c.receive i = some c') :
    ∃ worker d rest, c.workers[i]? = some worker ∧ worker.listening = true ∧
      worker.inbox = d :: rest ∧
      ((∃ e, c.evaluations.get? d.evaluation = some e ∧
          c' = ((c.modifyWorker i fun w => { w with inbox := rest }).setPhase d.evaluation e
            (.accepted d.payload)).wake (.evaluation d.evaluation)) ∨
        (c.evaluations.get? d.evaluation = none ∧
          c' = c.modifyWorker i fun w => { w with inbox := rest })) := by
  obtain ⟨worker, at_slot, h⟩ := Option.bind_eq_some_iff.1 h
  cases listens : worker.listening with
  | false => simp [listens] at h
  | true =>
    cases inbox : worker.inbox with
    | nil => simp [listens, inbox] at h
    | cons d rest =>
      simp only [listens, inbox, Bool.not_true, Bool.false_eq_true, if_false] at h
      refine ⟨worker, d, rest, at_slot, listens, inbox, ?_⟩
      split at h <;> cases h
      · next e live => exact .inl ⟨e, live, rfl⟩
      · next absent => exact .inr ⟨absent, rfl⟩

theorem close_cases (h : c.close i = some c') :
    ∃ worker, c.workers[i]? = some worker ∧ worker.listening = true ∧
      c.scopes.isCancelled .root = true ∧
      c' = worker.inbox.foldl (dropDelivery worker.id)
        (c.modifyWorker i fun w => { w with listening := false, inbox := [] }) := by
  obtain ⟨worker, at_slot, h⟩ := Option.bind_eq_some_iff.1 h
  split at h
  · cases h
  · next may =>
    cases h
    simp only [Bool.or_eq_true, Bool.not_eq_true', not_or, Bool.not_eq_false] at may
    exact ⟨worker, at_slot, may.1, may.2, rfl⟩

theorem advance_cases (h : c.advance id = some c') :
    ∃ e t, c.evaluations.get? id = some e ∧ turn c.scopes e = some t ∧ c.take id e t = some c' := by
  obtain ⟨e, live, h⟩ := Option.bind_eq_some_iff.1 h
  obtain ⟨t, ht, h⟩ := Option.bind_eq_some_iff.1 h
  exact ⟨e, t, live, ht, h⟩

theorem collect_cases (h : c.collect id = some c') :
    ∃ e r o dispatcher, c.evaluations.get? id = some e ∧ e.phase = .responded r ∧
      (match e.placement with
        | some p => c.dispatcher.settle id p r c.time
        | none => (r.outcome, c.dispatcher)) = (o, dispatcher) ∧
      ((∃ parent, e.parent = some parent ∧
          c' = arrive
            { c with
              dispatcher
              evaluations := c.evaluations.erase id
              arrived := c.arrived.filter (·.2 ≠ id) } parent o) ∨
        (e.parent = none ∧
          c' = endJob
            { c with
              dispatcher
              evaluations := c.evaluations.erase id
              arrived := c.arrived.filter (·.2 ≠ id) } e.job o)) := by
  obtain ⟨e, live, h⟩ := Option.bind_eq_some_iff.1 h
  split at h
  · next r responded =>
    split at h
    next o dispatcher settled =>
    refine ⟨e, r, o, dispatcher, live, responded, settled, ?_⟩
    split at h <;> cases h
    · next parent child => exact .inl ⟨parent, child, rfl⟩
    · next root => exact .inr ⟨root, rfl⟩
  · cases h

theorem cancel_cases (h : c.after (.cancel job) = some c') :
    ∃ entry, c.jobs.get? job = some entry ∧ entry.job.status.isTerminal = false ∧
      c' = c.cancelScope entry.scope := by
  simp only [after, cancel] at h
  split at h
  · cases h
  · next entry known =>
    split at h <;> cases h
    exact ⟨entry, known, eq_false_of_ne_true ‹_›, rfl⟩

theorem forget_cases (h : c.after (.forget job) = some c') :
    ∃ entry, c.jobs.get? job = some entry ∧ entry.job.status.isTerminal = true ∧
      c' =
        { c with
          jobs := c.jobs.erase job
          dispatcher := { c.dispatcher with ledger := (c.dispatcher.ledger.prune job).2 } } := by
  simp only [after, forget] at h
  split at h
  · cases h
  · next entry known =>
    split at h <;> cases h
    exact ⟨entry, known, ‹_›, rfl⟩

theorem advance_running {m : Machine} (live : c.evaluations.get? id = some e)
    (running : e.phase = .running m) (free : c.scopes.isCancelled e.scope = false) :
    c.advance id = some (c.runMachine id { e with steps := e.steps + 1 } m) := by
  rw [advance_eq live]
  unfold turn
  rw [running]
  simp only [free, Bool.false_eq_true, if_false]
  rfl

theorem advance_stopped {m : Machine} (live : c.evaluations.get? id = some e)
    (running : e.phase = .running m) (cancelled : c.scopes.isCancelled e.scope = true) :
    c.advance id = some (c.finish id e (.error .cancelled)) := by
  rw [advance_eq live]
  unfold turn
  rw [running]
  simp only [cancelled, if_true]
  rfl

theorem runMachine_next {m m' : Machine} (h : m.step c.registry = .next m') :
    c.runMachine id e m = c.setPhase id e (.running m') := by
  unfold runMachine
  rw [h]

theorem runMachine_finished {m : Machine} {o : Outcome} (h : m.step c.registry = .finished o) :
    c.runMachine id e m = c.finish id e o := by
  unfold runMachine
  rw [h]

theorem runMachine_aborted {m : Machine} {message : Option String}
    (h : m.step c.registry = .aborted message) :
    c.runMachine id e m = c.finish id e (.error (.error (abortError message))) := by
  unfold runMachine
  rw [h]

/-- A step of a machine that neither waits nor ends. -/
theorem after_moved (id : EvaluationId) {m m' : Machine}
    (live : c.evaluations.get? id = some e) (running : e.phase = .running m)
    (free : c.scopes.isCancelled e.scope = false) (next : m.step c.registry = .next m') :
    c.after (.move (.advance id)) =
      some (c.setPhase id { e with steps := e.steps + 1 } (.running m')) :=
  (advance_running live running free).trans (congrArg some (runMachine_next next))

theorem after_finished (id : EvaluationId) {m : Machine} {o : Outcome}
    (live : c.evaluations.get? id = some e) (running : e.phase = .running m)
    (free : c.scopes.isCancelled e.scope = false) (finished : m.step c.registry = .finished o) :
    c.after (.move (.advance id)) = some (c.finish id { e with steps := e.steps + 1 } o) :=
  (advance_running live running free).trans (congrArg some (runMachine_finished finished))

end Steps

/-- A worker starts on a payload that it can decode. -/
theorem after_accepted {c : Cluster} (id : EvaluationId) {e : Evaluation} {payload : String}
    {w : Workflow} (live : c.evaluations.get? id = some e) (accepted : e.phase = .accepted payload)
    (decoded : Workflow.decode payload = .ok w) :
    c.after (.move (.advance id)) = some (c.setPhase id e (.running (.start w))) := by
  have ht : turn c.scopes e = some (.start w) := by
    unfold turn
    rw [accepted]
    simp only [decoded]
  simp only [after, step, advance, live, ht, Option.bind_eq_bind, Option.bind_some]
  rfl

/-- A response of a child arrives as the outcome that is decoded from it. -/
theorem after_collected {c : Cluster} (id : EvaluationId) {e : Evaluation} {r : Response}
    {p : Placement} {parent : Parent} {o : Outcome} (live : c.evaluations.get? id = some e)
    (responded : e.phase = .responded r) (placed : e.placement = some p)
    (child : e.parent = some parent) (outcome : r.outcome = o) :
    c.after (.move (.collect id)) = some (arrive
      { c with
        dispatcher := ⟨c.dispatcher.pool.release p.slot, c.dispatcher.ledger.finish id o.status c.time⟩
        evaluations := c.evaluations.erase id
        arrived := c.arrived.filter (·.2 ≠ id) } parent o) := by
  subst outcome
  simp only [after, step, collect, live, responded, placed, child, Option.bind_eq_bind,
    Option.bind_some]
  rfl

end Cluster

end WorkflowEngine
