import WorkflowEngine.Proofs.Aborts
import WorkflowEngine.Proofs.Run
import Mathlib
/-!
An engine beside one whose functions raise errors instead of aborting. The two show the same until
a call aborts among the frames of a handler of its own evaluation.
-/
set_option autoImplicit false

namespace WorkflowEngine

open Cluster (abortError)

/-- Whether the next call of an evaluation aborts or its last one did, and the frames around it. -/
inductive Phase.Aborts (r : Registry) : Phase → Option String → List Frame → Prop
  | call {m : Machine} {message : Option String} (aborts : m.step r = .aborted message) :
      Aborts r (.running m) message m.around
  | operation {message : Option String} {due : Option Nat} {stack : List Frame} :
      Aborts r (.operating (.done (.aborted message)) due stack) message stack

/-- How far an evaluation is, and how far if aborts are raised as errors. The second one may have an
error on its way that no handler will take. -/
inductive Phase.Raises (r : Registry) (cancelled : Bool) : Phase → Phase → Prop
  | same {phase : Phase} (idle : ∀ p due stack, phase ≠ .operating p due stack) :
      Raises r cancelled phase phase
  | operating {p : Program (Reply Value)} {due : Option Nat} {stack : List Frame} :
      Raises r cancelled (.operating p due stack) (.operating (Reply.raising <$> p) due stack)
  | raised {phase : Phase} {message : Option String} {stack : List Frame}
      (aborts : phase.Aborts r message stack) (bare : Machine.nearestHandler stack = none) :
      Raises r cancelled phase (.running (.raising stack message))
  | stopped {m m' : Machine} (stops : cancelled = true) :
      Raises r cancelled (.running m) (.running m')

theorem Phase.Raises.mono {r : Registry} {b b' : Bool} {phase phase' : Phase}
    (h : phase.Raises r b phase') (hb : b = true → b' = true) : phase.Raises r b' phase' := by
  cases h with
  | same idle => exact .same idle
  | operating => exact .operating
  | raised aborts bare => exact .raised aborts bare
  | stopped stops => exact .stopped (hb stops)

/-- The evaluations differ in nothing but how far they are. -/
inductive Evaluation.Raises (r : Registry) (t : ScopeTree) (e : Evaluation) : Evaluation → Prop
  | intro {steps : Nat} {phase : Phase} (h : e.phase.Raises r (t.isCancelled e.scope) phase) :
      Raises r t e { e with steps, phase }

namespace Cluster

/-- The second engine raises errors for the aborts of the first one. Nothing else in them differs,
apart from the order of turns. -/
inductive Raises (c : Cluster) : Cluster → Prop
  | intro {evaluations : Table EvaluationId Evaluation} {ready : List Thread}
      {arrived : List (Thread × EvaluationId)}
      (h : ∀ id, Option.Rel (Evaluation.Raises c.registry c.scopes) (c.evaluations.get? id)
        (evaluations.get? id)) :
      Raises c { c with registry := c.registry.raising, evaluations, ready, arrived }

namespace Raises

variable {c d : Cluster} {id : EvaluationId} {e : Evaluation}

theorem found (h : c.Raises d) (id : EvaluationId) :
    (c.evaluations.get? id = none ∧ d.evaluations.get? id = none) ∨
    ∃ e steps phase, c.evaluations.get? id = some e ∧
      d.evaluations.get? id = some { e with steps, phase } ∧
      e.phase.Raises c.registry (c.scopes.isCancelled e.scope) phase := by
  obtain @⟨evaluations, ready, arrived, h⟩ := h
  have known := h id
  dsimp only
  generalize c.evaluations.get? id = found, evaluations.get? id = found' at known ⊢
  cases known with
  | none => exact .inl ⟨rfl, rfl⟩
  | some he =>
    obtain ⟨he⟩ := he
    exact .inr ⟨_, _, _, rfl, rfl, he⟩

theorem wake_left (h : c.Raises d) (t : Thread) : (c.wake t).Raises d := by
  unfold Cluster.wake
  split
  · exact h
  · obtain ⟨h⟩ := h
    exact .intro h

theorem wake_right (h : c.Raises d) (t : Thread) : c.Raises (d.wake t) := by
  unfold Cluster.wake
  split
  · exact h
  · obtain ⟨h⟩ := h
    exact .intro h

theorem wake (h : c.Raises d) (t : Thread) : (c.wake t).Raises (d.wake t) :=
  (h.wake_left t).wake_right t

theorem foldl_wake {α : Type} (h : c.Raises d) (f : α → Thread) (l l' : List α) :
    (l.foldl (fun c a => c.wake (f a)) c).Raises (l'.foldl (fun c a => c.wake (f a)) d) := by
  induction l generalizing c with
  | cons a rest ih => exact ih (h.wake_left (f a))
  | nil =>
    induction l' generalizing d with
    | nil => exact h
    | cons a rest ih => exact ih (h.wake_right (f a))

theorem setPhase {e' : Evaluation} {phase phase' : Phase} (h : c.Raises d)
    (he : Evaluation.Raises c.registry c.scopes { e with phase } { e' with phase := phase' }) :
    (c.setPhase id e phase).Raises (d.setPhase id e' phase') := by
  obtain ⟨h⟩ := h
  refine .intro fun id' => ?_
  simp only [Cluster.setPhase, Table.get?_insert]
  split
  · exact .some he
  · exact h id'

theorem setPhase_right {steps : Nat} {before phase : Phase} (h : c.Raises d)
    (live : c.evaluations.get? id = some e)
    (he : e.phase.Raises c.registry (c.scopes.isCancelled e.scope) phase) :
    c.Raises (d.setPhase id { e with steps, phase := before } phase) := by
  obtain ⟨h⟩ := h
  refine .intro fun id' => ?_
  rw [Table.get?_insert]
  split
  · next hid =>
    rw [← hid, live]
    exact .some (.intro he)
  · exact h id'

theorem setPhase_left {steps steps' : Nat} {before phase : Phase} (h : c.Raises d)
    (live : d.evaluations.get? id = some { e with steps, phase := before })
    (he : phase.Raises c.registry (c.scopes.isCancelled e.scope) before) :
    (c.setPhase id { e with steps := steps' } phase).Raises d := by
  obtain ⟨h⟩ := h
  refine .intro fun id' => ?_
  simp only [Cluster.setPhase, Table.get?_insert]
  split
  · next hid =>
    rw [← hid]
    dsimp only at live
    rw [live]
    exact .some (.intro he)
  · exact h id'

/-- A phase that both evaluations come to. -/
theorem setPhase_same {steps : Nat} {before phase : Phase} (h : c.Raises d)
    (idle : ∀ p due stack, phase ≠ .operating p due stack) :
    (c.setPhase id e phase).Raises (d.setPhase id { e with steps, phase := before } phase) :=
  h.setPhase (.intro (.same idle))

theorem arrive_any (h : c.Raises d) (a a' : List (Thread × EvaluationId)) :
    { c with arrived := a }.Raises { d with arrived := a' } := by
  obtain ⟨h⟩ := h
  exact .intro h

theorem respond {steps : Nat} {before : Phase} (h : c.Raises d) (r : Response) :
    (c.respond id e r).Raises (d.respond id { e with steps, phase := before } r) := by
  have answered : (c.setPhase id e (.responded r)).Raises
      (d.setPhase id { e with steps, phase := before } (.responded r)) := h.setPhase_same (by simp)
  exact (answered.arrive_any _ _).wake _

theorem modifyWorker (h : c.Raises d) (i : Nat) (f : Worker → Worker) :
    (c.modifyWorker i f).Raises (d.modifyWorker i f) := by
  obtain ⟨h⟩ := h
  exact .intro h

theorem send (h : c.Raises d) (p : Placement) (payload : String) :
    (c.send id e p payload).Raises (d.send id e p payload) := by
  have workers : d.workers = c.workers := by
    cases h
    rfl
  have queued : (c.setPhase id e .queued).Raises (d.setPhase id e .queued) :=
    h.setPhase_same (by simp)
  unfold Cluster.send
  rw [workers]
  split
  · split
    · exact (queued.modifyWorker _ _).wake _
    · exact h.respond _
  · exact h.respond _

theorem dispatch (h : c.Raises d) (job : JobId) (parent : Option Parent) (scope : Scope)
    (w : Workflow) : (c.dispatch job parent scope w).Raises (d.dispatch job parent scope w) := by
  obtain ⟨h⟩ := h
  unfold Cluster.dispatch
  simp only [freshId, Cluster.time]
  split
  · refine respond ?_ _
    exact .intro h
  · refine send ?_ _ _
    exact .intro h

theorem dropDelivery (h : c.Raises d) (worker : WorkerId) (delivery : Delivery) :
    (c.dropDelivery worker delivery).Raises (d.dropDelivery worker delivery) := by
  unfold Cluster.dropDelivery
  rcases h.found delivery.evaluation with ⟨hc, hd⟩ | ⟨e, steps, phase, hc, hd, -⟩
  · rw [hc, hd]
    exact h
  · rw [hc, hd]
    exact h.respond _

theorem foldl_dropDelivery (h : c.Raises d) (worker : WorkerId) (ds : List Delivery) :
    (ds.foldl (Cluster.dropDelivery worker) c).Raises
      (ds.foldl (Cluster.dropDelivery worker) d) := by
  induction ds generalizing c d with
  | nil => exact h
  | cons delivery rest ih => exact ih (h.dropDelivery worker delivery)

theorem scopes_eq (h : c.Raises d) : d.scopes = c.scopes := by
  cases h
  rfl

theorem setScopes (h : c.Raises d) {t : ScopeTree}
    (ht : ∀ s, c.scopes.isCancelled s = true → t.isCancelled s = true) :
    { c with scopes := t }.Raises { d with scopes := t } := by
  have found := h.found
  obtain ⟨h⟩ := h
  refine .intro fun id => ?_
  rcases found id with ⟨hc, hd⟩ | ⟨e, steps, phase, hc, hd, he⟩
  · rw [hc, hd]
    exact .none
  · rw [hc, hd]
    exact .some (.intro (he.mono (ht _)))

theorem cancelScope (h : c.Raises d) (scope : Scope) :
    (c.cancelScope scope).Raises (d.cancelScope scope) := by
  have cancelled := h.setScopes fun s => ScopeTree.isCancelled_cancel (s := s) scope
  unfold Cluster.cancelScope
  rw [h.scopes_eq]
  exact cancelled.foldl_wake (fun entry : EvaluationId × Evaluation => .evaluation entry.1) _ _

/-- Opening a scope cancels nothing. -/
theorem openScope (h : c.Raises d) (scope : Scope) :
    { c with scopes := (c.scopes.child scope).2 }.Raises
      { d with scopes := (c.scopes.child scope).2 } :=
  h.setScopes fun _ hs => hs

theorem setJobs (h : c.Raises d) (jobs : Table JobId JobEntry) (threads : Table JobId JobThread)
    (nextId : Nat) : { c with jobs, threads, nextId }.Raises { d with jobs, threads, nextId } := by
  obtain ⟨h⟩ := h
  exact .intro h

theorem fork {steps : Nat} {before : Phase} (h : c.Raises d) (kind : ForkKind)
    (children : List Workflow) (stack : List Frame) :
    (c.fork id e kind children stack).Raises
      (d.fork id { e with steps, phase := before } kind children stack) := by
  unfold Cluster.fork
  rw [h.scopes_eq]
  split
  · exact h.setPhase_same (by simp)
  · exact (h.openScope e.scope).setPhase_same (by simp)

theorem placeChild {steps : Nat} {before : Phase} (h : c.Raises d) (f : Fork) (w : Workflow)
    (rest : List Workflow) (stack : List Frame) :
    (c.placeChild id e f w rest stack).Raises
      (d.placeChild id { e with steps, phase := before } f w rest stack) := by
  unfold Cluster.placeChild
  rw [h.scopes_eq]
  refine dispatch ?_ _ _ _ _
  exact (h.openScope f.scope).setPhase_same (by simp)

theorem serve {steps : Nat} {before : Phase} (h : c.Raises d) (r : Request) :
    (d.serve { e with steps, phase := before } r).1 = (c.serve e r).1 ∧
      (c.serve e r).2.Raises (d.serve { e with steps, phase := before } r).2 := by
  obtain ⟨h⟩ := h
  cases r with
  | remember key data =>
    refine ⟨rfl, ?_⟩
    simp only [Cluster.serve, Cluster.remember]
    split
    · exact modifyWorker (.intro h) _ _
    · exact .intro h
  | store | cached | freshId | now | pause | append => exact ⟨rfl, .intro h⟩

theorem arrive (h : c.Raises d) (parent : Parent) (o : Outcome) :
    (c.arrive parent o).Raises (d.arrive parent o) := by
  simp only [Cluster.arrive]
  rcases h.found parent.id with ⟨hc, hd⟩ | ⟨⟨job, p, placement, scope, steps₀, before⟩, steps, phase,
    hc, hd, he⟩
  · rw [hc, hd]
    exact h
  · rw [hc, hd]
    cases he with
    | same idle =>
      cases before with
      | joining f stack =>
        dsimp only
        split
        · refine cancelScope ?_ _
          exact h.setPhase_same (by simp)
        · exact h.setPhase_same (by simp)
      | _ => exact h
    | operating => exact h
    | raised aborts bare => cases aborts <;> exact h
    | stopped stops => exact h

theorem endJob (h : c.Raises d) (job : JobId) (o : Outcome) :
    (c.endJob job o).Raises (d.endJob job o) := by
  obtain ⟨h⟩ := h
  simp only [Cluster.endJob]
  split <;> exact .intro h

theorem collect (h : c.Raises d) (id : EvaluationId) :
    Option.Rel Raises (c.collect id) (d.collect id) := by
  have found := h.found id
  obtain @⟨evaluations, ready, arrived, h⟩ := h
  have erased : ∀ id', Option.Rel (Evaluation.Raises c.registry c.scopes)
      ((c.evaluations.erase id).get? id') ((evaluations.erase id).get? id') := by
    intro id'
    simp only [Table.get?_erase]
    split
    · exact .none
    · exact h id'
  unfold Cluster.collect
  rcases found with ⟨hc, hd⟩ | ⟨⟨job, p, placement, scope, steps₀, before⟩, steps, phase, hc, hd, he⟩
  · rw [hc, hd]
    exact .none
  · rw [hc, hd]
    cases he with
    | same idle =>
      cases before with
      | responded r =>
        cases p with
        | some parent =>
          cases placement <;> refine .some (arrive ?_ _ _) <;> exact .intro erased
        | none =>
          cases placement <;> refine .some (endJob ?_ _ _) <;> exact .intro erased
      | _ => exact .none
    | operating => exact .none
    | raised aborts bare => cases aborts <;> exact .none
    | stopped stops => exact .none

theorem beginJob (h : c.Raises d) (job : JobId) :
    Option.Rel Raises (c.beginJob job) (d.beginJob job) := by
  obtain ⟨h⟩ := h
  unfold Cluster.beginJob
  dsimp only
  split
  · refine .some (dispatch ?_ _ _ _ _)
    exact .intro h
  · exact .none

theorem receive (h : c.Raises d) (i : Nat) : Option.Rel Raises (c.receive i) (d.receive i) := by
  have workers : d.workers = c.workers := by
    cases h
    rfl
  unfold Cluster.receive
  rw [workers]
  cases c.workers[i]? with
  | none => exact .none
  | some worker =>
    obtain ⟨name, listening, inbox, cache⟩ := worker
    cases listening with
    | false => exact .none
    | true =>
      cases inbox with
      | nil => exact .none
      | cons delivery rest =>
        have taken := h.modifyWorker i fun w => { w with inbox := rest }
        rcases taken.found delivery.evaluation with ⟨hc, hd⟩ | ⟨e, steps, phase, hc, hd, -⟩
        · simp only [Option.bind_eq_bind, Option.bind_some, hc, hd]
          exact .some taken
        · simp only [Option.bind_eq_bind, Option.bind_some, hc, hd]
          refine .some (wake ?_ _)
          exact taken.setPhase_same (by simp)

theorem close (h : c.Raises d) (i : Nat) : Option.Rel Raises (c.close i) (d.close i) := by
  have workers : d.workers = c.workers := by
    cases h
    rfl
  unfold Cluster.close
  rw [workers, h.scopes_eq]
  cases c.workers[i]? with
  | none => exact .none
  | some worker =>
    simp only [Option.bind_eq_bind, Option.bind_some]
    split
    · exact .none
    · exact .some ((h.modifyWorker i _).foldl_dropDelivery _ _)

theorem registry_eq (h : c.Raises d) : d.registry = c.registry.raising := by
  cases h
  rfl

/-- A step of a machine that does not abort. -/
theorem runMachine {steps : Nat} {before : Phase} (h : c.Raises d) {m : Machine}
    (calm : ∀ message, m.step c.registry ≠ .aborted message)
    (same : m.step c.registry.raising = m.step c.registry) :
    (c.runMachine id e m).Raises (d.runMachine id { e with steps, phase := before } m) := by
  have surroundings : d.surroundings { e with steps, phase := before } =
      { c.surroundings e with registry := (c.surroundings e).registry.raising } := by
    cases h
    rfl
  unfold Cluster.runMachine
  rw [h.registry_eq, same, surroundings]
  split
  · exact h.setPhase_same (by simp)
  · exact h.respond _
  · next message aborts => exact absurd aborts (calm message)
  · exact h.fork _ _ _
  · next op stack operates =>
    rw [op.effect_raising]
    cases op.effect (c.surroundings e) with
    | immediate r => exact h.setPhase_same (by simp)
    | guarded p => exact h.setPhase (.intro .operating)

theorem request {steps : Nat} {before : Phase} (h : c.Raises d) (due : Option Nat)
    (stack : List Frame) (r : Request) (next : r.Answer → Program (Reply Value)) :
    Option.Rel Raises (c.request id e due stack r next)
      (d.request id { e with steps, phase := before } due stack r
        fun answer => Reply.raising <$> next answer) := by
  have now : d.now = c.now := by
    cases h
    rfl
  have serves : ∀ r, (d.serve { e with steps, phase := before } r).1 = (c.serve e r).1 ∧
      (c.serve e r).2.Raises (d.serve { e with steps, phase := before } r).2 := fun r => h.serve r
  cases r with
  | pause micros =>
    simp only [Cluster.request, now]
    cases due with
    | none => exact .some (h.setPhase (.intro .operating))
    | some due =>
      dsimp only
      split
      · exact .some (h.setPhase (.intro .operating))
      · exact .none
  | store | cached | remember | freshId | now | append =>
    simp only [Cluster.request]
    rw [(serves _).1]
    exact .some ((serves _).2.setPhase (.intro .operating))

end Raises

/-- An event by which a call aborts among the frames of a handler of its own evaluation. -/
def Skips (c : Cluster) (ev : Event) : Prop :=
  ∃ id e message stack, ev = .move (.advance id) ∧ c.evaluations.get? id = some e ∧
    c.scopes.isCancelled e.scope = false ∧ e.phase.Aborts c.registry message stack ∧
    Machine.nearestHandler stack ≠ none

/-- How an evaluation advances in both engines. In the second one it has an additional step
between an abort and its end, and in the first one it may have one when it is cancelled then. -/
inductive Pace (c d : Cluster) (id : EvaluationId) : Prop
  | together (h : Option.Rel Raises (c.advance id) (d.advance id))
  | skips (h : c.Skips (.move (.advance id)))
  | later {c' d' d'' : Cluster} (ends : c.advance id = some c') (raises : d.advance id = some d')
      (follows : d'.advance id = some d'') (before : c.Raises d') (after : c'.Raises d'')
  | earlier {c' c'' d' : Cluster} (stops : c.advance id = some c') (ends : c'.advance id = some c'')
      (follows : d.advance id = some d') (before : c'.Raises d) (after : c''.Raises d')

variable {c d : Cluster} {id : EvaluationId} {e : Evaluation}

/-- An error that no handler takes ends an evaluation. -/
theorem advance_unhandled {stack : List Frame} {err : WorkflowError}
    (live : c.evaluations.get? id = some e)
    (running : e.phase = .running ⟨stack, .resume (.error (.error err))⟩)
    (free : c.scopes.isCancelled e.scope = false) (bare : Machine.nearestHandler stack = none) :
    c.advance id = some (c.finish id { e with steps := e.steps + 1 } (.error (.error err))) := by
  rw [advance_running live running free, runMachine_finished (Machine.step_unhandled _ bare _)]

/-- An abort that is raised as an error ends the evaluation one step later, unless a handler takes
the error. -/
theorem Raises.later (h : c.Raises d) (steps steps' : Nat) (phase : Phase)
    {message : Option String} {stack : List Frame} (live : c.evaluations.get? id = some e)
    (free : c.scopes.isCancelled e.scope = false) (aborts : e.phase.Aborts c.registry message stack)
    (ends : c.advance id = some (c.finish id { e with steps := steps' }
      (.error (.error (abortError message)))))
    (raises : d.advance id =
      some (d.setPhase id { e with steps, phase } (.running (.raising stack message)))) :
    Pace c d id := by
  cases bare : Machine.nearestHandler stack with
  | some found => exact .skips ⟨id, e, message, stack, rfl, live, free, aborts, by simp [bare]⟩
  | none =>
    have before : c.Raises (d.setPhase id { e with steps, phase }
        (.running (.raising stack message))) := h.setPhase_right live (.raised aborts bare)
    have follows := advance_unhandled
      (get?_setPhase d id { e with steps, phase } (.running (.raising stack message))) rfl
      (before.scopes_eq ▸ free) bare
    exact .later ends raises follows before (before.respond _)

/-- The turns of an evaluation in the two engines come to the same. -/
theorem Raises.together (h : c.Raises d) {steps : Nat} {phase : Phase}
    (hc : c.evaluations.get? id = some e)
    (hd : d.evaluations.get? id = some { e with steps, phase })
    (same : Option.Rel Raises ((turn c.scopes e).bind (c.take id e))
      ((turn c.scopes { e with steps, phase }).bind (d.take id { e with steps, phase }))) :
    Pace c d id := by
  refine .together ?_
  rw [advance_eq hc, advance_eq hd, h.scopes_eq]
  exact same

/-- An evaluation that is equally far in both engines and calls no operation. -/
theorem Raises.pace_same (h : c.Raises d) {steps : Nat} (hc : c.evaluations.get? id = some e)
    (hd : d.evaluations.get? id = some { e with steps })
    (idle : ∀ p due stack, e.phase ≠ .operating p due stack) : Pace c d id := by
  obtain ⟨job, parent, placement, scope, steps₀, phase⟩ := e
  cases phase with
  | queued => exact h.together hc hd .none
  | responded r => exact h.together hc hd .none
  | operating p due stack => exact absurd rfl (idle p due stack)
  | accepted payload =>
    refine h.together hc hd ?_
    simp only [turn]
    cases Workflow.decode payload with
    | ok w => exact .some (h.setPhase_same (by simp))
    | error err => exact .some (h.respond _)
  | joining f stack =>
    refine h.together hc hd ?_
    simp only [turn]
    cases f.waiting with
    | cons w rest => exact .some (h.placeChild _ _ _ _)
    | nil =>
      dsimp only
      split
      · exact .some (h.setPhase_same (by simp))
      · exact .none
  | running m =>
    cases free : c.scopes.isCancelled scope with
    | true =>
      refine h.together hc hd ?_
      simp only [turn, free, if_true]
      exact .some (h.respond _)
    | false =>
      have moves := advance_running hc rfl free
      have moves' := advance_running hd rfl (h.scopes_eq ▸ free)
      rcases m.step_raising c.registry with ⟨message, aborts, raises⟩ | ⟨calm, same⟩
      · refine h.later (steps + 1) (steps₀ + 1) (.running m) hc free (.call aborts) ?_ ?_
        · rw [moves, runMachine_aborted aborts]
        · rw [moves', runMachine_next (h.registry_eq ▸ raises)]
      · refine .together ?_
        rw [moves, moves']
        exact .some (h.runMachine calm same)

/-- An evaluation that has called an operation. -/
theorem Raises.pace_operating (h : c.Raises d) {steps : Nat} {p : Program (Reply Value)}
    {due : Option Nat} {stack : List Frame} (hc : c.evaluations.get? id = some e)
    (operating : e.phase = .operating p due stack)
    (hd : d.evaluations.get? id =
      some { e with steps, phase := .operating (Reply.raising <$> p) due stack }) :
    Pace c d id := by
  obtain ⟨job, parent, placement, scope, steps₀, phase⟩ := e
  dsimp only at operating
  subst operating
  cases free : c.scopes.isCancelled scope with
  | true =>
    refine h.together hc hd ?_
    simp only [turn, free, if_true]
    exact .some (h.setPhase_same (by simp))
  | false =>
    cases p with
    | ask r next =>
      refine h.together hc hd ?_
      simp only [turn, free, Bool.false_eq_true, if_false]
      exact h.request _ _ _ _
    | done reply =>
      have ends : turn c.scopes ⟨job, parent, placement, scope, steps₀,
          .operating (.done reply) due stack⟩ = some (endOperation stack reply) := by
        simp only [turn, free, Bool.false_eq_true, if_false]
      have ends' : turn c.scopes ⟨job, parent, placement, scope, steps,
          .operating (Reply.raising <$> .done reply) due stack⟩ =
          some (endOperation stack reply.raising) := by
        simp only [turn, free, Bool.false_eq_true, if_false]
        rfl
      cases reply with
      | ok v | failed err =>
        refine h.together hc hd ?_
        rw [ends, ends']
        exact .some (h.setPhase_same (by simp))
      | aborted message =>
        refine h.later steps steps₀ (.operating (Reply.raising <$> .done (.aborted message)) due stack)
          hc free .operation ?_ ?_
        · rw [advance_eq hc, ends]
          rfl
        · rw [advance_eq hd, h.scopes_eq, ends']
          rfl

/-- An abort that no handler would take as an error: the second engine has raised it already. -/
theorem Raises.pace_raised (h : c.Raises d) {steps : Nat} {message : Option String}
    {stack : List Frame} (hc : c.evaluations.get? id = some e)
    (aborts : e.phase.Aborts c.registry message stack)
    (bare : Machine.nearestHandler stack = none)
    (hd : d.evaluations.get? id =
      some { e with steps, phase := .running (.raising stack message) }) :
    Pace c d id := by
  obtain ⟨job, parent, placement, scope, steps₀, phase⟩ := e
  dsimp only at aborts
  cases free : c.scopes.isCancelled scope with
  | true =>
    have ends := advance_stopped hd rfl (h.scopes_eq ▸ free)
    cases aborts with
    | call aborts =>
      refine .together ?_
      rw [ends, advance_stopped hc rfl free]
      exact .some (h.respond _)
    | @operation _ due =>
      have before : (c.setPhase id ⟨job, parent, placement, scope, steps₀,
          .operating (.done (.aborted message)) due stack⟩
          (.running ⟨stack, .resume (.error .cancelled)⟩)).Raises d :=
        h.setPhase_left hd (.stopped free)
      have cancels : c.advance id = some (c.setPhase id ⟨job, parent, placement, scope, steps₀,
          .operating (.done (.aborted message)) due stack⟩
          (.running ⟨stack, .resume (.error .cancelled)⟩)) := by
        rw [advance_eq hc]
        simp only [turn, free, if_true]
        rfl
      have stops := advance_stopped (get?_setPhase c id ⟨job, parent, placement, scope, steps₀,
        .operating (.done (.aborted message)) due stack⟩
        (.running ⟨stack, .resume (.error .cancelled)⟩)) rfl free
      exact .earlier cancels stops ends before (before.respond _)
  | false =>
    have ends := advance_unhandled hd rfl (h.scopes_eq ▸ free) bare
    cases aborts with
    | call aborts =>
      refine .together ?_
      rw [ends, advance_running hc rfl free, runMachine_aborted aborts]
      exact .some (h.respond _)
    | operation =>
      refine .together ?_
      rw [ends, advance_eq hc]
      simp only [turn, free, Bool.false_eq_true, if_false]
      exact .some (h.respond _)

/-- Two machines in a cancelled scope: neither of them is stepped. -/
theorem Raises.pace_stopped (h : c.Raises d) {steps : Nat} {m m' : Machine}
    (hc : c.evaluations.get? id = some e) (running : e.phase = .running m)
    (stops : c.scopes.isCancelled e.scope = true)
    (hd : d.evaluations.get? id = some { e with steps, phase := .running m' }) : Pace c d id := by
  refine .together ?_
  rw [advance_stopped hc running stops, advance_stopped hd rfl (h.scopes_eq ▸ stops)]
  exact .some (h.respond _)

theorem Raises.pace (h : c.Raises d) (id : EvaluationId) : Pace c d id := by
  rcases h.found id with ⟨hc, hd⟩ | ⟨e, steps, phase, hc, hd, he⟩
  · have hc' : c.advance id = none := by simp [advance, hc]
    have hd' : d.advance id = none := by simp [advance, hd]
    exact .together (by rw [hc', hd']; exact .none)
  · generalize before : e.phase = phase₀ at he
    cases he with
    | same idle => exact h.pace_same hc (before ▸ hd) (before ▸ idle)
    | operating => exact h.pace_operating hc before hd
    | raised aborts bare => exact h.pace_raised hc (before ▸ aborts) bare hd
    | stopped stops => exact h.pace_stopped hc before stops hd

/-- Every event but an advance happens to both engines alike. -/
theorem Raises.after (h : c.Raises d) {ev : Event} (other : ∀ id, ev ≠ .move (.advance id)) :
    Option.Rel Raises (c.after ev) (d.after ev) := by
  have jobs : d.jobs = c.jobs := by
    cases h
    rfl
  cases ev with
  | submit name w =>
    have opened := h.openScope .root
    obtain ⟨h⟩ := h
    exact .some ((opened.setJobs _ _ _).wake _)
  | cancel job =>
    simp only [Cluster.after, Cluster.cancel, jobs]
    split
    · exact .none
    · split
      · exact .none
      · exact .some (h.cancelScope _)
  | forget job =>
    obtain ⟨h⟩ := h
    simp only [Cluster.after, Cluster.forget]
    split
    · exact .none
    · split
      · exact .some (.intro h)
      · exact .none
  | shutdown =>
    have workers : d.workers = c.workers := by
      cases h
      rfl
    exact .some ((h.cancelScope .root).foldl_wake (fun i => .worker i) _ _)
  | elapse time =>
    obtain ⟨h⟩ := h
    refine .some (foldl_wake ?_ (fun due : EvaluationId × Nat => .evaluation due.1) _ _)
    exact .intro h
  | arrange ready =>
    obtain ⟨h⟩ := h
    exact .some (.intro h)
  | move m =>
    cases m with
    | begin job => exact h.beginJob job
    | receive i => exact h.receive i
    | close i => exact h.close i
    | advance id => exact absurd rfl (other id)
    | collect id => exact h.collect id

theorem reaches_of_advance {c' : Cluster} (h : c.advance id = some c') : Reaches c c' :=
  .single trivial (rfl.trans h : c.after (.move (.advance id)) = some c')

/-- What happens to an engine happens to the one that raises errors, unless an abort skips a
handler. -/
theorem Raises.forward (h : c.Raises d) {ev : Event} {c' : Cluster} (next : c.after ev = some c')
    (may : ¬ c.Skips ev) : ∃ d', Reaches d d' ∧ c'.Raises d' := by
  by_cases hev : ∃ id, ev = .move (.advance id)
  · obtain ⟨id, rfl⟩ := hev
    have next' : c.advance id = some c' := next
    cases h.pace id with
    | together both =>
      rw [next'] at both
      generalize hd : d.advance id = result at both
      cases both with
      | @some _ d' h' => exact ⟨d', reaches_of_advance hd, h'⟩
    | skips skip => exact absurd skip may
    | later ends raises follows before after =>
      cases next'.symm.trans ends
      exact ⟨_, (reaches_of_advance raises).trans (reaches_of_advance follows), after⟩
    | earlier stops ends follows before after =>
      cases next'.symm.trans stops
      exact ⟨d, .refl d, before⟩
  · have both := h.after fun id hid => hev ⟨id, hid⟩
    rw [next] at both
    generalize hd : d.after ev = result at both
    cases both with
    | @some _ d' h' => exact ⟨d', .single trivial hd, h'⟩

/-- What happens to the engine that raises errors happens to the other one, unless an abort can
skip a handler. -/
theorem Raises.backward (h : c.Raises d) {ev : Event} {d' : Cluster}
    (next : d.after ev = some d') :
    (∃ c', Reaches c c' ∧ c'.Raises d') ∨ ∃ ev', c.Skips ev' := by
  by_cases hev : ∃ id, ev = .move (.advance id)
  · obtain ⟨id, rfl⟩ := hev
    have next' : d.advance id = some d' := next
    cases h.pace id with
    | together both =>
      rw [next'] at both
      generalize hc : c.advance id = result at both
      cases both with
      | @some c' _ h' => exact .inl ⟨c', reaches_of_advance hc, h'⟩
    | skips skip => exact .inr ⟨_, skip⟩
    | later ends raises follows before after =>
      cases next'.symm.trans raises
      exact .inl ⟨c, .refl c, before⟩
    | earlier stops ends follows before after =>
      cases next'.symm.trans follows
      exact .inl ⟨_, (reaches_of_advance stops).trans (reaches_of_advance ends), after⟩
  · have both := h.after fun id hid => hev ⟨id, hid⟩
    rw [next] at both
    generalize hc : c.after ev = result at both
    cases both with
    | @some c' _ h' => exact .inl ⟨c', .single trivial hc, h'⟩

theorem Run.raises {c₀ d₀ : Cluster} (run : Run (fun b ev => ¬ b.Skips ev) c₀ c)
    (h : c₀.Raises d₀) : ∃ d, Reaches d₀ d ∧ c.Raises d := by
  induction run with
  | refl => exact ⟨d₀, .refl d₀, h⟩
  | step run may next ih =>
    obtain ⟨d, first, before⟩ := ih
    obtain ⟨d', last, after⟩ := before.forward next may
    exact ⟨d', first.trans last, after⟩

theorem Run.raised {c₀ d₀ : Cluster} (run : Reaches d₀ d) (h : c₀.Raises d₀) :
    (∃ c, Reaches c₀ c ∧ c.Raises d) ∨ ∃ c ev, Reaches c₀ c ∧ c.Skips ev := by
  induction run with
  | refl => exact .inl ⟨c₀, .refl c₀, h⟩
  | step run may next ih =>
    rcases ih with ⟨c, first, before⟩ | skip
    · rcases before.backward next with ⟨c', last, after⟩ | ⟨ev, skip⟩
      · exact .inl ⟨c', first.trans last, after⟩
      · exact .inr ⟨c, ev, first, skip⟩
    · exact .inr skip

theorem raises_start (registry : Registry) (config : EngineConfig) (backend : Backend)
    (sink : LogSink) :
    (start registry config backend sink).Raises (start registry.raising config backend sink) :=
  .intro fun _ => .none

theorem evaluations_respond (c : Cluster) (id : EvaluationId) (e : Evaluation) (r : Response) :
    (c.respond id e r).evaluations =
      c.evaluations.insert id { e with phase := .responded r } := by
  unfold respond wake
  split <;> rfl

/-- Two engines with the same outcomes, records, stored data, log entries and time. -/
structure Alike (c d : Cluster) : Prop where
  outcome : ∀ job, d.outcome? job = c.outcome? job
  jobs : d.jobs = c.jobs
  ledger : d.dispatcher.ledger = c.dispatcher.ledger
  backend : d.backend = c.backend
  sink : d.sink = c.sink
  now : d.now = c.now

theorem Raises.alike (h : c.Raises d) : c.Alike d := by
  obtain ⟨h⟩ := h
  exact ⟨fun _ => rfl, rfl, rfl, rfl, rfl, rfl⟩

/-- An abort ends its evaluation with an error, whatever frames are around the call. As long as
there is no handler among them, an engine and the one whose calls raise that error instead show
the same. -/
theorem aborts_raise_errors (registry : Registry) (config : EngineConfig) (backend : Backend)
    (sink : LogSink) :
    (∀ c, Run (fun b ev => ¬ b.Skips ev) (start registry config backend sink) c →
      ∃ d, Reaches (start registry.raising config backend sink) d ∧ c.Alike d) ∧
    (∀ d, Reaches (start registry.raising config backend sink) d →
      (∃ c, Reaches (start registry config backend sink) c ∧ c.Alike d) ∨
      ∃ c ev, Reaches (start registry config backend sink) c ∧ c.Skips ev) ∧
    ∀ (c : Cluster) id e message stack, c.evaluations.get? id = some e →
      c.scopes.isCancelled e.scope = false → e.phase.Aborts c.registry message stack →
      ∃ c' e', c.after (.move (.advance id)) = some c' ∧ c'.evaluations.get? id = some e' ∧
        e'.phase = .responded (.reply (Outcome.encode (.error (.error (abortError message))))) := by
  have h := raises_start registry config backend sink
  refine ⟨fun c run => ?_, fun d run => ?_, ?_⟩
  · obtain ⟨d, run', after⟩ := run.raises h
    exact ⟨d, run', after.alike⟩
  · rcases Run.raised run h with ⟨c, run', after⟩ | skip
    · exact .inl ⟨c, run', after.alike⟩
    · exact .inr skip
  · intro c id e message stack live free aborts
    have ends : ∃ steps, c.advance id =
        some (c.finish id { e with steps } (.error (.error (abortError message)))) := by
      obtain ⟨job, parent, placement, scope, steps, phase⟩ := e
      cases aborts with
      | call aborts =>
        exact ⟨steps + 1, by rw [advance_running live rfl free, runMachine_aborted aborts]⟩
      | operation =>
        refine ⟨steps, ?_⟩
        rw [advance_eq live]
        simp only [turn, free, Bool.false_eq_true, if_false]
        rfl
    obtain ⟨steps, ends⟩ := ends
    have live' : (c.finish id { e with steps } (.error (.error (abortError message)))).evaluations.get?
        id = some { e with
          steps
          phase := .responded (.reply (Outcome.encode (.error (.error (abortError message))))) } := by
      rw [finish, evaluations_respond]
      exact (Table.get?_insert _ _ _ _).trans (if_pos rfl)
    exact ⟨_, _, ends, live', rfl⟩

theorem not_skips_of_other {ev : Event} (other : ∀ id, ev ≠ .move (.advance id)) :
    ¬ c.Skips ev := by
  rintro ⟨id, e, message, stack, hev, -⟩
  exact other id hev

theorem not_skips_advance (live : c.evaluations.get? id = some e)
    (bare : ∀ message stack, e.phase.Aborts c.registry message stack →
      Machine.nearestHandler stack = none) : ¬ c.Skips (.move (.advance id)) := by
  rintro ⟨id', e', message, stack, ⟨⟩, live', -, aborts, handled⟩
  cases live.symm.trans live'
  exact handled (bare message stack aborts)

/-- A job whose continuation aborts, and one whose continuation raises that error, end alike. -/
theorem aborts_raise_errors_bare :
    ∃ c d, Reaches (start ⟨[("explode", fun _ _ => .aborted (some "boom"))], [], [], []⟩ {}
        (.memory .empty) (.memory .empty)) c ∧
      c.outcome? ⟨Uuid.fresh 0⟩ = some (.error (.error (abortError (some "boom")))) ∧
      Reaches (start ⟨[("explode", fun _ _ => .failed (abortError (some "boom")))], [], [], []⟩ {}
        (.memory .empty) (.memory .empty)) d ∧
      d.outcome? ⟨Uuid.fresh 0⟩ = some (.error (.error (abortError (some "boom")))) := by
  have sent : Workflow.decode (Workflow.bind (.ret .null) ⟨"explode", .null⟩).encode =
      .ok (.bind (.ret .null) ⟨"explode", .null⟩) := by cbv
  have submitted : Run (fun b ev => ¬ b.Skips ev)
      (start ⟨[("explode", fun _ _ => .aborted (some "boom"))], [], [], []⟩ {}
        (.memory .empty) (.memory .empty)) _ :=
    .step (.refl _) (not_skips_of_other (by rintro id ⟨⟩))
      (rfl : Cluster.after _ (.submit "job" (.bind (.ret .null) ⟨"explode", .null⟩)) = _)
  have begun := submitted.step (not_skips_of_other (by rintro id ⟨⟩))
    (rfl : Cluster.after _ (.move (.begin ⟨Uuid.fresh 0⟩)) = some _)
  have received := begun.step (not_skips_of_other (by rintro id ⟨⟩))
    (rfl : Cluster.after _ (.move (.receive 0)) = some _)
  have started := received.step (not_skips_advance rfl (by rintro message stack ⟨⟩))
    (after_accepted ⟨Uuid.fresh 1⟩ rfl rfl sent)
  have bound := started.step (not_skips_advance rfl (by rintro message stack ⟨⟨⟩⟩))
    (rfl : Cluster.after _ (.move (.advance ⟨Uuid.fresh 1⟩)) = some _)
  have returned := bound.step (not_skips_advance rfl (by rintro message stack ⟨⟨⟩⟩))
    (rfl : Cluster.after _ (.move (.advance ⟨Uuid.fresh 1⟩)) = some _)
  have aborted := returned.step (not_skips_advance rfl (by rintro message stack ⟨aborts⟩; rfl))
    (rfl : Cluster.after _ (.move (.advance ⟨Uuid.fresh 1⟩)) = some _)
  have collected := aborted.step (not_skips_of_other (by rintro id ⟨⟩))
    (rfl : Cluster.after _ (.move (.collect ⟨Uuid.fresh 1⟩)) = some _)
  obtain ⟨c, run, ended⟩ : ∃ c, Run (fun b ev => ¬ b.Skips ev)
      (start ⟨[("explode", fun _ _ => .aborted (some "boom"))], [], [], []⟩ {}
        (.memory .empty) (.memory .empty)) c ∧
      c.outcome? ⟨Uuid.fresh 0⟩ = some (Response.reply
        (Outcome.encode (.error (.error (abortError (some "boom")))))).outcome :=
    ⟨_, collected, rfl⟩
  have outcome : (Response.reply
      (Outcome.encode (.error (.error (abortError (some "boom")))))).outcome =
        .error (.error (abortError (some "boom"))) := by cbv
  rw [outcome] at ended
  obtain ⟨d, run', alike⟩ := (aborts_raise_errors _ {} (.memory .empty) (.memory .empty)).1 c run
  exact ⟨c, d, run.reaches, ended, run', (alike.outcome _).trans ended⟩

/-- A handler that takes every error does not take that of an abort in its own evaluation. -/
theorem handler_skipped : ¬ ∀ (registry : Registry) (w : Workflow),
    ((Schedule.ofCluster (start registry {} (.memory .empty) (.memory .empty))).runWorkflow "job"
      w).1 =
    ((Schedule.ofCluster (start registry.raising {} (.memory .empty) (.memory .empty))).runWorkflow
      "job" w).1 := by
  intro same
  have outcome : ((Schedule.ofCluster (start
      ⟨[("explode", fun _ _ => .aborted (some "boom"))], [("recover", fun _ env => .ok (.ret env))],
        [], []⟩ {} (.memory .empty) (.memory .empty))).runWorkflow "job"
      (.tryWith (.bind (.ret .null) ⟨"explode", .null⟩) ⟨"recover", .null⟩)).1 =
        some (.error (.workflow (abortError (some "boom")))) := by
    cbv
  rw [same] at outcome
  have recovered : ((Schedule.ofCluster (start (Registry.raising
      ⟨[("explode", fun _ _ => .aborted (some "boom"))], [("recover", fun _ env => .ok (.ret env))],
        [], []⟩) {} (.memory .empty) (.memory .empty))).runWorkflow "job"
      (.tryWith (.bind (.ret .null) ⟨"explode", .null⟩) ⟨"recover", .null⟩)).1 =
        some (.ok .null) := by
    cbv
  cases outcome.symm.trans recovered

end Cluster

end WorkflowEngine
