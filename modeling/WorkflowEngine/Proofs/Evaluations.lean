import WorkflowEngine.Proofs.Interpretation
import WorkflowEngine.Proofs.Tracing
import WorkflowEngine.Proofs.Transitions
/-!
The evaluations of an engine run their machines as the recursion tells. What an evaluation has been
given while it waited assigns the first outcomes; where it has come to and what it replies is the
same for every assignment that begins with them.
-/
set_option autoImplicit false

namespace WorkflowEngine

/-- Whether an assignment begins with some outcomes. -/
def Assignment.Extends (assigned : Assignment) (given : List Outcome) : Prop :=
  ∀ i o s, given[i]? = some o → assigned i s = o

theorem Assignment.Extends.init {assigned : Assignment} {given : List Outcome} {o : Outcome}
    (h : assigned.Extends (given ++ [o])) :
    assigned.Extends given ∧ ∀ s, assigned given.length s = o := by
  refine ⟨fun i o' s hi => h i o' s ?_, fun s => h _ _ s ?_⟩
  · rw [List.getElem?_append_left (List.getElem?_eq_some_iff.1 hi).1, hi]
  · simp

/-- The fault that is replied. An abort counts as an error. -/
def Halt.reply : Halt → Fault
  | .fault f => f
  | .aborted message => .error (Cluster.abortError message)

namespace Machine

variable {r : Registry} {w : Workflow} {given : List Outcome} {t : Trace} {m m' : Machine}
  {s : Suspension} {stack : List Frame} {o : Outcome}

/-- Whether the run of a workflow, given some outcomes, leads to a machine. -/
structure Comes (r : Registry) (w : Workflow) (given : List Outcome) (t : Trace) (m : Machine) :
    Prop where
  waited : t.waited = given.length
  run : ∀ assigned : Assignment, assigned.Extends given → ∃ spent, ∀ fuel,
    run r assigned (fuel + spent) (.start w) {} = run r assigned fuel m t

/-- Whether the run of a workflow, given some outcomes, waits for another one. -/
structure Waits (r : Registry) (w : Workflow) (given : List Outcome) (t : Trace) (s : Suspension)
    (stack : List Frame) : Prop where
  waited : t.waited = given.length
  run : ∀ assigned : Assignment, assigned.Extends given → ∃ spent, ∀ fuel,
    run r assigned (fuel + spent) (.start w) {} =
      run r assigned fuel ⟨stack, .resume (assigned t.waited s)⟩ t.wait

/-- Whether the run of a workflow, given some outcomes, ends. -/
structure Ends (r : Registry) (w : Workflow) (given : List Outcome) (t : Trace)
    (result : Except Halt Value) : Prop where
  waited : t.waited = given.length
  run : ∀ assigned : Assignment, assigned.Extends given → ∃ fuel,
    run r assigned fuel (.start w) {} = some (result, t)

theorem comes_start (r : Registry) (w : Workflow) : Comes r w [] {} (.start w) :=
  ⟨rfl, fun _ _ => ⟨0, fun _ => rfl⟩⟩

/-- The trace after the application that the next step makes. -/
def noted (m : Machine) (t : Trace) : Trace := m.application?.elim t t.apply

theorem waited_noted (m : Machine) (t : Trace) : (m.noted t).waited = t.waited := by
  unfold noted
  cases m.application? <;> rfl

/-- What a step leads to, after the run of a workflow came to it. -/
def Step.Continues (r : Registry) (w : Workflow) (given : List Outcome) (t : Trace) : Step → Prop
  | .next m => Comes r w given t m
  | .operate op stack => Waits r w given t (.operation op) stack
  | .fork kind children stack => Waits r w given t (.join kind children) stack
  | .finished o => Ends r w given t (o.mapError .fault)
  | .aborted message => Ends r w given t (.error (.aborted message))

theorem Comes.step (h : Comes r w given t m) :
    (m.step r).Continues r w given (m.noted t) := by
  have waited := (m.waited_noted t).trans h.waited
  have forward (assigned : Assignment) (ext : assigned.Extends given) : ∃ spent, ∀ fuel,
      Machine.run r assigned (fuel + spent) (.start w) {} =
        Machine.run r assigned (fuel + 1) m t := by
    obtain ⟨spent, hrun⟩ := h.run assigned ext
    refine ⟨1 + spent, fun fuel => ?_⟩
    rw [← Nat.add_assoc]
    exact hrun (fuel + 1)
  cases hs : m.step r
  case next | operate | fork =>
    refine ⟨waited, fun assigned ext => (forward assigned ext).imp fun spent hrun fuel => ?_⟩
    rw [hrun]
    simp only [Machine.run, hs, noted]
  case finished | aborted =>
    refine ⟨waited, fun assigned ext => (forward assigned ext).imp' (0 + ·) fun spent hrun => ?_⟩
    rw [hrun]
    simp only [Machine.run, hs, noted]

theorem Waits.answered (h : Waits r w given t s stack) (o : Outcome) :
    Comes r w (given ++ [o]) t.wait ⟨stack, .resume o⟩ where
  waited := by simp [Trace.wait, h.waited]
  run assigned ext := by
    obtain ⟨first, last⟩ := ext.init
    obtain ⟨spent, hrun⟩ := h.run assigned first
    refine ⟨spent, fun fuel => ?_⟩
    rw [hrun, h.waited, last]

end Machine

open Machine in
/-- Where an evaluation of a workflow may be that has not been cancelled: where the run of the
workflow comes to with the outcomes that were given, or waits, or ends. An operation that it waits
for may also abort. -/
inductive Phase.Retraces (r : Registry) (w : Workflow) : Phase → Prop
  | accepted {payload : String} (decoded : Workflow.decode payload = .ok w) :
      Retraces r w (.accepted payload)
  | running {given : List Outcome} {t : Trace} {m : Machine} (comes : Comes r w given t m) :
      Retraces r w (.running m)
  | operating {given : List Outcome} {t : Trace} {op : Operation} {p : Program (Reply Value)}
      {due : Option Nat} {stack : List Frame} (waits : Waits r w given t (.operation op) stack) :
      Retraces r w (.operating p due stack)
  | joining {given : List Outcome} {t : Trace} {kind : ForkKind} {children : List Workflow}
      {f : Fork} {stack : List Frame} (waits : Waits r w given t (.join kind children) stack) :
      Retraces r w (.joining f stack)
  | replied {given : List Outcome} {t : Trace} {result : Except Halt Value} {o : Outcome}
      (ends : Ends r w given t result) (outcome : o = result.mapError Halt.reply) :
      Retraces r w (.responded (.reply o.encode))
  | aborted {given : List Outcome} {t : Trace} {op : Operation} {stack : List Frame}
      {message : Option String} {o : Outcome} (waits : Waits r w given t (.operation op) stack)
      (outcome : o = .error (.error (Cluster.abortError message))) :
      Retraces r w (.responded (.reply o.encode))

namespace Outline

open Machine

variable {o o' : Outline} {r : Registry} {w : Workflow} {e : Evaluation} {phase : Phase}

theorem retraces_machine {m : Machine} {given : List Outcome} {t : Trace}
    (comes : Comes r w given t m) (registry : o.registry = r)
    (leads : (Cluster.Turn.step m).Leads (o.surroundings e) phase) : phase.Retraces r w := by
  subst registry
  have continues {next : Machine.Step} (h : m.step o.registry = next) :
      next.Continues o.registry w given (m.noted t) := h ▸ comes.step
  cases leads with
  | next h => exact .running (continues h)
  | @finished _ outcome h =>
    refine .replied (continues h) ?_
    cases outcome <;> rfl
  | aborted h => exact .replied (continues h) rfl
  | childless h => exact .running ((continues h).answered _)
  | immediate h => exact .running ((continues h).answered _)
  | guarded h => exact .operating (continues h)

theorem retraces_turn {turn : Cluster.Turn} (before : e.phase.Retraces r w)
    (registry : o.registry = r) (free : o.scopes.isCancelled e.scope = false)
    (follows : turn.Follows o.scopes e) (leads : turn.Leads (o.surroundings e) phase) :
    phase.Retraces r w := by
  cases follows with
  | started accepted decoded =>
    rw [accepted] at before
    cases before with
    | accepted decoded' =>
      cases decoded'.symm.trans decoded
      cases leads
      exact .running (comes_start r w)
  | undecoded accepted decoded =>
    rw [accepted] at before
    cases before with
    | accepted decoded' => cases decoded'.symm.trans decoded
  | stopped running cancelled => cases free.symm.trans cancelled
  | steps running =>
    rw [running] at before
    cases before with
    | running comes => exact retraces_machine comes registry leads
  | interrupted operating cancelled => cases free.symm.trans cancelled
  | returned operating | failed operating =>
    rw [operating] at before
    cases before with
    | operating waits =>
      cases leads
      exact .running (waits.answered _)
  | aborted operating =>
    rw [operating] at before
    cases before with
    | operating waits =>
      cases leads
      exact .aborted waits rfl
  | asks operating =>
    rw [operating] at before
    cases before with
    | operating waits => cases leads <;> exact .operating waits
  | places joining waiting => cases leads
  | joined joining placed arrived =>
    rw [joining] at before
    cases before with
    | joining waits =>
      cases leads
      exact .running (waits.answered _)

/-- In a scope that is not cancelled a step keeps an evaluation on the way. -/
theorem Passes.retraces (h : o.Passes e phase) (before : e.phase.Retraces r w)
    (registry : o.registry = r) (free : o.scopes.isCancelled e.scope = false) :
    phase.Retraces r w := by
  cases h with
  | rests => exact before
  | received queued | dropped queued =>
    rw [queued] at before
    cases before
  | shifts turn leads => exact retraces_turn before registry free turn leads
  | forks running _ forks =>
    rw [running] at before
    cases before with
    | running comes =>
      subst registry
      have continues := comes.step
      rw [forks] at continues
      exact .joining continues
  | places joining | arrives _ _ joining =>
    rw [joining] at before
    cases before with
    | joining waits => exact .joining waits

end Outline

namespace Cluster

variable {c₀ c : Cluster} {id : EvaluationId} {e e' : Evaluation} {w : Workflow}

/-- An evaluation is on the way of its workflow as long as its scope is not cancelled. -/
theorem Run.retraces (run : Reaches c₀ c) (hc : c₀.outline.Consistent)
    (ids : c.nextId < Uuid.supply) (live : c₀.evaluations.get? id = some e)
    (before : e.phase.Retraces c₀.registry w) (live' : c.evaluations.get? id = some e')
    (free : c.scopes.isCancelled e'.scope = false) : e'.phase.Retraces c₀.registry w := by
  have kept : c.outline.registry = c₀.registry ∧ c.outline.Known id.uuid ∧
      ∀ e', c.outline.evaluations.get? id = some e' →
        c.outline.scopes.isCancelled e'.scope = false → e'.phase.Retraces c₀.registry w := by
    refine run.invariant (I := fun b => b.outline.registry = c₀.registry ∧ b.outline.Known id.uuid ∧
      ∀ e', b.outline.evaluations.get? id = some e' →
        b.outline.scopes.isCancelled e'.scope = false → e'.phase.Retraces c₀.registry w)
      hc ids ⟨rfl, hc.evaluation_known live, fun e' same _ => ?_⟩ ?_
    · cases live.symm.trans same
      exact before
    · rintro b ev b' hb idsb - s ⟨registry, known, retraces⟩
      refine ⟨s.registry.trans registry, known.mono s.nextId_le, fun e₁ live₁ free₁ => ?_⟩
      obtain ⟨e₀, live₀, -, -, scope, passes⟩ | ⟨new, -⟩ := s.evaluation hb live₁
      · have free₀ := s.free (scope ▸ free₁)
        exact passes.retraces (retraces e₀ live₀ free₀) registry free₀
      · exact absurd (congrArg EvaluationId.uuid new) (known.ne_newId idsb)
  exact kept.2.2 e' live' free

/-- The machine comes to an end exactly where the recursion does, with the same result and the same
applications. An error that a part ends with is applied to the nearest handler, once, as it is;
what goes on from there is all that follows. An evaluation that a worker has accepted runs the
machine: as long as its scope is not cancelled, it is where the run has come to with the outcomes
that were given. -/
theorem evaluations_interpret (r : Registry) (w : Workflow) :
    (∀ assigned t result t',
      (∃ fuel, Machine.run r assigned fuel (.start w) t = some (result, t')) ↔
        ∃ depth, (w.interpret r assigned depth).Gives t result t') ∧
    (∀ assigned t depth e t',
      (w.interpret r assigned depth).Gives t (.error (.fault (.error e))) t' →
      ∀ fs : List FunctionRef,
        (∃ fuel, Machine.run r assigned fuel ⟨fs.map .bind, .eval w⟩ t =
          some (.error (.fault (.error e)), t')) ∧
        ∀ f stack out,
          (∃ fuel, Machine.run r assigned fuel ⟨fs.map .bind ++ .tryWith f :: stack, .eval w⟩ t =
            some out) ↔
          ∃ fuel, Machine.follow r assigned fuel stack (t'.apply (.handler f e))
            (r.handle f e).result = some out) ∧
    ∀ config backend sink c₀ c id e payload e', Reaches (start r config backend sink) c₀ →
      c₀.evaluations.get? id = some e → e.phase = .accepted payload →
      Workflow.decode payload = .ok w → Reaches c₀ c → c.nextId < Uuid.supply →
      c.evaluations.get? id = some e' → c.scopes.isCancelled e'.scope = false →
      e'.phase.Retraces r w := by
  refine ⟨fun _ _ _ _ => Machine.run_iff_gives, fun _ _ _ _ _ gives fs =>
    ⟨Machine.run_uncaught gives fs, Machine.run_caught_iff gives fs⟩, ?_⟩
  intro config backend sink c₀ c id e payload e' before live accepted decoded run ids live' free
  have ids₀ := Nat.lt_of_le_of_lt run.nextId_le ids
  have hstart := consistent_start r config backend sink
  have registry : c₀.registry = r := before.registry hstart ids₀
  have begins : e.phase.Retraces c₀.registry w := accepted ▸ .accepted decoded
  exact registry ▸ run.retraces (before.consistent hstart ids₀) ids live begins live' free

/-- A missing key is made good by the nearest handler. The continuation in between is skipped, and
the handler further out has nothing to do. An evaluation that returns null replies so. -/
theorem evaluations_interpret_recovered (assigned : Assignment) :
    (∃ fuel, Machine.run .standard assigned fuel
      (.start (.tryWith (.bind (.tryWith (.bind (.raise (.notFound "k")) ⟨Builtin.ok, .null⟩)
        ⟨Builtin.recover, .bool false⟩) ⟨Builtin.identity, .null⟩) ⟨Builtin.err, .null⟩)) {} =
      some (.ok (.bool false),
        ⟨[.handler ⟨Builtin.recover, .bool false⟩ (.notFound "k"),
          .continuation ⟨Builtin.identity, .null⟩ (.bool false)], 0⟩)) ∧
    ∃ c id e, Reaches (start {} {} (.memory .empty) (.memory .empty)) c ∧
      c.evaluations.get? id = some e ∧
      e.phase = .responded (.reply (Outcome.encode (.ok .null))) ∧
      e.phase.Retraces {} (.ret .null) := by
  constructor
  · have fails : (Workflow.interpret .standard assigned 1 (.raise (.notFound "k"))).Gives {}
        (.error (.fault (.error (.notFound "k")))) {} := rfl
    have caught := ((evaluations_interpret .standard (.raise (.notFound "k"))).2.1 assigned {} 1 _
      {} fails [⟨Builtin.ok, .null⟩]).2 ⟨Builtin.recover, .bool false⟩
      [.bind ⟨Builtin.identity, .null⟩, .tryWith ⟨Builtin.err, .null⟩]
    obtain ⟨fuel, h⟩ := (caught _).2 ⟨6, rfl⟩
    exact ⟨fuel + 4, h⟩
  · have sent : Workflow.decode (Workflow.ret .null).encode = .ok (.ret .null) := by cbv
    have submitted := Run.step (P := fun _ _ => True)
      (.refl (start {} {} (.memory .empty) (.memory .empty))) trivial
      (rfl : Cluster.after _ (.submit "job" (.ret .null)) = some _)
    have begun := submitted.step trivial
      (rfl : Cluster.after _ (.move (.begin ⟨Uuid.fresh 0⟩)) = some _)
    have received := begun.step trivial (rfl : Cluster.after _ (.move (.receive 0)) = some _)
    have here {a b : Cluster} (_ : Reaches a b) : Reaches b b := .refl b
    have started := (here received).step trivial (after_accepted ⟨Uuid.fresh 1⟩ rfl rfl sent)
    have stepped := started.step trivial
      (rfl : Cluster.after _ (.move (.advance ⟨Uuid.fresh 1⟩)) = some _)
    have replied := stepped.step trivial
      (rfl : Cluster.after _ (.move (.advance ⟨Uuid.fresh 1⟩)) = some _)
    exact ⟨_, ⟨Uuid.fresh 1⟩, _, received.trans replied, rfl, rfl,
      (evaluations_interpret {} (.ret .null)).2.2 _ _ _ _ _ ⟨Uuid.fresh 1⟩ _ _ _ received rfl rfl
        sent replied (by decide) rfl rfl⟩

end Cluster

end WorkflowEngine
