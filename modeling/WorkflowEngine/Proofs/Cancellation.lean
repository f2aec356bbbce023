import WorkflowEngine.Proofs.Transitions
import Mathlib
/-!
Cancellation comes before everything else. An evaluation in a cancelled scope runs no function and
makes no request any more; it ends cancelled, whatever waits on its stack.
-/
set_option autoImplicit false

namespace WorkflowEngine

/-- An evaluation is queued until a worker accepts it, and it fails to be accepted only then. -/
theorem Outline.Passes.waits {o : Outline} {e : Evaluation} {phase : Phase} (h : o.Passes e phase)
    (hp : phase = .queued ∨ ∃ f, phase = .responded (.failed f)) :
    e.phase = .queued ∨ ∃ f, e.phase = .responded (.failed f) := by
  cases h with
  | rests => exact hp
  | dropped queued stopped => exact .inl queued
  | shifts turn leads =>
    rcases hp with rfl | ⟨f, rfl⟩
    · exact absurd rfl leads.not_queued
    · cases leads
  | _ => simp at hp

namespace Cluster

theorem Turn.Follows.idle {scopes : ScopeTree} {e : Evaluation} {t : Turn}
    (h : t.Follows scopes e) (cancelled : scopes.isCancelled e.scope = true) :
    (∀ m, t ≠ .step m) ∧ ∀ r next due stack, t ≠ .ask r next due stack := by
  cases h with
  | steps running free => simp [free] at cancelled
  | asks operating free => simp [free] at cancelled
  | _ => simp

/-- A cancelled evaluation responds only with what it could not decode, or that it is cancelled. -/
theorem Turn.Follows.responds {scopes : ScopeTree} {e : Evaluation} {t : Turn} {s : Surroundings}
    {r : Response} (h : t.Follows scopes e) (cancelled : scopes.isCancelled e.scope = true)
    (leads : t.Leads s (.responded r)) :
    r = .reply (Outcome.encode (.error .cancelled)) ∨
      ∃ payload err, e.phase = .accepted payload ∧ Workflow.decode payload = .error err ∧
        r = .reply (Outcome.encode (.error (.error err))) := by
  cases h with
  | undecoded accepted decoded =>
    cases leads
    exact .inr ⟨_, _, accepted, decoded, rfl⟩
  | stopped running cancelled =>
    cases leads
    exact .inl rfl
  | steps running free => simp [free] at cancelled
  | aborted operating free => simp [free] at cancelled
  | _ => cases leads

theorem decode_cancelled : Outcome.decode (Outcome.encode (.error .cancelled)) =
    .error .cancelled := by
  cbv

/-- How an evaluation ends whose scope was cancelled in the first of two states. Either it had
ended before, or it ends cancelled, unless its workflow cannot be decoded or the engine is shut
down before a worker has accepted it. -/
inductive Settled (c₀ c : Cluster) (id : EvaluationId) (r : Response) : Prop
  | before {e : Evaluation} (live : c₀.evaluations.get? id = some e)
      (responded : e.phase = .responded r)
  | cancelled (outcome : r.outcome = .error .cancelled)
  | undecodable {c₁ : Cluster} {e : Evaluation} {payload : String} {err : WorkflowError}
      (first : Reaches c₀ c₁) (last : Reaches c₁ c) (live : c₁.evaluations.get? id = some e)
      (accepted : e.phase = .accepted payload) (garbled : Workflow.decode payload = .error err)
  | unaccepted {f : TransportError} (failed : r = .failed f)
      (stopped : c.scopes.isCancelled .root = true)
      (waited : ∀ {c₁ e}, Reaches c₀ c₁ → Reaches c₁ c → c₁.evaluations.get? id = some e →
        e.phase = .queued ∨ ∃ f, e.phase = .responded (.failed f))

theorem Run.isCancelled {P : Cluster → Event → Prop} {a b : Cluster} (run : Run P a b)
    (hc : a.outline.Consistent) (hn : b.nextId < Uuid.supply) {s : Scope}
    (h : a.scopes.isCancelled s = true) : b.scopes.isCancelled s = true :=
  run.invariant (I := fun c => c.scopes.isCancelled s = true) hc hn h fun _ _ _ s h =>
    s.isCancelled h

/-- An evaluation that has failed to be accepted was accepted by no worker before. -/
theorem Run.waited {P : Cluster → Event → Prop} {a b : Cluster} (run : Run P a b)
    (hc : a.outline.Consistent) (hn : b.nextId < Uuid.supply) {id : EvaluationId}
    {e e' : Evaluation} (live : a.evaluations.get? id = some e)
    (live' : b.evaluations.get? id = some e')
    (hp : e'.phase = .queued ∨ ∃ f, e'.phase = .responded (.failed f)) :
    e.phase = .queued ∨ ∃ f, e.phase = .responded (.failed f) := by
  induction run generalizing e' with
  | refl =>
    cases live.symm.trans live'
    exact hp
  | @step c c' ev run may next ih =>
    have hn' := Nat.lt_of_le_of_lt (nextId_after next) hn
    have hc' := run.consistent hc hn'
    rcases (step_of_after hc' next).evaluation hc' live' with
      ⟨e₀, live₀, -, -, -, passes⟩ | ⟨new, -⟩
    · exact ih hn' live₀ (passes.waits hp)
    · have known : c.outline.Known id.uuid := (hc.evaluation_known live).mono run.nextId_le
      exact absurd (congrArg EvaluationId.uuid new) (known.ne_newId hn')

/-- Every evaluation in a cancelled scope that has a response is settled. -/
theorem Run.settled {P : Cluster → Event → Prop} {c₀ c : Cluster} (run : Run P c₀ c)
    (hc : c₀.outline.Consistent) (hn : c.nextId < Uuid.supply) {s : Scope}
    (cancelled : c₀.scopes.isCancelled s = true) {id : EvaluationId} {e : Evaluation}
    {r : Response} (live : c.evaluations.get? id = some e) (inside : s.path <:+ e.scope.path)
    (responded : e.phase = .responded r) : Settled c₀ c id r := by
  induction run generalizing e with
  | refl => exact .before live responded
  | @step c c' ev run may next ih =>
    have hn' := Nat.lt_of_le_of_lt (nextId_after next) hn
    have hc' := run.consistent hc hn'
    have s' := step_of_after hc' next
    have unaccepted : ∀ {f}, r = .failed f → c'.scopes.isCancelled .root = true →
        Settled c₀ c' id r := fun {f} failed stopped =>
      .unaccepted failed stopped fun first last live₁ =>
        last.waited (first.consistent hc (Nat.lt_of_le_of_lt last.nextId_le hn)) hn live₁ live
          (.inr ⟨f, failed ▸ responded⟩)
    rcases s'.evaluation hc' live with
      ⟨e₀, live₀, -, -, hscope, passes⟩ | ⟨-, queued | ⟨f, hf, stopped⟩⟩
    · have inside₀ : s.path <:+ e₀.scope.path := hscope ▸ inside
      have cancelled₀ : c.scopes.isCancelled e₀.scope = true :=
        ScopeTree.isCancelled_of_suffix inside₀ (run.isCancelled hc hn' cancelled)
      rcases passes.responded responded with same | ⟨f, hf, stopped⟩ | ⟨t, turn, leads⟩
      · cases ih hn' live₀ inside₀ same with
        | before live responded => exact .before live responded
        | cancelled outcome => exact .cancelled outcome
        | undecodable first last live accepted garbled =>
          exact .undecodable first (.step last trivial next) live accepted garbled
        | unaccepted failed stopped => exact unaccepted failed (s'.isCancelled stopped)
      · exact unaccepted hf (s'.isCancelled stopped)
      · rcases turn.responds cancelled₀ leads with rfl | ⟨payload, err, accepted, garbled, -⟩
        · exact .cancelled decode_cancelled
        · exact .undecodable run.reaches (.step (.refl _) trivial next) live₀ accepted garbled
    · cases queued.symm.trans responded
    · cases hf.symm.trans responded
      exact unaccepted rfl (s'.isCancelled stopped)

end Cluster

end WorkflowEngine
