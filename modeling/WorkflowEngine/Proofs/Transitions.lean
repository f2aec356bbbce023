import WorkflowEngine.Proofs.Reachable
/-!
What the steps of an engine mean for a single evaluation.
-/
set_option autoImplicit false

namespace WorkflowEngine

namespace Outline

/-- The phase that an evaluation is in after a step that it lives through. -/
inductive Passes (o : Outline) (e : Evaluation) : Phase → Prop
  | rests : Passes o e e.phase
  | received {payload : String} (queued : e.phase = .queued) : Passes o e (.accepted payload)
  | dropped {worker : WorkerId} (queued : e.phase = .queued)
      (stopped : o.scopes.isCancelled .root = true) :
      Passes o e (.responded (.failed (.dropped worker)))
  | shifts {t : Cluster.Turn} {phase : Phase} (turn : t.Follows o.scopes e)
      (leads : t.Leads (o.surroundings e) phase) : Passes o e phase
  | forks {m : Machine} {kind : ForkKind} {children : List Workflow} {stack : List Frame}
      (running : e.phase = .running m) (free : o.scopes.isCancelled e.scope = false)
      (forks : m.step o.registry = .fork kind children stack) :
      Passes o e (.joining ⟨Join.start kind children.length, (o.scopes.child e.scope).1, 0,
        children, children.length⟩ stack)
  | places {f : Fork} {w : Workflow} {rest : List Workflow} {stack : List Frame}
      (joining : e.phase = .joining f stack) (waiting : f.waiting = w :: rest) :
      Passes o e (.joining { f with placed := f.placed + 1, waiting := rest } stack)
  | arrives {f : Fork} {stack : List Frame} (i : Nat) (outcome : Outcome)
      (joining : e.phase = .joining f stack) :
      Passes o e (.joining
        { f with join := (f.join.receive i outcome).2, missing := f.missing - 1 } stack)

variable {o o' : Outline}

theorem Dispatched.cases {job : JobId} {parent : Option Parent} {scope : Scope} {w : Workflow}
    (sent : o.Dispatched job parent scope w o') (hm : o.Mailed) {id : EvaluationId}
    {e : Evaluation} (live : o'.evaluations.get? id = some e) :
    o.evaluations.get? id = some e ∨
      (id = ⟨o.newId⟩ ∧ ∃ p phase, e = ⟨job, parent, some p, scope, 0, phase⟩ ∧
        (phase = .queued ∨
          ∃ f, phase = .responded (.failed f) ∧ o.scopes.isCancelled .root = true)) := by
  cases sent with
  | @sent p now post at_slot listens =>
    simp only [place, Table.get?_insert] at live
    split at live
    · next hid =>
      cases live
      exact .inr ⟨hid.symm, p, _, rfl, .inl rfl⟩
    · exact .inl live
  | @refused p now post at_slot stopped =>
    simp only [place, Table.get?_insert] at live
    split at live
    · next hid =>
      cases live
      exact .inr ⟨hid.symm, p, _, rfl, .inr ⟨_, rfl, (hm.stopped at_slot stopped).2⟩⟩
    · exact .inl live

/-- An evaluation that is there after a step was there before, or has just been placed. -/
theorem Step.evaluation {ev : Event} (s : o.Step ev o') (hc : o.Consistent)
    {id : EvaluationId} {e' : Evaluation} (live' : o'.evaluations.get? id = some e') :
    (∃ e, o.evaluations.get? id = some e ∧ e'.job = e.job ∧ e'.parent = e.parent ∧
      e'.scope = e.scope ∧ o.Passes e e'.phase) ∨
    (id = ⟨o.newId⟩ ∧ (e'.phase = .queued ∨
      ∃ f, e'.phase = .responded (.failed f) ∧ o.scopes.isCancelled .root = true)) := by
  have same : ∀ {e'}, o.evaluations.get? id = some e' →
      ∃ e, o.evaluations.get? id = some e ∧ e'.job = e.job ∧ e'.parent = e.parent ∧
        e'.scope = e.scope ∧ o.Passes e e'.phase :=
    fun live => ⟨_, live, rfl, rfl, rfl, .rests⟩
  cases s with
  | begin thread sent =>
    rcases sent.cases (hc.toMailed.frame rfl rfl rfl fun h => h) live' with live |
      ⟨hid, p, phase, rfl, h⟩
    · exact .inl (same live)
    · exact .inr ⟨hid, h⟩
  | @receive i post d rest e at_slot inbox live =>
    have queued := hc.queued_of_mem at_slot (by simp [inbox]) live
    rw [Table.get?_insert] at live'
    split at live'
    · next hid =>
      subst hid
      cases live'
      exact .inl ⟨_, live, rfl, rfl, rfl, .received queued⟩
    · exact .inl (same live')
  | close at_slot stopped =>
    rw [get?_dropAll] at live'
    split at live'
    · next hm =>
      obtain ⟨e, live, rfl⟩ := Option.map_eq_some_iff.1 live'
      have queued := hc.queued_of_mem at_slot hm live
      exact .inl ⟨_, live, rfl, rfl, rfl, .dropped queued stopped⟩
    · exact .inl (same live')
  | shift steps live turn leads later =>
    rw [Table.get?_insert] at live'
    split at live'
    · next hid =>
      subst hid
      cases live'
      exact .inl ⟨_, live, rfl, rfl, rfl, .shifts turn leads⟩
    · exact .inl (same live')
  | fork steps live running free forks =>
    rw [Table.get?_insert] at live'
    split at live'
    · next hid =>
      subst hid
      cases live'
      exact .inl ⟨_, live, rfl, rfl, rfl, .forks running free forks⟩
    · exact .inl (same live')
  | @place id' e f w rest stack _ live joining waiting sent =>
    rcases sent.cases (hc.toMailed.places live joining rest) live' with before |
      ⟨hid, p, phase, rfl, h⟩
    · rw [Table.get?_insert] at before
      split at before
      · next hid =>
        subst hid
        cases before
        exact .inl ⟨_, live, rfl, rfl, rfl, .places joining waiting⟩
      · exact .inl (same before)
    · exact .inr ⟨hid, h⟩
  | collectRoot now live responded root known =>
    rw [Table.get?_erase] at live'
    split at live'
    · cases live'
    · exact .inl (same live')
  | collectChild now live responded child above joining =>
    rw [Table.get?_insert] at live'
    split at live'
    · next hid =>
      subst hid
      cases live'
      exact .inl ⟨_, above, rfl, rfl, rfl, .arrives _ _ joining⟩
    · rw [Table.get?_erase] at live'
      split at live'
      · cases live'
      · exact .inl (same live')
  | _ => exact .inl (same live')

/-- How an evaluation comes to respond. -/
theorem Passes.responded {e : Evaluation} {phase : Phase} {r : Response}
    (h : o.Passes e phase) (hp : phase = .responded r) :
    e.phase = .responded r ∨ (∃ f, r = .failed f ∧ o.scopes.isCancelled .root = true) ∨
      ∃ t : Cluster.Turn, t.Follows o.scopes e ∧ t.Leads (o.surroundings e) (.responded r) := by
  cases h with
  | rests => exact .inl hp
  | dropped queued stopped =>
    cases hp
    exact .inr (.inl ⟨_, rfl, stopped⟩)
  | shifts turn leads =>
    cases hp
    exact .inr (.inr ⟨_, turn, leads⟩)
  | _ => cases hp

/-- What is cancelled stays so. -/
theorem Step.mem_cancelled {ev : Event} (s : o.Step ev o') (n : Nat)
    (h : n ∈ o.scopes.cancelled) : n ∈ o'.scopes.cancelled := by
  cases s with
  | cancel known running => exact ScopeTree.mem_cancel.2 (.inr h)
  | shutdown => exact ScopeTree.mem_cancel.2 (.inr h)
  | begin thread sent =>
    obtain ⟨-, -, -, hscopes, -⟩ := sent.unchanged
    rw [hscopes]
    exact h
  | place live joining waiting sent =>
    obtain ⟨-, -, -, hscopes, -⟩ := sent.unchanged
    rw [hscopes]
    exact h
  | collectChild now live responded child above joining =>
    simp only
    split
    · exact ScopeTree.mem_cancel.2 (.inr h)
    · exact h
  | _ => exact h

theorem Step.isCancelled {ev : Event} (s : o.Step ev o') {scope : Scope}
    (h : o.scopes.isCancelled scope = true) : o'.scopes.isCancelled scope = true :=
  ScopeTree.isCancelled_mono s.mem_cancelled h

theorem Step.free {ev : Event} (h : o.Step ev o') {scope : Scope}
    (free : o'.scopes.isCancelled scope = false) : o.scopes.isCancelled scope = false :=
  ScopeTree.free_mono h.mem_cancelled free

end Outline

end WorkflowEngine
