import WorkflowEngine.Proofs.Cancellation
import WorkflowEngine.Proofs.OutcomeText
import WorkflowEngine.Proofs.Records
import WorkflowEngine.Proofs.ScopeRoles
/-!
Evaluations in scopes that are not cancelled. Nothing in them tells of a cancellation, neither their
machine nor their response nor what their fork has received.
-/
set_option autoImplicit false

namespace WorkflowEngine

namespace Join

/-- The result that has decided a join. -/
def decision : Join → Option (Except WorkflowError Value)
  | .parallel _ failure => failure.map .error
  | .choice decision => decision

theorem decided_iff {j : Join} : j.Decided ↔ ∃ r, j.decision = some r := by
  cases j with
  | parallel values failure => cases failure <;> simp [Decided, decision]
  | choice decision => simp [Decided, Join.decision, Option.isSome_iff_exists]

/-- Null decides nothing. -/
def Firm (j : Join) : Prop := j.decision ≠ some (.ok .null)

theorem firm_start (kind : ForkKind) (count : Nat) : (start kind count).Firm := by
  cases kind <;> simp [Firm, start, decision]

theorem Firm.receive {j : Join} (h : j.Firm) (i : Nat) (o : Outcome) : (j.receive i o).2.Firm := by
  cases j with
  | parallel values failure =>
    cases o with
    | ok v => exact h
    | error f => cases failure <;> cases f <;> simp [Join.receive, Firm, decision]
  | choice decision =>
    cases decision with
    | some r =>
      cases o with
      | ok v => exact h
      | error f => cases f <;> exact h
    | none =>
      cases o with
      | ok v =>
        cases found : v.isNull with
        | true => simp [Join.receive, found, Firm, Join.decision]
        | false =>
          simp only [Join.receive, found, Bool.false_eq_true, if_false, Firm, Join.decision]
          rintro ⟨⟩
          cases found
      | error f => cases f <;> simp [Join.receive, Firm, Join.decision]

/-- A join that does not come to null by itself any more. -/
def Found : Join → Prop
  | .choice none => False
  | _ => True

theorem found_of_decided {j : Join} (decided : j.Decided) : j.Found := by
  cases j with
  | parallel values failure => trivial
  | choice decision =>
    obtain ⟨r, rfl⟩ := Option.isSome_iff_exists.1 decided
    trivial

theorem Found.receive {j : Join} (h : j.Found) (i : Nat) (o : Outcome) :
    (j.receive i o).2.Found := by
  cases j with
  | parallel values failure =>
    cases o with
    | ok v => trivial
    | error f => cases failure <;> cases f <;> trivial
  | choice decision =>
    cases decision with
    | none => cases h
    | some r =>
      cases o with
      | ok v => trivial
      | error f => cases f <;> trivial

theorem found_receive (j : Join) (i : Nat) {o : Outcome} (found : o ≠ .ok .null)
    (counts : o ≠ .error .cancelled) : (j.receive i o).2.Found := by
  cases j with
  | parallel values failure => exact Found.receive (j := .parallel values failure) trivial i o
  | choice decision =>
    cases decision with
    | some r => exact Found.receive (j := .choice (some r)) trivial i o
    | none =>
      cases o with
      | ok v =>
        cases null : v.isNull with
        | true => exact absurd (congrArg _ (Value.eq_null_of_isNull null)) found
        | false => simp [Join.receive, null, Found]
      | error f =>
        cases f with
        | error e => trivial
        | cancelled => exact absurd rfl counts

/-- The outcome is null only if the join has found nothing and its scope is not cancelled. -/
theorem Firm.outcome_ne_null {j : Join} (h : j.Firm) {cancelled : Bool}
    (found : j.Found ∨ cancelled = true) : j.outcome cancelled ≠ .ok .null := by
  cases j with
  | parallel values failure =>
    cases failure with
    | some e => simp [outcome]
    | none =>
      simp only [outcome]
      split <;> rintro ⟨⟩
  | choice decision =>
    cases decision with
    | none => simp [outcome, found.resolve_left (fun h => h)]
    | some r =>
      cases r with
      | ok v =>
        rintro ⟨⟩
        exact h rfl
      | error e => simp [outcome]

/-- What decides a join is the outcome that has just arrived. -/
theorem decision_receive {j : Join} {i : Nat} {o : Outcome} (decides : (j.receive i o).1 = true) :
    j.decision = none ∧
      ∃ r, (j.receive i o).2.decision = some r ∧ o = r.mapError .error := by
  cases j with
  | parallel values failure =>
    cases o with
    | ok v => cases decides
    | error f =>
      cases failure <;> cases f <;> cases decides
      exact ⟨rfl, _, rfl, rfl⟩
  | choice decision =>
    cases decision with
    | some r =>
      cases o with
      | ok v => cases decides
      | error f => cases f <;> cases decides
    | none =>
      cases o with
      | ok v =>
        cases found : v.isNull with
        | true => simp [Join.receive, found] at decides
        | false =>
          refine ⟨rfl, .ok v, ?_, rfl⟩
          simp [Join.receive, found, Join.decision]
      | error f =>
        cases f <;> cases decides
        exact ⟨rfl, _, rfl, rfl⟩

end Join

namespace Fork

/-- Whether every child whose outcome has arrived has given a value, as far as that counts. -/
def Whole (f : Fork) (present : Nat → Prop) : Prop :=
  match f.join with
  | .parallel values none => values.length = f.placed + f.waiting.length ∧
      ∀ i < f.placed, ¬ present i → ∃ v, values[i]? = some (some v)
  | _ => True

variable {f : Fork} {present present' : Nat → Prop}

theorem Whole.mono (h : f.Whole present) (hp : ∀ i, present i → present' i) :
    f.Whole present' := by
  unfold Whole at h ⊢
  split
  · next values hj =>
    rw [hj] at h
    exact ⟨h.1, fun i hi hn => h.2 i hi fun hpi => hn (hp i hpi)⟩
  · trivial

theorem whole_of_decided (decided : f.join.Decided) : f.Whole present := by
  unfold Whole
  split
  · next values hj =>
    rw [hj] at decided
    cases decided
  · trivial

theorem whole_start (kind : ForkKind) (scope : Scope) (children : List Workflow) :
    Whole ⟨Join.start kind children.length, scope, 0, children, children.length⟩ present := by
  cases kind with
  | parallel => simp [Whole, Join.start]
  | choice => trivial

theorem Whole.place (h : f.Whole present) {w : Workflow} {rest : List Workflow}
    (waiting : f.waiting = w :: rest) (placed : present' f.placed)
    (hp : ∀ i, present i → present' i) :
    Whole { f with placed := f.placed + 1, waiting := rest } present' := by
  unfold Whole at h ⊢
  split
  · next values hj =>
    rw [hj, waiting, List.length_cons] at h
    refine ⟨by have := h.1; simp only; omega, fun i hi hn => h.2 i ?_ fun hpi => hn (hp i hpi)⟩
    have hne : i ≠ f.placed := by
      rintro rfl
      exact hn placed
    have hle : i < f.placed + 1 := hi
    omega
  · trivial

/-- The outcome of a child that is not cancelled leaves no hole. -/
theorem Whole.receive (h : f.Whole present) {i : Nat} {o : Outcome} (missing : Nat)
    (hi : i < f.placed) (counts : o ≠ .error .cancelled)
    (hp : ∀ k, present k → k = i ∨ present' k) :
    Whole { f with join := (f.join.receive i o).2, missing } present' := by
  unfold Whole at h ⊢
  cases hj : f.join with
  | choice decision =>
    have hchoice : ∃ d, (Join.receive (.choice decision) i o).2 = .choice d := by
      cases decision with
      | some r =>
        cases o with
        | ok v => exact ⟨_, rfl⟩
        | error e => cases e <;> exact ⟨_, rfl⟩
      | none =>
        cases o with
        | ok v => cases found : v.isNull <;> simp [Join.receive, found]
        | error e => cases e <;> exact ⟨_, rfl⟩
    obtain ⟨d, hd⟩ := hchoice
    simp only [hd]
  | parallel values failure =>
    rw [hj] at h
    cases failure with
    | some e =>
      cases o with
      | ok v => trivial
      | error e => cases e <;> trivial
    | none =>
      cases o with
      | error e =>
        cases e with
        | error e => trivial
        | cancelled => exact absurd rfl counts
      | ok v =>
        obtain ⟨size, each⟩ := h
        refine ⟨by simpa using size, fun k hk hn => ?_⟩
        by_cases hki : i = k
        · subst hki
          exact ⟨v, List.getElem?_set_self (by omega)⟩
        · obtain ⟨v', hv'⟩ := each k hk fun hpk => (hp k hpk).elim (fun h => hki h.symm) hn
          exact ⟨v', by rw [List.getElem?_set_ne hki, hv']⟩

/-- A fork that is whole is not cancelled when all outcomes have arrived. -/
theorem Whole.outcome (h : f.Whole present) (placed : f.waiting = []) (all : ∀ i, ¬ present i) :
    f.join.outcome false ≠ .error .cancelled := by
  unfold Whole at h
  cases hj : f.join with
  | choice decision =>
    cases decision with
    | none => simp [Join.outcome]
    | some r => cases r <;> simp [Join.outcome]
  | parallel values failure =>
    rw [hj] at h
    cases failure with
    | some e => simp [Join.outcome]
    | none =>
      obtain ⟨size, each⟩ := h
      rw [placed, List.length_nil, Nat.add_zero] at size
      obtain ⟨vs, rfl⟩ := Join.exists_values fun i hi => each i (size ▸ hi) (all i)
      simp [Join.outcome, Join.allValues_map_some]

end Fork

theorem Machine.step_control {r : Registry} {m m' : Machine}
    (h : m.step r = .next m') : m'.control ≠ .resume (.error .cancelled) := by
  have reply : ∀ stack (a : Reply Workflow), Step.ofReply stack a = .next m' →
      m'.control ≠ .resume (.error .cancelled) := by
    intro stack a ha
    cases a <;> cases ha <;> simp
  obtain ⟨stack, control⟩ := m
  cases control with
  | eval w => cases w <;> cases h <;> simp
  | resume o =>
    simp only [step, resume] at h
    split at h
    · split at h
      · cases h
      · exact reply _ _ h
    · split at h
      · cases h
      · exact reply _ _ h
    · cases h

theorem Machine.step_finished {r : Registry} {m : Machine}
    (h : m.step r = .finished (.error .cancelled)) : m.control = .resume (.error .cancelled) := by
  have reply : ∀ stack (a : Reply Workflow) (o : Outcome), Step.ofReply stack a ≠ .finished o := by
    intro stack a o
    cases a <;> simp [Step.ofReply]
  obtain ⟨stack, control⟩ := m
  cases control with
  | eval w => cases w <;> cases h
  | resume o =>
    simp only [step, resume] at h
    split at h
    · split at h
      · cases h
      · exact absurd h (reply _ _ _)
    · split at h
      · cases h
      · exact absurd h (reply _ _ _)
    · rfl

/-- Whether nothing in a phase tells of a cancellation. -/
def Phase.Untouched (present : Nat → Prop) : Phase → Prop
  | .running m => m.control ≠ .resume (.error .cancelled)
  | .joining f _ => f.Whole present
  | .responded r => r.outcome ≠ .error .cancelled
  | _ => True

theorem Phase.Untouched.mono {present present' : Nat → Prop} {phase : Phase}
    (h : phase.Untouched present) (hp : ∀ i, present i → present' i) :
    phase.Untouched present' := by
  cases phase with
  | joining f stack => exact Fork.Whole.mono h hp
  | _ => exact h

namespace Cluster

theorem reply_outcome_ne {o : Outcome} (h : o ≠ .error .cancelled) :
    (Response.reply o.encode).outcome ≠ .error .cancelled :=
  fun hd => h (Outcome.decode_eq_cancelled hd)

/-- A turn of an evaluation that is not cancelled does not lead to a phase that tells of a
cancellation. -/
theorem Turn.Follows.untouched {scopes : ScopeTree} {e : Evaluation} {t : Turn} {s : Surroundings}
    {phase : Phase} {present present' : Nat → Prop} (turn : t.Follows scopes e)
    (leads : t.Leads s phase) (free : scopes.isCancelled e.scope = false)
    (h : e.phase.Untouched present) (childless : ∀ i, ¬ present i) :
    phase.Untouched present' := by
  cases turn with
  | started accepted decoded =>
    cases leads
    simp [Phase.Untouched, Machine.start]
  | undecoded accepted decoded =>
    cases leads
    exact reply_outcome_ne (by simp)
  | stopped running cancelled => simp [free] at cancelled
  | steps running =>
    rw [running] at h
    cases leads with
    | next hm => exact Machine.step_control hm
    | finished hm =>
      refine reply_outcome_ne ?_
      rintro rfl
      exact h (Machine.step_finished hm)
    | aborted hm => exact reply_outcome_ne (by simp)
    | @childless _ kind stack hm =>
      cases kind <;> simp [Phase.Untouched, Join.start, Join.outcome, Join.allValues]
    | @immediate _ op stack r hm he => cases r <;> simp [Phase.Untouched, Except.mapError]
    | guarded hm he => trivial
  | interrupted operating cancelled => simp [free] at cancelled
  | returned operating =>
    cases leads
    simp [Phase.Untouched]
  | failed operating =>
    cases leads
    simp [Phase.Untouched]
  | aborted operating =>
    cases leads
    exact reply_outcome_ne (by simp)
  | asks operating => cases leads <;> trivial
  | places joining waiting => cases leads
  | @joined f stack joining placed arrived =>
    cases leads
    rw [joining] at h
    have whole : f.Whole present := h
    rw [free]
    simpa [Phase.Untouched] using whole.outcome placed childless

end Cluster

namespace Outline

/-- Whether a child with an index is there, whichever it is. -/
def Present (o : Outline) (id : EvaluationId) (i : Nat) : Prop := ∃ c, o.Child id i c

/-- Only what is in a cancelled scope tells of a cancellation, and no fork has been decided by
null. -/
structure Untouched (o : Outline) : Prop where
  phase : ∀ {id e}, o.evaluations.get? id = some e → o.scopes.isCancelled e.scope = false →
    e.phase.Untouched (o.Present id)
  firm : ∀ {id e f stack}, o.evaluations.get? id = some e → e.phase = .joining f stack →
    f.join.Firm

variable {o o' : Outline}

/-- One evaluation has another phase. -/
theorem Untouched.update (h : o.Untouched) {id : EvaluationId} {e : Evaluation} {steps : Nat}
    {phase : Phase} (live : o.evaluations.get? id = some e)
    (he : o'.evaluations = o.evaluations.insert id { e with steps, phase })
    (hf : ∀ {scope}, o'.scopes.isCancelled scope = false → o.scopes.isCancelled scope = false)
    (untouched : o.scopes.isCancelled e.scope = false → phase.Untouched (o.Present id))
    (firm : ∀ {f stack}, phase = .joining f stack → f.join.Firm) : o'.Untouched where
  phase := by
    intro id' e' live' free
    have kept : ∀ x i, o.Present x i → o'.Present x i :=
      fun x i ⟨c, hc⟩ => ⟨c, (child_update live he).2 hc⟩
    rw [he, Table.get?_insert] at live'
    split at live'
    · next hid =>
      subst hid
      cases live'
      exact (untouched (hf free)).mono (kept id)
    · exact (h.phase live' (hf free)).mono (kept id')
  firm := by
    intro id' e' f stack live' joining
    rw [he, Table.get?_insert] at live'
    split at live'
    · cases live'
      exact firm joining
    · exact h.firm live' joining

theorem Untouched.frame (h : o.Untouched) (he : o'.evaluations = o.evaluations)
    (hf : ∀ {scope}, o'.scopes.isCancelled scope = false → o.scopes.isCancelled scope = false) :
    o'.Untouched where
  phase := by
    intro id e live free
    refine (h.phase (he ▸ live) (hf free)).mono ?_
    rintro i ⟨c, ce, hc, hparent⟩
    exact ⟨c, ce, he.symm ▸ hc, hparent⟩
  firm := fun live joining => h.firm (he ▸ live) joining

/-- What is placed is untouched, unless it was refused by an engine that is shut down. -/
theorem Dispatched.untouched {job : JobId} {parent : Option Parent} {scope : Scope} {w : Workflow}
    (sent : o.Dispatched job parent scope w o')
    (h : ∀ {id e}, o.evaluations.get? id = some e → o.scopes.isCancelled e.scope = false →
      e.phase.Untouched (o'.Present id))
    (firm : ∀ {id e f stack}, o.evaluations.get? id = some e → e.phase = .joining f stack →
      f.join.Firm) : o'.Untouched := by
  obtain ⟨p, phase, hget, hphase⟩ := sent.get?
  obtain ⟨-, -, -, hscopes, -⟩ := sent.unchanged
  constructor
  · intro id e live free
    rw [hget] at live
    split at live
    · cases live
      rcases hphase with rfl | rfl
      · trivial
      · simp [Phase.Untouched, Response.outcome]
    · exact h live (hscopes ▸ free)
  · intro id e f stack live joining
    rw [hget] at live
    split at live
    · cases live
      rcases hphase with rfl | rfl <;> cases joining
    · exact firm live joining

theorem Untouched.place (h : o.Untouched) (fresh : o.evaluations.get? ⟨o.newId⟩ = none)
    {id : EvaluationId} {e : Evaluation} {f : Fork} {w : Workflow} {rest : List Workflow}
    {stack : List Frame} (live : o.evaluations.get? id = some e)
    (joining : e.phase = .joining f stack) (waiting : f.waiting = w :: rest)
    (sent : Dispatched
      { o with
        evaluations := o.evaluations.insert id
          { e with phase := .joining { f with placed := f.placed + 1, waiting := rest } stack }
        scopes := (o.scopes.child f.scope).2 }
      e.job (some ⟨id, f.placed⟩) (o.scopes.child f.scope).1 w o') : o'.Untouched := by
  have hchild : ∀ {x c i}, o'.Child x i c ↔
      o.Child x i c ∨ (x = id ∧ i = f.placed ∧ c = ⟨o.newId⟩) := sent.child_placed live fresh
  have kept : ∀ x i, o.Present x i → o'.Present x i := fun x i ⟨c, hc⟩ => ⟨c, hchild.2 (.inl hc)⟩
  refine sent.untouched ?_ ?_
  · intro id' e' live' free
    have free' : o.scopes.isCancelled e'.scope = false := free
    rw [Table.get?_insert] at live'
    split at live'
    · next hid =>
      subst hid
      cases live'
      have whole : f.Whole (o.Present id) := by
        have hphase := h.phase live free'
        rw [joining] at hphase
        exact hphase
      have hplaced : o'.Present id f.placed := ⟨_, hchild.2 (.inr ⟨rfl, rfl, rfl⟩)⟩
      exact whole.place waiting hplaced (kept id)
    · exact (h.phase live' free').mono (kept id')
  · intro id' e' f' stack' live' joining'
    rw [Table.get?_insert] at live'
    split at live'
    · cases live'
      cases joining'
      exact show f.join.Firm from h.firm live joining
    · exact h.firm live' joining'

variable {spared : Option JobId} {role : Nat → ScopeRole}

theorem Untouched.collectChild (h : o.Untouched) (hf : o.Forked) (hr : o.Numbered spared role)
    {id : EvaluationId} {e : Evaluation} {r : Response} {parent : Parent} {pe : Evaluation}
    {f : Fork} {stack : List Frame} (live : o.evaluations.get? id = some e)
    (responded : e.phase = .responded r) (child : e.parent = some parent)
    (above : o.evaluations.get? parent.id = some pe) (joining : pe.phase = .joining f stack)
    (he : o'.evaluations = (o.evaluations.erase id).insert parent.id
      { pe with
        phase := .joining
          { f with
            join := (f.join.receive parent.index r.outcome).2
            missing := f.missing - 1 } stack })
    (hs : ∀ {scope}, o'.scopes.isCancelled scope = false → o.scopes.isCancelled scope = false) :
    o'.Untouched := by
  have hne : id ≠ parent.id := by
    rintro rfl
    cases live.symm.trans above
    cases responded.symm.trans joining
  obtain ⟨-, hchild⟩ := child_collect hne above he
  have hi : parent.index < f.placed := hf.index_lt above joining ⟨e, live, child⟩
  have only : ∀ k, o.Present parent.id k → k = parent.index ∨ o'.Present parent.id k := by
    rintro k ⟨c, ce, hc, hparent⟩
    by_cases hcid : c = id
    · subst hcid
      cases live.symm.trans hc
      exact .inl (congrArg Parent.index (Option.some.inj (hparent.symm.trans child)))
    · exact .inr ⟨c, hchild.2 ⟨⟨ce, hc, hparent⟩, hcid⟩⟩
  constructor
  · intro id' e' live' free'
    have free := hs free'
    rw [he, Table.get?_insert] at live'
    split at live'
    · next hid =>
      subst hid
      cases live'
      by_cases hfork : f.scope.number ∈ o.scopes.cancelled
      · exact Fork.whole_of_decided ((Join.decided_receive _ _ _).2
          (.inl (hr.decided above joining hfork)))
      · have whole : f.Whole (o.Present parent.id) := by
          have hphase := h.phase above free
          rw [joining] at hphase
          exact hphase
        have counts : r.outcome ≠ .error .cancelled := by
          have hphase := h.phase live (hr.free_child hf live child above joining free hfork)
          rw [responded] at hphase
          exact hphase
        exact whole.receive _ hi counts only
    · next hid =>
      rw [Table.get?_erase] at live'
      split at live'
      · cases live'
      · refine (h.phase live' free).mono ?_
        rintro i ⟨c, ce, hc, hparent⟩
        refine ⟨c, hchild.2 ⟨⟨ce, hc, hparent⟩, ?_⟩⟩
        rintro rfl
        cases live.symm.trans hc
        cases hparent.symm.trans child
        exact hid rfl
  · intro id' e' f' stack' live' joining'
    rw [he, Table.get?_insert] at live'
    split at live'
    · cases live'
      cases joining'
      exact (h.firm above joining).receive _ _
    · rw [Table.get?_erase] at live'
      split at live'
      · cases live'
      · exact h.firm live' joining'

theorem Untouched.step {ev : Event} (h : o.Untouched) (hr : o.Numbered spared role)
    (hc : o.Consistent) (hn : o.nextId < Uuid.supply) (s : o.Step ev o') : o'.Untouched := by
  have fresh := hc.fresh hn
  have hs : ∀ {scope}, o'.scopes.isCancelled scope = false →
      o.scopes.isCancelled scope = false := s.free
  cases s with
  | elapse => exact h
  | arrange => exact h
  | submit now => exact h.frame rfl hs
  | cancel known running => exact h.frame rfl hs
  | forget known ended => exact h.frame rfl hs
  | shutdown => exact h.frame rfl hs
  | @begin job w scope _ thread sent =>
    have threads : Untouched { o with threads := o.threads.insert job .waiting } :=
      h.frame rfl fun h => h
    refine sent.untouched (fun live free => (threads.phase live free).mono ?_) threads.firm
    rintro i ⟨c, hc'⟩
    exact ⟨c, (sent.child fresh).2 (.inl hc')⟩
  | receive at_slot inbox live =>
    exact h.update live rfl hs (fun _ => trivial) (by simp)
  | @close i post worker at_slot stopped =>
    have stay : o.StemsFrom
        { o with
          posts := o.posts.modify i fun _ => ⟨false, []⟩
          evaluations := dropAll worker post.inbox o.evaluations } := stemsFrom_dropAll rfl
    constructor
    · intro id e' live' free
      rw [get?_dropAll] at live'
      split at live'
      · obtain ⟨e, live, rfl⟩ := Option.map_eq_some_iff.1 live'
        simp [Phase.Untouched, Response.outcome]
      · refine (h.phase live' free).mono ?_
        rintro i ⟨c, ce, hc', hparent⟩
        obtain ⟨ce', hce', -, hp, -⟩ := stay c ce hc'
        exact ⟨c, ce', hce', hp ▸ hparent⟩
    · intro id e' f stack live' joining
      rw [get?_dropAll] at live'
      split at live'
      · obtain ⟨e, live, rfl⟩ := Option.map_eq_some_iff.1 live'
        cases joining
      · exact h.firm live' joining
  | shift steps live turn leads later =>
    refine h.update live rfl hs (fun free => ?_) fun joining => absurd joining (leads.not_joining _ _)
    have childless := hc.childless_of_turn live turn leads
    exact turn.untouched leads free (h.phase live free) fun i => not_exists.2 (childless i)
  | @fork id e m kind first rest stack steps live running free forks =>
    refine h.update live rfl hs (fun _ => ?_) ?_
    · exact Fork.whole_start kind _ (first :: rest)
    · rintro f stack ⟨⟩
      exact Join.firm_start _ _
  | place live joining waiting sent => exact h.place fresh live joining waiting sent
  | @collectRoot id e r entry now live responded root known =>
    constructor
    · intro id' e' live' free
      rw [Table.get?_erase] at live'
      split at live'
      · cases live'
      · refine (h.phase live' free).mono ?_
        rintro i ⟨c, ce, hc', hparent⟩
        refine ⟨c, ce, ?_, hparent⟩
        rw [Table.get?_erase, if_neg]
        · exact hc'
        · rintro rfl
          cases live.symm.trans hc'
          cases root.symm.trans hparent
    · intro id' e' f stack live' joining
      rw [Table.get?_erase] at live'
      split at live'
      · cases live'
      · exact h.firm live' joining
  | collectChild now live responded child above joining =>
    exact h.collectChild hc.toForked hr live responded child above joining rfl hs

end Outline

end WorkflowEngine
