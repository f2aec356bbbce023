import WorkflowEngine.Proofs.StructuredConcurrency
import WorkflowEngine.Proofs.Untouched
/-!
Where cancellations come from. An evaluation is stopped by a request for its own job, by the end of
the engine, or by a fork around it that has received what decides it, and by nothing else.
-/
set_option autoImplicit false

namespace WorkflowEngine

theorem ScopeTree.mem_path_of_cancel {t : ScopeTree} {s s' : Scope}
    (cancelled : (t.cancel s).isCancelled s' = true) (free : t.isCancelled s' = false) :
    s.number ∈ s'.path := by
  obtain ⟨n, hn, hc⟩ := isCancelled_iff.1 cancelled
  rcases mem_cancel.1 hc with rfl | hc
  · exact hn
  · exact absurd (isCancelled_iff.2 ⟨n, hn, hc⟩) (by simp [free])

namespace Outline

/-- Whether an evaluation is inside the fork of another one, however deep. -/
inductive Inside (o : Outline) (top : EvaluationId) : EvaluationId → Prop
  | direct {id : EvaluationId} {e : Evaluation} {i : Nat}
      (live : o.evaluations.get? id = some e) (child : e.parent = some ⟨top, i⟩) : Inside o top id
  | further {id : EvaluationId} {e : Evaluation} {parent : Parent}
      (live : o.evaluations.get? id = some e) (child : e.parent = some parent)
      (inside : Inside o top parent.id) : Inside o top id

/-- Whether a fork around an evaluation has received what decides it. -/
def DecidedAround (o : Outline) (id : EvaluationId) : Prop :=
  ∃ top e f stack r, o.Inside top id ∧ o.evaluations.get? top = some e ∧
    e.phase = .joining f stack ∧ f.join.decision = some r ∧ r ≠ .ok .null

/-- An event by which a fork is given the outcome of a child. -/
def Gives (o : Outline) (ev : Event) (top : EvaluationId) (outcome : Outcome) : Prop :=
  ∃ id e r i, ev = .move (.collect id) ∧ o.evaluations.get? id = some e ∧
    e.phase = .responded r ∧ e.parent = some ⟨top, i⟩ ∧ r.outcome = outcome

/-- An event by which a fork that is not decided is given a result that decides it. -/
def Decides (o : Outline) (ev : Event) (top : EvaluationId) : Prop :=
  ∃ e f stack, o.evaluations.get? top = some e ∧ e.phase = .joining f stack ∧
    f.join.decision = none ∧
    ∃ r : Except WorkflowError Value, o.Gives ev top (r.mapError .error) ∧ r ≠ .ok .null

/-- The events that stop an evaluation. -/
inductive Stops (o : Outline) (id : EvaluationId) (e : Evaluation) : Event → Prop
  | engine : Stops o id e .shutdown
  | job : Stops o id e (.cancel e.job)
  | fork {ev : Event} {top : EvaluationId} (decides : o.Decides ev top)
      (inside : o.Inside top id) : Stops o id e ev

/-- An evaluation comes to respond. -/
def Settles (o o' : Outline) (id : EvaluationId) (outcome : Outcome) : Prop :=
  ∃ e r, o'.evaluations.get? id = some e ∧ e.phase = .responded r ∧ r.outcome = outcome ∧
    ∀ e₀, o.evaluations.get? id = some e₀ → e₀.phase ≠ .responded r

/-- An evaluation goes on with the outcome of its fork. -/
def Reports (o o' : Outline) (id : EvaluationId) (outcome : Outcome) : Prop :=
  ∃ e f stack e', o.evaluations.get? id = some e ∧ e.phase = .joining f stack ∧
    o'.evaluations.get? id = some e' ∧ e'.phase = .running ⟨stack, .resume outcome⟩

variable {o o' : Outline} {spared : Option JobId} {role : Nat → ScopeRole}

theorem Forked.length_lt (h : o.Forked) {id : EvaluationId} {e pe : Evaluation} {parent : Parent}
    (live : o.evaluations.get? id = some e) (child : e.parent = some parent)
    (above : o.evaluations.get? parent.id = some pe) :
    pe.scope.path.length < e.scope.path.length := by
  obtain ⟨pe', f, stack, above', joining, -, -, hscope⟩ := h.above live child
  cases above'.symm.trans above
  simp only [Scope.path, hscope, h.fork_scope above joining, List.length_cons]
  omega

theorem Inside.exists_live {top id : EvaluationId} (inside : o.Inside top id) (h : o.Forked) :
    ∃ e te, o.evaluations.get? id = some e ∧ o.evaluations.get? top = some te := by
  induction inside with
  | direct live child =>
    obtain ⟨te, f, stack, above, -⟩ := h.above live child
    exact ⟨_, te, live, above⟩
  | further live child inside ih =>
    obtain ⟨-, te, -, above⟩ := ih
    exact ⟨_, te, live, above⟩

/-- What is inside a fork is of the same job, and in a deeper scope. -/
theorem Inside.deeper {top id : EvaluationId} (inside : o.Inside top id) (h : o.Forked)
    {e te : Evaluation} (live : o.evaluations.get? id = some e)
    (above : o.evaluations.get? top = some te) :
    te.job = e.job ∧ te.scope.path.length < e.scope.path.length := by
  induction inside generalizing e with
  | direct live' child =>
    cases live'.symm.trans live
    obtain ⟨pe, f, stack, above', -, hjob, -⟩ := h.above live child
    cases above'.symm.trans above
    exact ⟨hjob, h.length_lt live child above⟩
  | further live' child inside ih =>
    cases live'.symm.trans live
    obtain ⟨pe, f, stack, above', -, hjob, -⟩ := h.above live child
    obtain ⟨same, hlt⟩ := ih above'
    exact ⟨same.trans hjob, hlt.trans (h.length_lt live child above')⟩

/-- What the scopes around an evaluation were opened for. -/
theorem Numbered.of_mem_path (hr : o.Numbered spared role) (ht : o.Threaded) (h : o.Forked)
    {id : EvaluationId} {e : Evaluation} (live : o.evaluations.get? id = some e) {n : Nat}
    (hn : n ∈ e.scope.path) :
    role n = .child ∨ role n = .engine ∨ role n = .job e.job ∨
      ∃ top te f stack, o.Inside top id ∧ o.evaluations.get? top = some te ∧
        te.phase = .joining f stack ∧ f.scope.number = n := by
  -- The way up is as long as the path of the scope.
  induction hlength : e.scope.path.length using Nat.strongRecOn generalizing id e with
  | ind length ih =>
    cases hp : e.parent with
    | none =>
      simp only [Scope.path, ht.root_scope live hp, Scope.root, List.mem_cons, List.not_mem_nil,
        or_false] at hn
      rcases hn with rfl | rfl
      · exact .inr (.inr (.inl (hr.top live hp)))
      · exact .inr (.inl (hr.engine.2 rfl))
    | some parent =>
      obtain ⟨pe, f, stack, above, joining, hjob, -, hscope⟩ := h.above live hp
      simp only [Scope.path, hscope, h.fork_scope above joining, List.mem_cons] at hn
      rcases hn with rfl | rfl | hn
      · exact .inl (hr.inner live hp)
      · exact .inr (.inr (.inr ⟨_, pe, f, stack, .direct live hp, above, joining, rfl⟩))
      · have hlt := h.length_lt live hp above
        rcases ih _ (hlength ▸ hlt) above (List.mem_cons.2 hn) rfl with
          hchild | hengine | hsame | ⟨top, te, f', stack', inside, htop, joining', hnumber⟩
        · exact .inl hchild
        · exact .inr (.inl hengine)
        · exact .inr (.inr (.inl (hjob ▸ hsame)))
        · exact .inr (.inr (.inr
            ⟨top, te, f', stack', .further live hp inside, htop, joining', hnumber⟩))

/-- If neither a job nor the engine is cancelled from outside, then what is cancelled in the job is
inside a fork that has been decided. -/
theorem Numbered.decidedAround {job : JobId} (hr : o.Numbered (some job) role)
    (hu : o.Untouched) (hc : o.Consistent) {id : EvaluationId} {e : Evaluation}
    (live : o.evaluations.get? id = some e) (same : e.job = job)
    (cancelled : o.scopes.isCancelled e.scope = true) : o.DecidedAround id := by
  obtain ⟨n, hn, hcan⟩ := ScopeTree.isCancelled_iff.1 cancelled
  have exposed := hr.exposed hcan
  rcases hr.of_mem_path hc.toThreaded hc.toForked live hn with
    hrole | hrole | hrole | ⟨top, te, f, stack, inside, above, joining, rfl⟩
  · rw [hrole] at exposed
    exact exposed.elim
  · rw [hrole] at exposed
    cases exposed
  · rw [hrole, same] at exposed
    exact absurd rfl exposed
  · obtain ⟨r, hdecision⟩ := Join.decided_iff.1 (hr.decided above joining hcan)
    refine ⟨top, te, f, stack, r, inside, above, joining, hdecision, ?_⟩
    rintro rfl
    exact hu.firm above joining hdecision

theorem Step.stops {ev : Event} (s : o.Step ev o') (hr : o.Numbered spared role)
    (hu : o.Untouched) (hc : o.Consistent) {id : EvaluationId} {e : Evaluation}
    (live : o.evaluations.get? id = some e) (free : o.scopes.isCancelled e.scope = false)
    (cancelled : o'.scopes.isCancelled e.scope = true) : o.Stops id e ev := by
  have path := fun {n} => hr.of_mem_path hc.toThreaded hc.toForked live (n := n)
  have same : o'.scopes.cancelled = o.scopes.cancelled → o.Stops id e ev := by
    intro hs
    obtain ⟨n, hn, hcan⟩ := ScopeTree.isCancelled_iff.1 cancelled
    exact absurd (ScopeTree.isCancelled_iff.2 ⟨n, hn, hs ▸ hcan⟩) (by simp [free])
  cases s with
  | shutdown => exact .engine
  | @cancel job entry known running =>
    have hrole := hr.entry known
    rcases path (ScopeTree.mem_path_of_cancel cancelled free) with
      h | h | h | ⟨top, te, f, stack, -, above, joining, hnumber⟩
    · cases hrole.symm.trans h
    · cases hrole.symm.trans h
    · cases hrole.symm.trans h
      exact .job
    · rw [← hnumber, hr.fork above joining] at hrole
      cases hrole
  | @collectChild cid ce r now parent pe f stack live' responded child above joining =>
    by_cases decides : (f.join.receive parent.index r.outcome).1 = true
    · simp only [decides, if_true] at cancelled
      have hrole := hr.fork above joining
      obtain ⟨undecided, result, hdecision, houtcome⟩ := Join.decision_receive decides
      have found : result ≠ .ok .null := by
        rintro rfl
        exact (hu.firm above joining).receive _ _ hdecision
      have gives : o.Decides (.move (.collect cid)) parent.id :=
        ⟨pe, f, stack, above, joining, undecided, result,
          ⟨cid, ce, r, parent.index, rfl, live', responded, child, houtcome⟩, found⟩
      rcases path (ScopeTree.mem_path_of_cancel cancelled free) with
        h | h | h | ⟨top, te, f', stack', inside, above', joining', hnumber⟩
      · cases hrole.symm.trans h
      · cases hrole.symm.trans h
      · cases hrole.symm.trans h
      · -- No other evaluation has opened the scope of the fork.
        have hrole' := hr.fork above' joining'
        rw [hnumber, hrole] at hrole'
        cases hrole'
        exact .fork gives inside
    · refine same ?_
      simp only [decides, if_false, Bool.false_eq_true]
  | begin thread sent =>
    obtain ⟨-, -, -, hscopes, -⟩ := sent.unchanged
    exact same (hscopes ▸ rfl)
  | place live joining waiting sent =>
    obtain ⟨-, -, -, hscopes, -⟩ := sent.unchanged
    exact same (hscopes ▸ rfl)
  | _ => exact same rfl

theorem Step.settles_cancelled {ev : Event} (s : o.Step ev o') {job : JobId}
    (hr : o.Numbered (some job) role) (hu : o.Untouched) (hc : o.Consistent) {id : EvaluationId}
    {e' : Evaluation} (live' : o'.evaluations.get? id = some e') (same : e'.job = job)
    (settles : o.Settles o' id (.error .cancelled)) : o.DecidedAround id := by
  obtain ⟨_, r, hlive, responded, houtcome, new⟩ := settles
  cases hlive.symm.trans live'
  have answered : ∀ f, r ≠ .failed f := by
    rintro f rfl
    simp [Response.outcome] at houtcome
  rcases s.evaluation hc live' with ⟨e, live, hjob, -, -, passes⟩ | ⟨-, queued | ⟨f, hf, -⟩⟩
  · rcases passes.responded responded with before | ⟨f, hf, -⟩ | ⟨t, turn, leads⟩
    · exact absurd before (new e live)
    · exact absurd hf (answered f)
    · cases cancelled : o.scopes.isCancelled e.scope with
      | true => exact hr.decidedAround hu hc live (hjob ▸ same) cancelled
      | false =>
        have childless := hc.childless_of_turn live turn leads
        have untouched : (Phase.responded r).Untouched fun _ => False :=
          turn.untouched leads cancelled (hu.phase live cancelled)
            fun i => not_exists.2 (childless i)
        exact absurd houtcome untouched
  · cases queued.symm.trans responded
  · exact absurd (Phase.responded.inj (responded.symm.trans hf)) (answered f)

/-- When an evaluation goes on after a fork, it does so with what the join gives then. -/
theorem Passes.joined {e : Evaluation} {phase : Phase} {m : Machine} {f : Fork}
    {stack : List Frame} (h : o.Passes e phase) (running : phase = .running m)
    (joining : e.phase = .joining f stack) :
    f.waiting = [] ∧ f.missing = 0 ∧
      m = ⟨stack, .resume (f.join.outcome (o.scopes.isCancelled e.scope))⟩ := by
  cases h with
  | rests => cases joining.symm.trans running
  | shifts turn leads =>
    subst running
    cases turn with
    | joined joining' placed arrived =>
      cases joining'.symm.trans joining
      cases leads
      exact ⟨placed, arrived, rfl⟩
    | places joining' waiting => cases leads
    | _ => simp_all
  | _ => cases running

theorem Step.reports {ev : Event} (s : o.Step ev o') (hc : o.Consistent) {id : EvaluationId}
    {outcome : Outcome} (reports : o.Reports o' id outcome) :
    ∃ e f stack, o.evaluations.get? id = some e ∧ e.phase = .joining f stack ∧ f.waiting = [] ∧
      f.missing = 0 ∧ outcome = f.join.outcome (o.scopes.isCancelled e.scope) := by
  obtain ⟨e, f, stack, e', live, joining, live', running⟩ := reports
  rcases s.evaluation hc live' with ⟨e₁, live₁, -, -, -, passes⟩ | ⟨-, queued | ⟨r, hr, -⟩⟩
  · cases live.symm.trans live₁
    obtain ⟨placed, arrived, hm⟩ := passes.joined running joining
    injection hm with hstack hcontrol
    injection hcontrol with houtcome
    exact ⟨e, f, stack, live, joining, placed, arrived, houtcome⟩
  · cases queued.symm.trans running
  · cases hr.symm.trans running

/-- A fork does not come out cancelled unless it is itself in a cancelled scope. -/
theorem Step.reports_cancelled {ev : Event} (s : o.Step ev o') (hu : o.Untouched)
    (hc : o.Consistent) {id : EvaluationId} {e : Evaluation}
    (live : o.evaluations.get? id = some e) (reports : o.Reports o' id (.error .cancelled)) :
    o.scopes.isCancelled e.scope = true := by
  obtain ⟨_, f, stack, live', joining, placed, arrived, houtcome⟩ := s.reports hc reports
  cases live.symm.trans live'
  by_contra free
  replace free := eq_false_of_ne_true free
  have whole : f.Whole (o.Present id) := by
    have hphase := hu.phase live free
    rw [joining] at hphase
    exact hphase
  have childless := hc.childless_of_missing live joining arrived
  rw [free] at houtcome
  exact whole.outcome placed (fun i => not_exists.2 (childless i)) houtcome.symm

/-- Whether the fork of an evaluation does not come to null any more. -/
def Decisive (o : Outline) (id : EvaluationId) : Prop :=
  ∀ e f stack, o.evaluations.get? id = some e → e.phase = .joining f stack →
    f.join.Found ∨ o.scopes.isCancelled e.scope = true

theorem Passes.found {e : Evaluation} {phase : Phase} {f f' : Fork} {stack stack' : List Frame}
    (h : o.Passes e phase) (joining' : phase = .joining f' stack')
    (joining : e.phase = .joining f stack) (found : f.join.Found) : f'.join.Found := by
  cases h with
  | rests =>
    cases joining.symm.trans joining'
    exact found
  | shifts turn leads => exact absurd joining' (leads.not_joining _ _)
  | forks running => cases joining.symm.trans running
  | places joining₀ waiting =>
    cases joining.symm.trans joining₀
    cases joining'
    exact found
  | arrives i outcome joining₀ =>
    cases joining.symm.trans joining₀
    cases joining'
    exact found.receive i outcome
  | _ => cases joining'

theorem Decisive.step {ev : Event} {id : EvaluationId} (h : o.Decisive id) (hj : o.Joining id)
    (hc : o.Consistent) (s : o.Step ev o') : o'.Decisive id := by
  intro e' f' stack' live' joining'
  obtain ⟨e, f, stack, live, joining⟩ := hj
  rcases s.evaluation hc live' with ⟨e₀, live₀, -, -, hscope, passes⟩ | ⟨-, queued | ⟨r, hr, -⟩⟩
  · cases live.symm.trans live₀
    rcases h e f stack live joining with found | cancelled
    · exact .inl (passes.found joining' joining found)
    · exact .inr (hscope ▸ s.isCancelled cancelled)
  · cases queued.symm.trans joining'
  · cases hr.symm.trans joining'

/-- A child gives something else than null only for a reason that its fork then knows. -/
theorem Step.decisive {ev : Event} (s : o.Step ev o') (hr : o.Numbered spared role)
    (hu : o.Untouched) (hc : o.Consistent) {top : EvaluationId} {outcome : Outcome}
    (gives : o.Gives ev top outcome) (found : outcome ≠ .ok .null) : o'.Decisive top := by
  obtain ⟨id, e, r, i, rfl, live, responded, child, rfl⟩ := gives
  have stays : ∀ {scope}, o.scopes.isCancelled scope = true →
      o'.scopes.isCancelled scope = true := s.isCancelled
  intro e' f' stack' live' joining'
  cases s with
  | collectRoot now live₀ responded₀ root known =>
    cases live.symm.trans live₀
    cases child.symm.trans root
  | @collectChild _ _ _ now _ pe f stack live₀ responded₀ child₀ above joining =>
    cases live.symm.trans live₀
    cases responded.symm.trans responded₀
    cases child.symm.trans child₀
    rw [Table.get?_insert, if_pos rfl] at live'
    cases live'
    cases joining'
    cases cancelled : o.scopes.isCancelled pe.scope with
    | true => exact .inr (stays cancelled)
    | false =>
      by_cases hfork : f.scope.number ∈ o.scopes.cancelled
      · exact .inl (Join.found_of_decided (hr.decided above joining hfork) |>.receive _ _)
      · have counts : r.outcome ≠ .error .cancelled := by
          have hphase := hu.phase live
            (hr.free_child hc.toForked live child above joining cancelled hfork)
          rw [responded] at hphase
          exact hphase
        exact .inl (Join.found_receive _ _ found counts)

/-- A fork that has received something else than null does not come out null. -/
theorem Step.reports_null {ev : Event} (s : o.Step ev o') (hu : o.Untouched) (hc : o.Consistent)
    {id : EvaluationId} (decisive : o.Decisive id) : ¬ o.Reports o' id (.ok .null) := by
  intro reports
  obtain ⟨e, f, stack, live, joining, -, -, houtcome⟩ := s.reports hc reports
  exact (hu.firm live joining).outcome_ne_null (decisive e f stack live joining) houtcome.symm

end Outline

namespace Cluster

variable {P : Cluster → Event → Prop} {a b : Cluster}

theorem untouched_start (registry : Registry) (config : EngineConfig) (backend : Backend)
    (sink : LogSink) : (start registry config backend sink).outline.Untouched where
  phase := by rintro id e ⟨⟩
  firm := by rintro id e f stack ⟨⟩

theorem Run.untouched (run : Run P a b) (hc : a.outline.Consistent) (hn : b.nextId < Uuid.supply)
    (hr : ∃ role, a.outline.Numbered none role) (h : a.outline.Untouched) :
    b.outline.Untouched := by
  have both : (∃ role, b.outline.Numbered none role) ∧ b.outline.Untouched := by
    refine run.invariant
      (I := fun c => (∃ role, c.outline.Numbered none role) ∧ c.outline.Untouched) hc hn ⟨hr, h⟩ ?_
    rintro c ev c' hc hn - s ⟨⟨role, hr⟩, h⟩
    exact ⟨hr.step s (by cases ev <;> simp [Event.Spares]), h.step hr hc hn s⟩
  exact both.2

/-- Moves cancel nothing from outside. -/
theorem Run.spare_move {job : JobId} (run : Run (fun _ ev => ev.Spares (some job)) a b) {m : Move}
    {c : Cluster} (next : b.after (.move m) = some c) :
    Run (fun _ ev => ev.Spares (some job)) a c :=
  .step run (show Event.Spares (some job) (.move m) from trivial) next

/-- A job is spared if neither it nor the engine has been cancelled from outside. -/
theorem Run.spared {registry : Registry} {config : EngineConfig} {backend : Backend}
    {sink : LogSink} {c : Cluster} {job : JobId}
    (run : Run (fun _ ev => ev.Spares (some job)) (start registry config backend sink) c)
    (ids : c.nextId < Uuid.supply) : ∃ role, c.outline.Numbered (some job) role := by
  obtain ⟨role, hr⟩ := numbered_start registry config backend sink
  have new : ¬ (start registry config backend sink).outline.Known job.uuid := by
    rintro ⟨n, hn, -⟩
    exact absurd hn (Nat.not_lt_zero n)
  refine run.invariant (I := fun c => ∃ role, c.outline.Numbered (some job) role)
    (consistent_start registry config backend sink) ids ⟨role, hr.spare rfl new⟩ ?_
  rintro c ev c' - - spares s ⟨role, hr⟩
  exact hr.step s spares

theorem Run.decisive {id : EvaluationId} (run : Run (fun c _ => c.outline.Joining id) a b)
    (hc : a.outline.Consistent) (hn : b.nextId < Uuid.supply) (h : a.outline.Decisive id) :
    b.outline.Decisive id :=
  run.invariant (I := fun c => c.outline.Decisive id) hc hn h
    fun hc _ joining s h => h.step joining hc s

/-- What holds when one state of an engine follows another by an event, and in what comes then. -/
structure CancelledForCause (origin c : Cluster) (ev : Event) (c' : Cluster) : Prop where
  /-- Where neither its job nor the engine has been cancelled from outside, an evaluation ends
  cancelled only inside a fork that has been decided before. -/
  settles : ∀ id e, c'.evaluations.get? id = some e →
    c.outline.Settles c'.outline id (.error .cancelled) →
    Run (fun _ ev => ev.Spares (some e.job)) origin c → c.outline.DecidedAround id
  stops : ∀ id e, c.evaluations.get? id = some e → c.scopes.isCancelled e.scope = false →
    c'.scopes.isCancelled e.scope = true → c.outline.Stops id e ev
  /-- The fork of an evaluation is not around its own evaluation, nor around what that one is
  inside of, nor around another job. -/
  inside : ∀ top id, c.outline.Inside top id → top ≠ id ∧ ¬ c.outline.Inside id top ∧
    ∀ e te, c.evaluations.get? id = some e → c.evaluations.get? top = some te → te.job = e.job
  cancelled : ∀ id e, c.evaluations.get? id = some e →
    c.outline.Reports c'.outline id (.error .cancelled) → c.scopes.isCancelled e.scope = true
  /-- A fork that a child has given something else than null, be it that the child was cancelled,
  does not come out null. -/
  null : ∀ top outcome c₁ ev₂ c₂, c.outline.Gives ev top outcome → outcome ≠ .ok .null →
    Run (fun b _ => b.outline.Joining top) c' c₁ → c₁.nextId < Uuid.supply →
    c₁.after ev₂ = some c₂ → ¬ c₁.outline.Reports c₂.outline top (.ok .null)

/-- No cancellation is spurious, in every run of any jobs. -/
theorem no_spurious_cancellation {registry : Registry} {config : EngineConfig} {backend : Backend}
    {sink : LogSink} {c c' : Cluster} {ev : Event}
    (run : Reaches (start registry config backend sink) c) (next : c.after ev = some c')
    (ids : c.nextId < Uuid.supply) :
    CancelledForCause (start registry config backend sink) c ev c' := by
  have hstart := consistent_start registry config backend sink
  have hc := run.consistent hstart ids
  obtain ⟨role, hr⟩ := run.numbered hstart ids (numbered_start registry config backend sink)
  have hu := run.untouched hstart ids (numbered_start registry config backend sink)
    (untouched_start registry config backend sink)
  have s := step_of_after hc next
  refine
    { settles := ?_
      stops := fun id e live free cancelled => s.stops hr hu hc live free cancelled
      inside := ?_
      cancelled := fun id e live reports => s.reports_cancelled hu hc live reports
      null := ?_ }
  · intro id e live settles spared
    obtain ⟨role', hr'⟩ := spared.spared ids
    exact s.settles_cancelled hr' hu hc live rfl settles
  · intro top id inside
    obtain ⟨e, te, live, above⟩ := inside.exists_live hc.toForked
    have deeper := (inside.deeper hc.toForked live above).2
    refine ⟨?_, ?_, fun e te live above => (inside.deeper hc.toForked live above).1⟩
    · rintro rfl
      cases live.symm.trans above
      exact absurd deeper (Nat.lt_irrefl _)
    · intro back
      exact absurd deeper (Nat.lt_asymm (back.deeper hc.toForked above live).2)
  · intro top outcome c₁ ev₂ c₂ gives found joins ids₁ resumed
    have hc' := hc.step ids s
    have reached := (Run.step run trivial next).trans joins.reaches
    have hc₁ := joins.consistent hc' ids₁
    have hu₁ := reached.untouched hstart ids₁ (numbered_start registry config backend sink)
      (untouched_start registry config backend sink)
    have decisive := joins.decisive hc' ids₁ (s.decisive hr hu hc gives found)
    exact (step_of_after hc₁ resumed).reports_null hu₁ hc₁ decisive

/-- One child of a choice gives a value, and the other one ends cancelled for it. -/
theorem no_spurious_cancellation_choice : ∃ c c' : Cluster,
    Run (fun _ ev => ev.Spares (some ⟨Uuid.fresh 0⟩))
        (start {} {} (.memory .empty) (.memory .empty)) c ∧
      c.after (.move (.advance ⟨Uuid.fresh 3⟩)) = some c' ∧
      c.outline.Settles c'.outline ⟨Uuid.fresh 3⟩ (.error .cancelled) ∧
      c.outline.DecidedAround ⟨Uuid.fresh 3⟩ := by
  have sent : Workflow.decode (Workflow.choice [.ret (.bool true), .ret .null]).encode =
      .ok (.choice [.ret (.bool true), .ret .null]) := by cbv
  have sent₁ : Workflow.decode (Workflow.ret (.bool true)).encode = .ok (.ret (.bool true)) := by cbv
  have sent₂ : Workflow.decode (Workflow.ret .null).encode = .ok (.ret .null) := by cbv
  have found : (Response.reply (Outcome.encode (.ok (.bool true)))).outcome = .ok (.bool true) := by
    cbv
  have submitted : Run (fun _ ev => ev.Spares (some ⟨Uuid.fresh 0⟩))
      (start {} {} (.memory .empty) (.memory .empty)) _ :=
    .single (show Event.Spares _ (.submit _ _) from trivial) (rfl : Cluster.after _
      (.submit "job" (.choice [.ret (.bool true), .ret .null])) = _)
  have begun := submitted.spare_move
    (rfl : Cluster.after _ (.move (.begin ⟨Uuid.fresh 0⟩)) = some _)
  have received := begun.spare_move (rfl : Cluster.after _ (.move (.receive 0)) = some _)
  have started := received.spare_move (after_accepted ⟨Uuid.fresh 1⟩ rfl rfl sent)
  have forked := started.spare_move
    (rfl : Cluster.after _ (.move (.advance ⟨Uuid.fresh 1⟩)) = some _)
  have first := forked.spare_move
    (rfl : Cluster.after _ (.move (.advance ⟨Uuid.fresh 1⟩)) = some _)
  have second := first.spare_move
    (rfl : Cluster.after _ (.move (.advance ⟨Uuid.fresh 1⟩)) = some _)
  have accepted₁ := second.spare_move (rfl : Cluster.after _ (.move (.receive 1)) = some _)
  have accepted₂ := accepted₁.spare_move (rfl : Cluster.after _ (.move (.receive 2)) = some _)
  have started₁ := accepted₂.spare_move (after_accepted ⟨Uuid.fresh 2⟩ rfl rfl sent₁)
  have started₂ := started₁.spare_move (after_accepted ⟨Uuid.fresh 3⟩ rfl rfl sent₂)
  have stepped := started₂.spare_move
    (rfl : Cluster.after _ (.move (.advance ⟨Uuid.fresh 2⟩)) = some _)
  have replied := stepped.spare_move
    (rfl : Cluster.after _ (.move (.advance ⟨Uuid.fresh 2⟩)) = some _)
  have decided := replied.spare_move (after_collected ⟨Uuid.fresh 2⟩ rfl rfl rfl rfl found)
  obtain ⟨c, c', e, e₀, run, next, ids, live, same, responded, before, idle⟩ : ∃ c c' e e₀,
      Run (fun _ ev => ev.Spares (some ⟨Uuid.fresh 0⟩))
          (start {} {} (.memory .empty) (.memory .empty)) c ∧
        c.after (.move (.advance ⟨Uuid.fresh 3⟩)) = some c' ∧ c.nextId < Uuid.supply ∧
        c'.evaluations.get? ⟨Uuid.fresh 3⟩ = some e ∧ e.job = ⟨Uuid.fresh 0⟩ ∧
        e.phase = .responded (.reply (Outcome.encode (.error .cancelled))) ∧
        c.evaluations.get? ⟨Uuid.fresh 3⟩ = some e₀ ∧ ∀ r, e₀.phase ≠ .responded r :=
    ⟨_, _, _, _, decided, rfl, by decide, rfl, rfl, rfl, rfl, by rintro r ⟨⟩⟩
  have settles : c.outline.Settles c'.outline ⟨Uuid.fresh 3⟩ (.error .cancelled) := by
    refine ⟨e, _, live, responded, decode_cancelled, fun e₁ live₁ => ?_⟩
    cases before.symm.trans live₁
    exact idle _
  have cause := no_spurious_cancellation run.reaches next ids
  exact ⟨c, c', run, next, settles, cause.settles _ e live settles (same ▸ run)⟩

end Cluster

end WorkflowEngine
