import WorkflowEngine.Proofs.Allowance
import WorkflowEngine.Proofs.Cancellation
/-!
A cancelled scope drains: the evaluations inside come to an end by themselves. Each step that one of
them takes, or that hands it over, leaves less to do.
-/
set_option autoImplicit false

namespace WorkflowEngine

/-- What is left to do for an evaluation inside a scope. For the others it only counts whether they
still wait in an inbox. -/
def Evaluation.work (s : Scope) (e : Evaluation) : Nat :=
  if s.path <:+ e.scope.path then
    match e.phase with
    | .queued => 5
    | .accepted _ => 4
    | .operating _ _ _ => 4
    | .joining f _ => 4 + 6 * f.waiting.length
    | .running _ => 3
    | .responded _ => 1
  else
    match e.phase with
    | .queued => 1
    | _ => 0

namespace Outline

variable {o o' : Outline} {s : Scope} {id : EvaluationId} {e : Evaluation}

def work (s : Scope) (o : Outline) : Nat := o.evaluations.sum (Evaluation.work s)

theorem work_update {steps : Nat} {phase : Phase} (live : o.evaluations.get? id = some e)
    (he : o'.evaluations = o.evaluations.insert id { e with steps, phase })
    (less : Evaluation.work s { e with steps, phase } < e.work s) : o'.work s < o.work s := by
  have := Table.sum_insert_of_some (Evaluation.work s) { e with steps, phase } live
  unfold work
  rw [he]
  omega

theorem work_dispatched {job : JobId} {parent : Option Parent} {scope : Scope} {w : Workflow}
    (sent : o.Dispatched job parent scope w o') (fresh : o.evaluations.get? ⟨o.newId⟩ = none) :
    o'.work s ≤ o.work s + 5 := by
  have bound : ∀ e : Evaluation, e.phase = .queued ∨ (∃ r, e.phase = .responded r) →
      e.work s ≤ 5 := by
    rintro e (h | ⟨r, h⟩) <;> unfold Evaluation.work <;> simp only [h] <;> split <;> omega
  cases sent with
  | @sent p now post at_slot listens =>
    have := bound ⟨job, parent, some p, scope, 0, .queued⟩ (.inl rfl)
    have := Table.sum_insert_of_none (Evaluation.work s)
      ⟨job, parent, some p, scope, 0, .queued⟩ fresh
    simp only [work, place]
    omega
  | @refused p now post at_slot stopped =>
    have := bound ⟨job, parent, some p, scope, 0,
      .responded (.failed (.unreachable p.worker))⟩ (.inr ⟨_, rfl⟩)
    have := Table.sum_insert_of_none (Evaluation.work s)
      ⟨job, parent, some p, scope, 0, .responded (.failed (.unreachable p.worker))⟩ fresh
    simp only [work, place]
    omega

/-- A cancelled evaluation that goes on has less left to do, even with one child more. -/
theorem Step.work_advance (h : o.Step (.move (.advance id)) o') (hc : o.Consistent)
    (hn : o.nextId < Uuid.supply) (live : o.evaluations.get? id = some e)
    (inside : s.path <:+ e.scope.path) (cancelled : o.scopes.isCancelled e.scope = true) :
    o'.work s < o.work s := by
  cases h with
  | shift steps live' turn leads later =>
    cases live'.symm.trans live
    refine work_update live rfl ?_
    simp only [Evaluation.work, if_pos inside]
    cases turn with
    | started accepted decoded =>
      cases leads
      simp [accepted]
    | undecoded accepted decoded =>
      cases leads
      simp [accepted]
    | stopped running cancelled =>
      cases leads
      simp [running]
    | interrupted operating cancelled =>
      cases leads
      simp [operating]
    | joined joining placed arrived =>
      cases leads
      simp [joining, placed]
    | places joining waiting => cases leads
    | steps running free => simp [free] at cancelled
    | returned operating free => simp [free] at cancelled
    | failed operating free => simp [free] at cancelled
    | aborted operating free => simp [free] at cancelled
    | asks operating free => simp [free] at cancelled
  | fork steps live' running free forks =>
    cases live'.symm.trans live
    simp [free] at cancelled
  | @place _ _ f w rest stack _ live' joining waiting sent =>
    cases live'.symm.trans live
    have hne : id ≠ ⟨o.newId⟩ := by
      rintro rfl
      cases live.symm.trans (hc.fresh hn)
    have placed := Table.sum_insert_of_some (Evaluation.work s)
      { e with phase := .joining { f with placed := f.placed + 1, waiting := rest } stack } live
    have child := work_dispatched (s := s) sent
      ((Table.get?_insert _ _ _ _).trans ((if_neg hne).trans (hc.fresh hn)))
    simp only [Evaluation.work, if_pos inside, joining, waiting, List.length_cons] at placed
    simp only [work] at child ⊢
    omega

/-- An evaluation that is received has less left to do. -/
theorem Step.work_receive {i : Nat} (h : o.Step (.move (.receive i)) o') (hc : o.Consistent) :
    o'.work s < o.work s := by
  cases h with
  | @receive _ post d rest e at_slot inbox live =>
    have queued := hc.queued_of_mem at_slot (by simp [inbox]) live
    refine work_update live rfl ?_
    simp only [Evaluation.work, queued]
    split <;> omega

/-- A child that is collected leaves less to do. -/
theorem Step.work_collect {parent : Parent} (h : o.Step (.move (.collect id)) o')
    (live : o.evaluations.get? id = some e) (child : e.parent = some parent)
    (inside : s.path <:+ e.scope.path) : o'.work s < o.work s := by
  cases h with
  | collectRoot now live' responded root known =>
    cases live'.symm.trans live
    cases root.symm.trans child
  | @collectChild _ _ r now parent' pe f stack live' responded child' above joining =>
    cases live'.symm.trans live
    have hne : id ≠ parent'.id := by
      rintro rfl
      cases live.symm.trans above
      cases responded.symm.trans joining
    have above' : (o.evaluations.erase id).get? parent'.id = some pe :=
      (Table.get?_erase _ _ _).trans ((if_neg hne).trans above)
    have gone := Table.sum_erase_of_some (Evaluation.work s) live
    have kept := Table.sum_insert_of_some (Evaluation.work s)
      { pe with
        phase := .joining
          { f with
            join := (f.join.receive parent'.index r.outcome).2
            missing := f.missing - 1 } stack } above'
    have same : Evaluation.work s
        { pe with
          phase := .joining
            { f with
              join := (f.join.receive parent'.index r.outcome).2
              missing := f.missing - 1 } stack } = pe.work s := by
      simp only [Evaluation.work, joining]
    have one : e.work s = 1 := by simp only [Evaluation.work, if_pos inside, responded]
    simp only [work]
    omega

/-- What an evaluation has if its children do every one has: whoever waits for a child is nearer to
the root than the child. -/
theorem Forked.descend {P : EvaluationId → Evaluation → Prop} (h : o.Forked)
    (up : ∀ {id e}, o.evaluations.get? id = some e →
      (∀ {i c ce}, o.evaluations.get? c = some ce → ce.parent = some ⟨id, i⟩ → P c ce) → P id e)
    (live : o.evaluations.get? id = some e) : P id e := by
  have depth := Table.le_sum (fun e : Evaluation => e.scope.around.length) live
  induction hk : o.evaluations.sum (fun e => e.scope.around.length) - e.scope.around.length
    using Nat.strongRecOn generalizing id e with
  | ind k ih =>
    refine up live fun {i c ce} live' hparent => ?_
    obtain ⟨pe, f, stack, above, joining, -, -, hscope⟩ := h.above live' hparent
    cases above.symm.trans live
    have deeper : e.scope.around.length < ce.scope.around.length := by
      have hf := congrArg List.length (h.fork_scope live joining)
      have hc := congrArg List.length hscope
      simp only [Scope.path, List.length_cons] at hf hc
      omega
    have depth' := Table.le_sum (fun e : Evaluation => e.scope.around.length) live'
    exact ih _ (by omega) live' depth' rfl

/-- An evaluation stays until its response is collected. -/
theorem Step.stays {ev : Event} (h : o.Step ev o') (hc : o.Consistent) (hn : o.nextId < Uuid.supply)
    (live : o.evaluations.get? id = some e) (kept : ev ≠ .move (.collect id)) :
    ∃ e', o'.evaluations.get? id = some e' ∧ e'.job = e.job ∧ e'.parent = e.parent ∧
      e'.scope = e.scope := by
  have old : ⟨o.newId⟩ ≠ id := by
    rintro rfl
    cases live.symm.trans (hc.fresh hn)
  have updated : ∀ {id' e₁ steps phase}, o.evaluations.get? id' = some e₁ →
      ∃ e', (o.evaluations.insert id' { e₁ with steps, phase }).get? id = some e' ∧
        e'.job = e.job ∧ e'.parent = e.parent ∧ e'.scope = e.scope := by
    intro id' e₁ steps phase live₁
    rw [Table.get?_insert]
    split
    · next hid =>
      subst hid
      cases live₁.symm.trans live
      exact ⟨_, rfl, rfl, rfl, rfl⟩
    · exact ⟨e, live, rfl, rfl, rfl⟩
  cases h with
  | begin thread sent =>
    obtain ⟨p, phase, hget, -⟩ := sent.get?
    exact ⟨e, (hget id).trans ((if_neg old).trans live), rfl, rfl, rfl⟩
  | receive at_slot inbox live' => exact updated live'
  | close at_slot stopped =>
    rw [get?_dropAll, live]
    split
    · exact ⟨_, rfl, rfl, rfl, rfl⟩
    · exact ⟨e, rfl, rfl, rfl, rfl⟩
  | shift steps live' turn leads later => exact updated live'
  | fork steps live' running free forks => exact updated live'
  | place live' joining waiting sent =>
    obtain ⟨p, phase, hget, -⟩ := sent.get?
    rw [hget]
    obtain ⟨e', live'', same⟩ := updated live'
    exact ⟨e', (if_neg old).trans live'', same⟩
  | @collectRoot id' _ r entry now live' responded root known =>
    have hne : id' ≠ id := fun hid => kept (hid ▸ rfl)
    exact ⟨e, (Table.get?_erase _ _ _).trans ((if_neg hne).trans live), rfl, rfl, rfl⟩
  | @collectChild id' _ r now parent pe f stack live' responded child above joining =>
    have hne : id' ≠ id := fun hid => kept (hid ▸ rfl)
    rw [Table.get?_insert]
    split
    · next hid =>
      subst hid
      cases above.symm.trans live
      exact ⟨_, rfl, rfl, rfl, rfl⟩
    · exact ⟨e, (Table.get?_erase _ _ _).trans ((if_neg hne).trans live), rfl, rfl, rfl⟩
  | _ => exact ⟨e, live, rfl, rfl, rfl⟩

/-- Only what has responded is collected. -/
theorem Step.not_collects {ev : Event} (h : o.Step ev o') (live : o.evaluations.get? id = some e)
    (silent : ∀ r, e.phase ≠ .responded r) : ev ≠ .move (.collect id) := by
  rintro rfl
  cases h with
  | collectRoot now live' responded root known =>
    cases live'.symm.trans live
    exact silent _ responded
  | collectChild now live' responded child above joining =>
    cases live'.symm.trans live
    exact silent _ responded

end Outline

namespace Cluster

variable {c : Cluster} {s : Scope} {id : EvaluationId} {e : Evaluation}

theorem exists_collect {r : Response} (live : c.evaluations.get? id = some e)
    (responded : e.phase = .responded r) : ∃ c', c.step (.collect id) = some c' := by
  simp only [step, collect, live, Option.bind_eq_bind, Option.bind_some, responded]
  split
  · exact ⟨_, rfl⟩
  · exact ⟨_, rfl⟩

theorem exists_receive (hc : c.outline.Consistent) {i : Nat} (queued : c.outline.QueuedAt id i) :
    ∃ c', c.step (.receive i) = some c' := by
  have hlt : i < c.outline.posts.length := by
    obtain ⟨e, p, live, -, hp, rfl⟩ := queued
    obtain ⟨p', hp', hslot⟩ := hc.placed live
    cases hp.symm.trans hp'
    rw [hc.posted]
    exact hslot
  have hpost := List.getElem?_eq_getElem hlt
  have hin := (hc.queued hpost).1 queued
  obtain ⟨worker, hw, hworker⟩ : ∃ worker, c.workers[i]? = some worker ∧
      c.outline.posts[i] = worker.post := by
    have hlt' : i < c.workers.length := by simpa [outline] using hlt
    exact ⟨c.workers[i], List.getElem?_eq_getElem hlt', by simp [outline]⟩
  rw [hworker] at hin hpost
  cases hl : worker.listening with
  | false =>
    obtain ⟨empty, -⟩ := hc.stopped hpost hl
    simp [empty] at hin
  | true =>
    cases hi : worker.inbox with
    | nil => simp [Worker.post, hi] at hin
    | cons d rest =>
      simp only [step, receive, hw, Option.bind_eq_bind, Option.bind_some, hl, hi, Bool.not_true,
        Bool.false_eq_true, if_false]
      split
      · exact ⟨_, rfl⟩
      · exact ⟨_, rfl⟩

/-- A cancelled evaluation goes on by itself, but for waiting for a worker or for children. -/
theorem exists_advance (live : c.evaluations.get? id = some e)
    (cancelled : c.scopes.isCancelled e.scope = true) (received : e.phase ≠ .queued)
    (silent : ∀ r, e.phase ≠ .responded r)
    (complete : ∀ f stack, e.phase = .joining f stack → f.waiting = [] → f.missing = 0) :
    ∃ c', c.step (.advance id) = some c' := by
  have turned : ∃ t, turn c.scopes e = some t := by
    cases hp : e.phase with
    | queued => exact absurd hp received
    | responded r => exact absurd hp (silent r)
    | accepted payload =>
      simp only [turn, hp]
      split <;> exact ⟨_, rfl⟩
    | running m => simp [turn, hp, cancelled]
    | operating p due stack => simp [turn, hp, cancelled]
    | joining f stack =>
      cases hw : f.waiting with
      | nil => simp [turn, hp, hw, complete f stack hp hw]
      | cons w rest => simp [turn, hp, hw]
  obtain ⟨t, ht⟩ := turned
  have idle := (follows_of_turn ht).idle cancelled
  simp only [step, advance, live, ht, Option.bind_eq_bind, Option.bind_some]
  cases t with
  | step m => exact absurd rfl (idle.1 m)
  | ask r next due stack => exact absurd rfl (idle.2 r next due stack)
  | place w rest f stack => exact ⟨_, rfl⟩
  | resume stack o => exact ⟨_, rfl⟩
  | start w => exact ⟨_, rfl⟩
  | reply o => exact ⟨_, rfl⟩

/-- As long as an evaluation in a cancelled scope has not responded, some step that serves its job
leaves less to do there. -/
theorem exists_move (hc : c.outline.Consistent) (hn : c.nextId < Uuid.supply)
    (cancelled : c.scopes.isCancelled s = true) (live : c.evaluations.get? id = some e)
    (inside : s.path <:+ e.scope.path) (silent : ∀ r, e.phase ≠ .responded r) :
    ∃ m c', c.outline.Serves e.job m ∧ c.step m = some c' ∧
      c'.outline.work s < c.outline.work s := by
  refine hc.descend (P := fun _ e => s.path <:+ e.scope.path → (∀ r, e.phase ≠ .responded r) →
    ∃ m c', c.outline.Serves e.job m ∧ c.step m = some c' ∧ c'.outline.work s < c.outline.work s)
    (fun {id e} live below inside silent => ?_) live inside silent
  have cancelled' := ScopeTree.isCancelled_of_suffix inside cancelled
  by_cases received : e.phase = .queued
  · obtain ⟨p, hp, -⟩ := hc.placed live
    have queued : c.outline.QueuedAt id p.slot := ⟨e, p, live, received, hp, rfl⟩
    obtain ⟨c', next⟩ := exists_receive hc queued
    exact ⟨.receive p.slot, c', ⟨id, queued, e, live, rfl⟩, next,
      (step_of_receive hc next).work_receive hc⟩
  by_cases complete : ∀ f stack, e.phase = .joining f stack → f.waiting = [] → f.missing = 0
  · obtain ⟨c', next⟩ := exists_advance live cancelled' received silent complete
    exact ⟨.advance id, c', ⟨e, live, rfl⟩, next,
      (step_of_advance hc next).work_advance hc hn live inside cancelled'⟩
  · simp only [not_forall] at complete
    obtain ⟨f, stack, joining, placed, arrived⟩ := complete
    obtain ⟨i, child, ce, live', hparent⟩ := hc.exists_child live joining placed arrived
    obtain ⟨pe, f', stack', above, joining', same, -, hscope⟩ := hc.above live' hparent
    cases above.symm.trans live
    cases joining'.symm.trans joining
    have hpath : ce.scope.path = ce.scope.number :: f.scope.number :: e.scope.path := by
      rw [Scope.path, hscope, Scope.path, hc.fork_scope live joining]
    have inside' : s.path <:+ ce.scope.path := by
      rw [hpath]
      exact (inside.trans (List.suffix_cons _ _)).trans (List.suffix_cons _ _)
    by_cases responded : ∃ r, ce.phase = .responded r
    · obtain ⟨r, responded⟩ := responded
      obtain ⟨c', next⟩ := exists_collect live' responded
      exact ⟨.collect child, c', ⟨ce, live', same.symm⟩, next,
        (step_of_collect hc next).work_collect live' hparent inside'⟩
    · rw [same]
      exact below live' hparent inside' fun r h => responded ⟨r, h⟩

/-- An evaluation in a cancelled scope can always come to its end by steps of the engine alone. -/
theorem exists_drained (hc : c.outline.Consistent) (hn : c.nextId + c.outline.work s < Uuid.supply)
    (cancelled : c.scopes.isCancelled s = true) (live : c.evaluations.get? id = some e)
    (inside : s.path <:+ e.scope.path) :
    ∃ c', Run (fun _ ev => ∃ m, ev = .move m) c c' ∧ c'.nextId < Uuid.supply ∧
      ∃ e' r, c'.evaluations.get? id = some e' ∧ e'.scope = e.scope ∧ e'.phase = .responded r := by
  induction hk : c.outline.work s using Nat.strongRecOn generalizing c e with
  | ind k ih =>
    by_cases silent : ∀ r, e.phase ≠ .responded r
    · obtain ⟨m, c₁, -, next, less⟩ := exists_move hc (by omega) cancelled live inside silent
      have step : c.outline.Step (.move m) c₁.outline := step_of_after hc next
      have ids : c.outline.nextId < Uuid.supply := Nat.lt_of_le_of_lt (Nat.le_add_right _ _) hn
      obtain ⟨e₁, live₁, -, -, hscope⟩ :=
        step.stays hc ids live (step.not_collects live silent)
      have hid : c₁.nextId ≤ c.nextId + 1 := step.nextId_le_succ
      obtain ⟨c', run, hn', e', r, live', hscope', responded⟩ := ih _ (hk ▸ less)
        (hc.step ids step) (by omega) (step.isCancelled cancelled) live₁ (hscope ▸ inside)
        rfl
      refine ⟨c', .trans (.step (.refl _) ⟨m, rfl⟩ next) run, hn', e', r, live', ?_, responded⟩
      exact hscope'.trans hscope
    · simp only [not_forall, not_not] at silent
      obtain ⟨r, responded⟩ := silent
      exact ⟨c, .refl _, by omega, e, r, live, rfl, responded⟩

/-- Cancellation comes first. In any state after a scope was cancelled, the evaluations inside step
no machine and make no request. Those that have responded since are cancelled, as far as they could
be decoded and a worker accepted them before the engine was shut down, and those that have not can
come to their end by themselves. -/
theorem cancellation_dominates {registry : Registry} {config : EngineConfig} {backend : Backend}
    {sink : LogSink} {c₀ c : Cluster} {s : Scope}
    (begun : Reaches (start registry config backend sink) c₀)
    (cancelled : c₀.scopes.isCancelled s = true) (run : Reaches c₀ c)
    (ids : c.nextId < Uuid.supply) :
    ∀ id e, c.evaluations.get? id = some e → s.path <:+ e.scope.path →
      (∀ t, turn c.scopes e = some t →
        (∀ m, t ≠ .step m) ∧ ∀ r next due stack, t ≠ .ask r next due stack) ∧
      (∀ r, e.phase = .responded r → Settled c₀ c id r) ∧
      (c.nextId + c.outline.work s < Uuid.supply →
        ∃ c', Run (fun _ ev => ∃ m, ev = .move m) c c' ∧
          ∃ e' r, c'.evaluations.get? id = some e' ∧ e'.phase = .responded r ∧
            Settled c₀ c' id r) := by
  have ids₀ := Nat.lt_of_le_of_lt run.nextId_le ids
  have consistent₀ := begun.consistent (consistent_start registry config backend sink) ids₀
  have consistent := run.consistent consistent₀ ids
  have still := run.isCancelled consistent₀ ids cancelled
  intro id e live inside
  refine ⟨?_, ?_, ?_⟩
  · intro t ht
    exact (follows_of_turn ht).idle (ScopeTree.isCancelled_of_suffix inside still)
  · intro r responded
    exact run.settled consistent₀ ids cancelled live inside responded
  · intro enough
    obtain ⟨c', drains, ids', e', r, live', hscope, responded⟩ :=
      exists_drained consistent enough still live inside
    exact ⟨c', drains, e', r, live', responded, (run.trans drains.reaches).settled consistent₀ ids'
      cancelled live' (hscope ▸ inside) responded⟩

/-- A job is cancelled while its evaluation waits for the only worker. -/
theorem cancellation_dominates_queued :
    ∃ c id e, Reaches (start {} { workers := 1 } (.memory .empty) (.memory .empty)) c ∧
      c.evaluations.get? id = some e ∧ e.phase = .queued ∧ c.scopes.isCancelled e.scope = true ∧
      ∃ c' e' r, Reaches c c' ∧ c'.evaluations.get? id = some e' ∧ e'.phase = .responded r ∧
        Settled c c' id r := by
  obtain ⟨c, e, begun, live, queued, cancelled, ids, enough⟩ : ∃ c e,
      Reaches (start {} { workers := 1 } (.memory .empty) (.memory .empty)) c ∧
      c.evaluations.get? ⟨Uuid.fresh 1⟩ = some e ∧ e.phase = .queued ∧
      c.scopes.isCancelled e.scope = true ∧ c.nextId < Uuid.supply ∧
      c.nextId + c.outline.work e.scope < Uuid.supply := by
    have submitted : Reaches _ _ := .step (.refl _) trivial
      (rfl : (start {} { workers := 1 } (.memory .empty) (.memory .empty)).after
        (.submit "job" (.ret .null)) = _)
    have placed : Reaches _ _ := .step submitted trivial
      (rfl : Cluster.after _ (.move (.begin ⟨Uuid.fresh 0⟩)) = some _)
    exact ⟨_, _, .step placed trivial (rfl : Cluster.after _ (.cancel ⟨Uuid.fresh 0⟩) = some _),
      rfl, rfl, rfl, by decide, by decide⟩
  obtain ⟨-, -, drains⟩ := cancellation_dominates begun cancelled (.refl c) ids _ e live
    (List.suffix_refl _)
  obtain ⟨c', run, e', r, live', responded, settled⟩ := drains enough
  exact ⟨c, _, e, begun, live, queued, cancelled, c', e', r, run.reaches, live', responded, settled⟩

/-- A job that is cancelled before its evaluation is placed fails all the same when no worker is
left to accept it. -/
theorem cancelled_unreachable :
    ∃ c₀ c job scope err,
      Reaches (start {} { workers := 1 } (.memory .empty) (.memory .empty)) c₀ ∧
      c₀.threads.get? job = some (.submitted (.ret .null) scope) ∧
      c₀.scopes.isCancelled scope = true ∧
      Workflow.decode (Workflow.ret .null).encode = .ok (.ret .null) ∧
      Reaches c₀ c ∧ c.outcome? job = some (.error (.error err)) := by
  have stopped : Reaches _ _ := .step (.refl _) trivial
    (rfl : (start {} { workers := 1 } (.memory .empty) (.memory .empty)).after .shutdown = some _)
  have closed : Reaches _ _ := .step stopped trivial
    (rfl : Cluster.after _ (.move (.close 0)) = some _)
  have submitted : Reaches _ _ := .step closed trivial
    (rfl : Cluster.after _ (.submit "job" (.ret .null)) = some _)
  have cancelled : Reaches _ _ := .step submitted trivial
    (rfl : Cluster.after _ (.cancel ⟨Uuid.fresh 0⟩) = some _)
  exact ⟨_, _, ⟨Uuid.fresh 0⟩, _, _, cancelled, rfl, rfl, by cbv, .step (.step (.refl _) trivial
    (rfl : Cluster.after _ (.move (.begin ⟨Uuid.fresh 0⟩)) = some _)) trivial
    (rfl : Cluster.after _ (.move (.collect ⟨Uuid.fresh 1⟩)) = some _), rfl⟩

end Cluster

end WorkflowEngine
