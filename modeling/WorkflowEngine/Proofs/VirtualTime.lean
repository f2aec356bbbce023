import WorkflowEngine.Proofs.Timetable
/-!
Results and completion times of jobs do not depend on the engine. A job ends as its workflow does
by itself, and as long after it was submitted, on however many workers, in whatever order and
beside whatever other jobs. Time passes while nothing else can happen.
-/
set_option autoImplicit false

namespace WorkflowEngine

namespace Outline

/-- What an event does by a clock: turns that wait for a moment, and the ends of jobs. -/
structure ByClock (o : Outline) (now : Nat) (ev : Event) (o' : Outline) : Prop where
  turns : ∀ {id e e'} {t : Cluster.Turn}, ev = .move (.advance id) → o.evaluations.get? id = some e →
    t.Follows o.scopes e → o'.evaluations.get? id = some e' → t.Clocked now e'.phase
  ends : ∀ {id e entry}, ev = .move (.collect id) → o.evaluations.get? id = some e →
    e.parent = none → o'.jobs.get? e.job = some entry →
    entry.job.completedAt = some (.ofMillis now)

variable {o o' : Outline} {r : Registry} {job : JobId} {goal : Plan} {now : Nat}
  {plan : EvaluationId → Plan} {left : EvaluationId → Nat} {total : Nat} {role : Nat → ScopeRole}

/-- Whatever happens while no time passes keeps the plans, if nobody cancels the job or shuts the
engine down. What the job does leaves it less to do. -/
theorem Timed.step {ev : Event} (h : o.Timed r job goal now plan left total)
    (registry : o.registry = r) (hr : o.Numbered (some job) role) (hc : o.Consistent)
    (hn : o.nextId < Uuid.supply) (spares : ev.Spares (some job))
    (during : ∀ time, ev ≠ .elapse time) (clocked : o.ByClock now ev o') (st : o.Step ev o') :
    o'.Pays r job goal now total (∃ m, ev = .move m ∧ o.Owns job m) := by
  have fresh := hc.fresh hn
  have stays := hr.free_engine
  have grown := st.mem_cancelled
  cases st with
  | elapse => exact absurd rfl (during _)
  | arrange => exact h.pays (by rintro ⟨m, ⟨⟩, -⟩)
  | submit now =>
    obtain ⟨t, ht⟩ := h.thread
    have hne : ⟨o.newId⟩ ≠ job := by
      rintro rfl
      exact (hc.thread_known ht).ne_newId hn rfl
    have same : ∀ {α : Type} (table : Table JobId α) (a : α),
        (table.insert ⟨o.newId⟩ a).get? job = table.get? job := fun table a =>
      (Table.get?_insert table _ _ a).trans (if_neg hne)
    refine Timed.pays (h.frame rfl (h.toScheduled.frame rfl (.of_eq rfl) grown (same _ _)
      fun known => ?_) (same _ _) grown) (by rintro ⟨m, ⟨⟩, -⟩)
    exact (same _ _).symm.trans known
  | cancel known running =>
    exact Timed.pays (h.frame rfl (h.toScheduled.frame rfl (.of_eq rfl) grown rfl
      fun known => known) rfl grown) (by rintro ⟨m, ⟨⟩, -⟩)
  | forget known ended =>
    refine Timed.pays (h.frame rfl (h.toScheduled.frame rfl (.of_eq rfl) grown rfl
      fun known => ?_) rfl grown) (by rintro ⟨m, ⟨⟩, -⟩)
    rw [Table.get?_erase] at known
    split at known
    · cases known
    · exact known
  | shutdown => cases spares
  | begin thread sent =>
    refine Pays.mono (h.begin hc fresh stays thread sent) ?_
    rintro ⟨m, ⟨⟩, owned⟩
    exact owned
  | @receive i post d rest e at_slot inbox live =>
    refine Pays.mono (h.receive hc at_slot inbox live rfl rfl rfl rfl rfl) ?_
    rintro ⟨m, ⟨⟩, post', d', rest', at_slot', inbox', owned⟩
    cases at_slot'.symm.trans at_slot
    cases inbox'.symm.trans inbox
    exact (owned_of_live live).1 owned
  | close at_slot stopped => exact absurd (stopped.symm.trans stays) (by simp)
  | @shift id e t steps n phase live turn leads later =>
    have here : t.Clocked now phase :=
      clocked.turns rfl live turn ((Table.get?_insert _ _ _ _).trans (if_pos rfl))
    refine Pays.mono (h.update hc.toThreaded live rfl
      (h.toScheduled.frame rfl (.update live rfl) grown rfl fun known => known) rfl grown
      (fun _ cancelled => Phase.toDrain_turn cancelled turn leads)
      fun own free => (h.onTime live own free).turn registry free turn leads here
        (hc.childless_of_turn live turn leads)) ?_
    rintro ⟨m, ⟨⟩, owned⟩
    exact (owned_of_live live).1 owned
  | @fork id e m kind first rest stack steps live running free forks =>
    have childless := hc.childless live (by simp [running])
    refine Pays.mono (h.update hc.toThreaded live rfl
      (h.toScheduled.frame rfl (.update live rfl) grown rfl fun known => known) rfl grown
      (fun _ cancelled => absurd cancelled (by simp [free]))
      fun own _ => (running ▸ h.onTime live own free).fork (registry ▸ forks) childless
        (o.scopes.child e.scope).1) ?_
    rintro ⟨m, ⟨⟩, owned⟩
    exact (owned_of_live live).1 owned
  | place live joining waiting sent =>
    refine Pays.mono (h.place hc fresh stays live joining waiting sent) ?_
    rintro ⟨m, ⟨⟩, owned⟩
    exact (owned_of_live live).1 owned
  | collectRoot now live responded root known =>
    refine Pays.mono (h.collectRoot hc hr live responded root rfl rfl rfl rfl
      (fun other => (Table.get?_insert _ _ _ _).trans (if_neg other))
      fun known => clocked.ends rfl live root known) ?_
    rintro ⟨m, ⟨⟩, owned⟩
    exact (owned_of_live live).1 owned
  | collectChild now live responded child above joining =>
    refine Pays.mono (h.collectChild hc hr live responded child above joining rfl rfl rfl rfl grown
      fun stops => ?_) ?_
    · rw [if_pos stops]
      exact ScopeTree.mem_cancel.2 (.inl rfl)
    · rintro ⟨m, ⟨⟩, owned⟩
      exact (owned_of_live live).1 owned

end Outline

namespace Cluster

/-- Whether an evaluation of a job waits for a moment to come, but for none after a limit. -/
def Awaits (c : Cluster) (job : JobId) (limit : Nat) : Prop :=
  ∃ id due, c.outline.Owned job id ∧ c.WaitsFor id due ∧ c.now < due ∧ due ≤ limit

theorem Awaits.mono {c : Cluster} {job : JobId} {limit limit' : Nat} (h : c.Awaits job limit)
    (hl : limit ≤ limit') : c.Awaits job limit' := by
  obtain ⟨id, due, owned, waits, later, le⟩ := h
  exact ⟨id, due, owned, waits, later, le.trans hl⟩

/-- What happens in time: nobody cancels the job or shuts the engine down, and time passes only
while nothing else can happen, and not beyond a moment that an evaluation waits for. -/
structure InTime (c : Cluster) (job : JobId) (ev : Event) : Prop where
  spares : ev.Spares (some job)
  waits : ∀ {time}, ev = .elapse time → c.Rests ∧ ∀ {id due}, c.WaitsFor id due → time ≤ due

/-- A job has ended at a moment. Its record tells when, until it is forgotten. -/
structure EndedAt (c : Cluster) (job : JobId) (o : Outcome) (time : Nat) : Prop where
  outcome : c.outcome? job = some o
  past : time ≤ c.now
  completed : ∀ {entry}, c.jobs.get? job = some entry →
    entry.job.completedAt = some (.ofMillis time)

/-- A run in time, with the number of moves of the job itself. -/
inductive Paced (job : JobId) (a : Cluster) : Nat → Cluster → Prop
  | refl : Paced job a 0 a
  | own {n : Nat} {b c : Cluster} {m : Move} (run : Paced job a n b)
      (owns : b.outline.Owns job m) (next : b.step m = some c) : Paced job a (n + 1) c
  | other {n : Nat} {b c : Cluster} {ev : Event} (run : Paced job a n b)
      (may : b.InTime job ev) (foreign : ∀ m, ev = .move m → ¬ b.outline.Owns job m)
      (next : b.after ev = some c) : Paced job a n c

end Cluster

namespace Outline

variable {c c' : Cluster} {r : Registry} {job : JobId} {goal : Plan}
  {plan : EvaluationId → Plan} {left : EvaluationId → Nat} {total : Nat} {role : Nat → ScopeRole}

/-- If nothing gets the job on, then below each of its evaluations one waits for a moment that is
not after the end of the plan. -/
theorem Timed.awaits (h : c.outline.Timed r job goal c.now plan left total)
    (rest : c.Pauses job) (hc : c.outline.Consistent) (hn : c.nextId < Uuid.supply)
    {id : EvaluationId} {e : Evaluation} (live : c.evaluations.get? id = some e)
    (own : e.job = job) : c.Awaits job (plan id).time := by
  refine hc.descend (P := fun id e => e.job = job → c.Awaits job (plan id).time)
    (fun {id e} live below own => ?_) live own
  have idle := rest.idles hc hn live own
  have on := h.onTime live own (rest.free hc hn live own)
  generalize hp : e.phase = phase at idle on
  cases idle with
  | pausing later => exact ⟨id, _, ⟨e, live, own⟩, ⟨e, _, _, live, hp⟩, later, on.due_le⟩
  | joining placed missing =>
    obtain ⟨waits, unstopped⟩ := rest.fork hc hn live own hp
    obtain ⟨i, child, ⟨ce, live', hparent⟩, hle⟩ := on.exists_child placed unstopped waits
    obtain ⟨pe, -, -, above, -, same, -⟩ := hc.above live' hparent
    cases above.symm.trans live
    exact (below live' hparent (same.symm.trans own)).mono hle

/-- While time passes up to the next moment the plans stay as they are. -/
theorem Timed.elapse {time : Nat} (h : c.outline.Timed r job goal c.now plan left total)
    (rest : c.Rests) (hc : c.outline.Consistent) (hn : c.nextId < Uuid.supply)
    (soon : ∀ {id due}, c.WaitsFor id due → time ≤ due) :
    c.outline.Timed r job goal (max c.now time) plan left total where
  thread := h.thread
  mail := h.mail
  root := h.root
  ended := fun thread => by
    obtain ⟨result, past, completed⟩ := h.ended thread
    exact ⟨result, past.trans (Nat.le_max_left _ _), completed⟩
  submitted := fun thread => absurd thread ((rest.pauses job).begun _ _)
  toDrain := h.toDrain
  onTime := by
    intro id e live own free
    have pauses := rest.pauses job
    refine (h.onTime live own free).elapse (pauses.idles hc hn live own) (Nat.le_max_left _ _)
      (fun operating => ?_) (fun joining => (pauses.fork hc hn live own joining).2)
      (fun joining => (pauses.fork hc hn live own joining).1) fun {i child} hchild => ?_
    · exact Nat.max_le.2 ⟨(pauses.later hc hn live own operating).le,
        soon ⟨e, _, _, live, operating⟩⟩
    · obtain ⟨ce, live', hparent⟩ := hchild
      obtain ⟨pe, -, -, above, -, same, -⟩ := hc.above live' hparent
      cases above.symm.trans live
      obtain ⟨id', due, -, waits, later, le⟩ := h.awaits pauses hc hn live' (same.symm.trans own)
      exact (Nat.max_le.2 ⟨later.le, soon waits⟩).trans le
  affords := h.affords

end Outline

namespace Cluster

variable {a b c c' : Cluster} {r : Registry} {job : JobId} {goal : Plan} {n total : Nat}

theorem byClock_of_after {ev : Event} (h : c.after ev = some c') :
    c.outline.ByClock c.now ev c'.outline where
  turns := by
    rintro id e e' t rfl live follows live'
    exact advance_clocked live (turn_of_follows follows) h live'
  ends := by
    rintro id e entry rfl live root known
    exact collect_completedAt live root h known

/-- A job of which the engine keeps the plans, and all that this rests on. -/
structure OnCourse (c : Cluster) (r : Registry) (job : JobId) (goal : Plan) (total : Nat) :
    Prop where
  consistent : c.outline.Consistent
  registry : c.registry = r
  numbered : ∃ role, c.outline.Numbered (some job) role
  attended : c.outline.Attended
  timed : ∃ plan left, c.outline.Timed r job goal c.now plan left total

/-- What happens in time keeps a job on course, and what the job does leaves it less to do. -/
theorem OnCourse.after {ev : Event} (h : c.OnCourse r job goal total) (ids : c.nextId < Uuid.supply)
    (may : c.InTime job ev) (next : c.after ev = some c') :
    ∃ total' ≤ total, c'.OnCourse r job goal total' ∧
      ∀ m, ev = .move m → c.outline.Owns job m → total' < total := by
  obtain ⟨role, numbered⟩ := h.numbered
  obtain ⟨plan, left, timed⟩ := h.timed
  have s := step_of_after h.consistent next
  have keeps : ∀ {total'}, (∃ plan left, c'.outline.Timed r job goal c'.now plan left total') →
      c'.OnCourse r job goal total' := fun timed' =>
    { consistent := h.consistent.step ids s
      registry := s.registry.trans h.registry
      numbered := numbered.step s may.spares
      attended := h.attended.step h.consistent ids s
      timed := timed' }
  by_cases elapses : ∃ time, ev = .elapse time
  · obtain ⟨time, rfl⟩ := elapses
    obtain ⟨rest, soon⟩ := may.waits rfl
    cases next
    refine ⟨total, Nat.le_refl total, keeps ⟨plan, left, ?_⟩, by rintro m ⟨⟩⟩
    rw [outline_elapseTo, now_elapseTo]
    exact timed.elapse rest h.consistent ids soon
  · have during : ∀ time, ev ≠ .elapse time := fun time hev => elapses ⟨time, hev⟩
    have still : c'.now = c.now := by
      obtain same | ⟨time, hev, -⟩ := now_after next
      · exact same
      · exact absurd hev (during time)
    obtain ⟨plan', left', total', timed', within, less⟩ := timed.step h.registry numbered
      h.consistent ids may.spares during (byClock_of_after next) s
    exact ⟨total', within, keeps ⟨plan', left', still ▸ timed'⟩,
      fun m hm owns => less ⟨m, hm, owns⟩⟩

theorem inTime_move (c : Cluster) (job : JobId) (m : Move) : c.InTime job (.move m) where
  spares := show Event.Spares (some job) (.move m) from trivial
  waits := by rintro time ⟨⟩

theorem Paced.nextId_le (run : Paced job a n b) : a.nextId ≤ b.nextId := by
  induction run with
  | refl => exact Nat.le_refl _
  | own _ _ next ih => exact ih.trans (nextId_step next)
  | other _ _ _ next ih => exact ih.trans (nextId_after next)

/-- A run in time keeps a job on course, and its moves are paid for. -/
theorem Paced.onCourse (run : Paced job a n b) (h : a.OnCourse r job goal total)
    (ids : b.nextId < Uuid.supply) : ∃ total', n + total' ≤ total ∧ b.OnCourse r job goal total' := by
  induction run with
  | refl => exact ⟨total, by omega, h⟩
  | @own n b c m _ owns next ih =>
    have ids' := Nat.lt_of_le_of_lt (nextId_step next) ids
    obtain ⟨before, paid, hb⟩ := ih ids'
    obtain ⟨total', -, hc, less⟩ := hb.after ids' (inTime_move b job m) next
    exact ⟨total', by have := less m rfl owns; omega, hc⟩
  | other _ may _ next ih =>
    have ids' := Nat.lt_of_le_of_lt (nextId_after next) ids
    obtain ⟨before, paid, hb⟩ := ih ids'
    obtain ⟨total', within, hc, -⟩ := hb.after ids' may next
    exact ⟨total', by omega, hc⟩

/-- A job on course that ends has come to its goal. -/
theorem OnCourse.ended (h : c.OnCourse r job goal total) {o : Outcome}
    (ended : c.outcome? job = some o) :
    c.EndedAt job (goal.result.mapError .error) goal.time := by
  obtain ⟨plan, left, timed⟩ := h.timed
  have here := ended
  unfold outcome? at ended
  split at ended
  · next outcome thread =>
    cases ended
    obtain ⟨rfl, past, completed⟩ := timed.ended thread
    exact ⟨here, past, completed⟩
  · cases ended

/-- A job on course that has not ended is not late, and goes on or waits for a moment. -/
theorem OnCourse.goes_on (h : c.OnCourse r job goal total) (ids : c.nextId < Uuid.supply)
    (running : c.outcome? job = none) :
    c.now ≤ goal.time ∧ (c.Pauses job → c.Awaits job goal.time) := by
  obtain ⟨plan, left, timed⟩ := h.timed
  obtain ⟨role, numbered⟩ := h.numbered
  obtain ⟨t, thread⟩ := timed.thread
  cases t with
  | submitted w scope =>
    obtain ⟨-, t, n, -, time, -⟩ := timed.submitted thread
    exact ⟨by omega, fun rest => absurd thread (rest.begun w scope)⟩
  | waiting =>
    obtain ⟨id, e, live, own, root⟩ := h.attended job thread
    have free := numbered.free_root h.consistent.toThreaded live root own
    have goal_eq := timed.root live own root
    exact ⟨goal_eq ▸ (timed.onTime live own free).le_time,
      fun rest => goal_eq ▸ timed.awaits rest h.consistent ids live own⟩
  | ended o =>
    have thread' : c.threads.get? job = some (.ended o) := thread
    simp [outcome?, thread'] at running

theorem attended_start (registry : Registry) (config : EngineConfig) (backend : Backend)
    (sink : LogSink) : (start registry config backend sink).outline.Attended := by
  rintro job ⟨⟩

theorem attended_of_reaches {registry : Registry} {config : EngineConfig} {backend : Backend}
    {sink : LogSink} {c : Cluster} (run : Reaches (start registry config backend sink) c)
    (ids : c.nextId < Uuid.supply) : c.outline.Attended :=
  run.invariant (I := fun c => c.outline.Attended) (consistent_start registry config backend sink)
    ids (attended_start registry config backend sink) fun hc hn _ s h => h.step hc hn s

/-- A job is on course when it is submitted. -/
theorem onCourse_submit {registry : Registry} {config : EngineConfig} {backend : Backend}
    {sink : LogSink} {c₀ : Cluster} {t : Nat}
    (before : Reaches (start registry config backend sink) c₀) (ids : c₀.nextId < Uuid.supply)
    (serving : c₀.scopes.isCancelled .root = false) (name : String)
    (finishes : Machine.Finishes registry (.start goal.workflow) goal.result t n)
    (time : goal.time = c₀.now + t) :
    (c₀.submit name goal.workflow).2.OnCourse registry (c₀.submit name goal.workflow).1 goal
      (n + 4) := by
  have hstart := consistent_start registry config backend sink
  have consistent := before.consistent hstart ids
  have s := outline_submit c₀ name goal.workflow
  have absent : ∀ {id e}, (c₀.submit name goal.workflow).2.outline.evaluations.get? id = some e →
      e.job ≠ (c₀.submit name goal.workflow).1 := absent_submit consistent ids name goal.workflow
  have thread := thread_submit c₀ name goal.workflow
  have still : (c₀.submit name goal.workflow).2.now = c₀.now := now_wake _ _
  refine
    { consistent := consistent.step ids s
      registry := s.registry.trans (before.registry hstart ids)
      numbered := numbered_submit before ids serving name _
      attended := (attended_of_reaches before ids).step consistent ids s
      timed := ⟨fun _ => goal, fun _ => 0, ?_⟩ }
  exact
    { thread := ⟨_, thread⟩
      mail := fun _ _ live own => absurd own (absent live)
      root := fun _ _ _ => rfl
      ended := fun ended => by cases thread.symm.trans ended
      submitted := fun submitted => by
        cases thread.symm.trans submitted
        exact ⟨rfl, t, n, finishes, still ▸ time, Nat.le_refl _⟩
      toDrain := fun live own => absurd own (absent live)
      onTime := fun live own => absurd own (absent live)
      affords := ⟨∅, fun id => by
        simp only [Finset.notMem_empty, false_iff]
        rintro ⟨e, live, own⟩
        exact absent live own, by simp⟩ }

/-- What an engine does by itself. -/
def ByItself (c : Cluster) (job : JobId) (ev : Event) : Prop :=
  c.InTime job ev ∧ ((∃ m, ev = .move m) ∨ ∃ time, ev = .elapse time)

/-- Whether the engine, left to itself, always comes to rest: nothing goes on forever without
waiting for a moment. -/
def Calms (c : Cluster) (job : JobId) : Prop :=
  ∀ b, Run (fun b ev => b.ByItself job ev) c b → b.nextId < Uuid.supply →
    ∃ b', Run (fun _ ev => ∃ m, ev = .move m) b b' ∧ b'.nextId < Uuid.supply ∧ b'.Rests

theorem Run.paced (run : Run (fun b ev => b.InTime job ev) a b) : ∃ n, Paced job a n b := by
  induction run with
  | refl => exact ⟨0, .refl⟩
  | @step b c ev _ may next ih =>
    obtain ⟨n, paced⟩ := ih
    by_cases own : ∃ m, ev = .move m ∧ b.outline.Owns job m
    · obtain ⟨m, rfl, owns⟩ := own
      exact ⟨n + 1, paced.own owns next⟩
    · exact ⟨n, paced.other may (fun m hm owns => own ⟨m, hm, owns⟩) next⟩

theorem Run.now_le {P : Cluster → Event → Prop} (run : Run P a b) : a.now ≤ b.now := by
  induction run with
  | refl => exact Nat.le_refl _
  | step _ _ next ih =>
    obtain same | ⟨time, -, later⟩ := now_after next
    · exact same ▸ ih
    · exact later ▸ ih.trans (Nat.le_max_left _ _)

/-- While a job waits for a moment, an engine at rest gets on to the next one. -/
theorem Rests.exists_elapse (rest : c.Rests) (hc : c.outline.Consistent)
    (hn : c.nextId < Uuid.supply) {limit : Nat} (h : c.Awaits job limit) :
    ∃ time, c.InTime job (.elapse time) ∧ c.now < time ∧ time ≤ limit := by
  classical
  obtain ⟨id, due, -, waits, later, le⟩ := h
  have some_due : ∃ due id, c.WaitsFor id due := ⟨due, id, waits⟩
  obtain ⟨first, hfirst⟩ := Nat.find_spec some_due
  obtain ⟨e, p, stack, live, operating⟩ := hfirst
  refine ⟨Nat.find some_due, ⟨trivial, ?_⟩, (rest.pauses e.job).later hc hn live rfl operating,
    (Nat.find_min' some_due ⟨id, waits⟩).trans le⟩
  rintro time ⟨⟩
  exact ⟨rest, fun {id due} waits => Nat.find_min' some_due ⟨id, waits⟩⟩

/-- A job on course ends if the engine always comes to rest. -/
theorem OnCourse.exists_end (h : c.OnCourse r job goal total) (ids : c.nextId < Uuid.supply)
    (calms : c.Calms job) :
    ∃ c' o, Run (fun b ev => b.ByItself job ev) c c' ∧ c'.nextId < Uuid.supply ∧
      c'.outcome? job = some o := by
  induction hk : goal.time - c.now using Nat.strongRecOn generalizing c total with
  | ind k ih =>
    obtain ⟨b, moves, ids', rest⟩ := calms c (.refl c) ids
    have run : Run (fun b ev => b.ByItself job ev) c b := moves.mono fun b ev hm => by
      obtain ⟨m, rfl⟩ := hm
      exact ⟨inTime_move b job m, .inl ⟨m, rfl⟩⟩
    obtain ⟨n, paced⟩ := Run.paced (run.mono fun _ _ may => may.1)
    obtain ⟨total', -, hb⟩ := paced.onCourse h ids'
    cases ended : b.outcome? job with
    | some o => exact ⟨b, o, run, ids', ended⟩
    | none =>
      obtain ⟨time, may, later, le⟩ :=
        rest.exists_elapse hb.consistent ids' ((hb.goes_on ids' ended).2 (rest.pauses job))
      have next : b.after (.elapse time) = some (b.elapseTo time) := rfl
      have passes : Run (fun b ev => b.ByItself job ev) c (b.elapseTo time) :=
        run.step ⟨may, .inr ⟨time, rfl⟩⟩ next
      have same : (b.elapseTo time).nextId = b.nextId :=
        congrArg Outline.nextId (outline_elapseTo b time)
      obtain ⟨total'', -, hc', -⟩ := hb.after ids' may next
      have before := run.now_le
      have now := now_elapseTo b time
      obtain ⟨c', o, run', ids'', ended'⟩ := ih (goal.time - (b.elapseTo time).now) (by omega) hc'
        (same ▸ ids') (fun d hd => calms d (passes.trans hd)) rfl
      exact ⟨c', o, passes.trans run', ids'', ended'⟩

/-- Results and completion times do not depend on the engine. A job whose workflow by itself takes
some milliseconds to its result comes to that result as long after it was submitted, on however
many workers, in whatever order and beside whatever other jobs, if nobody cancels it or shuts the
engine down. The job makes a bounded number of moves. Until it has ended it is not late, and goes
on or waits for a moment in time. It does end if the engine always comes to rest. -/
theorem outcome_in_time {registry : Registry} {config : EngineConfig} {backend : Backend}
    {sink : LogSink} {w : Workflow} {y : Except WorkflowError Value} {t : Nat}
    (takes : Takes registry w y t) (travels : Travels w y) {c₀ : Cluster}
    (before : Reaches (start registry config backend sink) c₀)
    (serving : c₀.scopes.isCancelled .root = false) (name : String) :
    ∃ most, ∀ {n c}, Paced (c₀.submit name w).1 (c₀.submit name w).2 n c →
      c.nextId < Uuid.supply →
      n ≤ most ∧
      ((∃ o, c.outcome? (c₀.submit name w).1 = some o) →
        c.EndedAt (c₀.submit name w).1 (y.mapError .error) (c₀.now + t)) ∧
      (c.outcome? (c₀.submit name w).1 = none → c.now ≤ c₀.now + t ∧
        (c.Pauses (c₀.submit name w).1 → c.Awaits (c₀.submit name w).1 (c₀.now + t))) ∧
      (c.Calms (c₀.submit name w).1 →
        ∃ c', Run (fun b ev => b.ByItself (c₀.submit name w).1 ev) c c' ∧
          c'.EndedAt (c₀.submit name w).1 (y.mapError .error) (c₀.now + t)) := by
  obtain ⟨most, finishes⟩ := takes.finishes_start
  refine ⟨most + 4, fun {n c} run ids => ?_⟩
  have ids₁ : (c₀.submit name w).2.nextId < Uuid.supply := Nat.lt_of_le_of_lt run.nextId_le ids
  have ids₀ : c₀.nextId < Uuid.supply := Nat.lt_of_le_of_lt
    (nextId_after (rfl : c₀.after (.submit name w) = some (c₀.submit name w).2)) ids₁
  let goal : Plan := ⟨w, y, c₀.now + t, travels⟩
  have begun : (c₀.submit name goal.workflow).2.OnCourse registry
      (c₀.submit name goal.workflow).1 goal (most + 4) :=
    onCourse_submit before ids₀ serving name finishes rfl
  obtain ⟨left, paid, here⟩ := run.onCourse begun ids
  refine ⟨by omega, fun ⟨o, ended⟩ => here.ended ended, here.goes_on ids, fun calms => ?_⟩
  obtain ⟨c', o, run', ids', ended⟩ := here.exists_end ids calms
  obtain ⟨k, paced⟩ := Run.paced (run'.mono fun _ _ may => may.1)
  obtain ⟨left', -, there⟩ := paced.onCourse here ids'
  exact ⟨c', run', there.ended ended⟩

set_option maxRecDepth 4096 in
/-- A job that sleeps for a millisecond ends a millisecond after it was submitted. -/
theorem outcome_in_time_slept :
    ∃ n c, Paced ⟨Uuid.fresh 0⟩
        ((start {} { workers := 1 } (.memory .empty) (.memory .empty)).submit "job"
          (.perform (.sleep 1))).2 n c ∧
      c.EndedAt ⟨Uuid.fresh 0⟩ (.ok .null) 1 := by
  have sent : Workflow.decode (Workflow.perform (.sleep 1)).encode = .ok (.perform (.sleep 1)) := by
    cbv
  have returned : Outcome.decode (Outcome.encode (.ok .null)) = .ok .null := by cbv
  have takes : Takes {} (.perform (.sleep 1)) (.ok .null) 1 := .sleep (by decide)
  have submitted : Reaches (start {} { workers := 1 } (.memory .empty) (.memory .empty)) _ :=
    .single trivial (rfl : Cluster.after _ (.submit "job" (.perform (.sleep 1))) = some _)
  have begun := Run.step (P := fun b ev => b.InTime ⟨Uuid.fresh 0⟩ ev)
    (.refl ((start {} { workers := 1 } (.memory .empty) (.memory .empty)).submit "job"
      (.perform (.sleep 1))).2)
    (inTime_move _ _ _) (rfl : Cluster.after _ (.move (.begin ⟨Uuid.fresh 0⟩)) = some _)
  have received := begun.step (inTime_move _ _ _)
    (rfl : Cluster.after _ (.move (.receive 0)) = some _)
  have started := received.step (inTime_move _ _ _) (after_accepted ⟨Uuid.fresh 1⟩ rfl rfl sent)
  have performs := started.step (inTime_move _ _ _)
    (rfl : Cluster.after _ (.move (.advance ⟨Uuid.fresh 1⟩)) = some _)
  have sleeps := performs.step (inTime_move _ _ _)
    (rfl : Cluster.after _ (.move (.advance ⟨Uuid.fresh 1⟩)) = some _)
  have consistent := (submitted.trans sleeps.reaches).consistent (consistent_start _ _ _ _)
    (by decide)
  have rests := rests_of_idles consistent rfl
    (fun job w s => by
      change Table.find job [_] ≠ _
      unfold Table.find
      split <;> rintro ⟨⟩)
    (fun id e live => by
      change Table.find id [_] = _ at live
      unfold Table.find at live
      split at live
      · cases live
        exact ⟨rfl, .pausing (Nat.lt_succ_self 0)⟩
      · cases live)
  have slept := sleeps.step
    (by
      refine ⟨trivial, fun elapses => ?_⟩
      cases elapses
      refine ⟨rests, fun {id due} waits => ?_⟩
      obtain ⟨e, p, stack, live, operating⟩ := waits
      change Table.find id [_] = _ at live
      unfold Table.find at live
      split at live
      · cases live
        cases operating
        exact Nat.le_refl 1
      · cases live)
    (rfl : Cluster.after _ (.elapse 1) = some _)
  have woken := slept.step (inTime_move _ _ _)
    (rfl : Cluster.after _ (.move (.advance ⟨Uuid.fresh 1⟩)) = some _)
  have answered := woken.step (inTime_move _ _ _)
    (rfl : Cluster.after _ (.move (.advance ⟨Uuid.fresh 1⟩)) = some _)
  have replied := answered.step (inTime_move _ _ _)
    (rfl : Cluster.after _ (.move (.advance ⟨Uuid.fresh 1⟩)) = some _)
  have collected := replied.step (inTime_move _ _ _)
    (rfl : Cluster.after _ (.move (.collect ⟨Uuid.fresh 1⟩)) = some _)
  obtain ⟨n, paced⟩ := collected.paced
  obtain ⟨most, timely⟩ := outcome_in_time takes ⟨sent, returned⟩ (.refl _) rfl "job"
  obtain ⟨-, ends, -⟩ := timely paced (by decide)
  exact ⟨n, _, paced, ends ⟨_, rfl⟩⟩

end Cluster

end WorkflowEngine
