import WorkflowEngine.Proofs.Records
/-!
Structured concurrency: no evaluation ends before those below it, and no job before its
evaluations. The records of evaluations show it at any time.
-/
set_option autoImplicit false

namespace WorkflowEngine

namespace Ledger

theorem childrenOf_prune {l : Ledger} {job : JobId} {id : EvaluationId}
    (others : ∀ r ∈ l.records, r.parent = some id → r.job ≠ job) :
    (l.prune job).2.childrenOf id = l.childrenOf id := by
  simp only [prune, childrenOf, List.filter_filter]
  apply List.filter_congr
  intro r hr
  by_cases hp : r.parent = some id
  · simp [hp, others r hr hp]
  · simp [hp]

end Ledger

namespace Outline

variable {o o' : Outline} {id : EvaluationId}

def Joining (o : Outline) (id : EvaluationId) : Prop :=
  ∃ e f stack, o.evaluations.get? id = some e ∧ e.phase = .joining f stack

/-- The children of a fork that have been placed and those that wait for it are together as many
as the fork has, on top of what there was before; in the end none waits. -/
def Counts (o : Outline) (id : EvaluationId) (total : Nat) : Prop :=
  (∃ e f stack, o.evaluations.get? id = some e ∧ e.phase = .joining f stack ∧
    (o.ledger.childrenOf id).length + f.waiting.length = total) ∨
  (¬ o.Joining id ∧ (o.ledger.childrenOf id).length = total)

theorem Counts.of_joining {e : Evaluation} {f : Fork} {stack : List Frame} {total : Nat}
    (h : o.Counts id total) (live : o.evaluations.get? id = some e)
    (joining : e.phase = .joining f stack) :
    (o.ledger.childrenOf id).length + f.waiting.length = total := by
  rcases h with ⟨e', f', stack', live', joining', count⟩ | ⟨idle, -⟩
  · cases live'.symm.trans live
    cases joining'.symm.trans joining
    exact count
  · exact absurd ⟨e, f, stack, live, joining⟩ idle

theorem Counts.stay {e : Evaluation} {f : Fork} {stack : List Frame} {total : Nat}
    (h : o.Counts id total) (live : o.evaluations.get? id = some e)
    (joining : e.phase = .joining f stack) (live' : o'.evaluations.get? id = some e)
    (same : (o'.ledger.childrenOf id).length = (o.ledger.childrenOf id).length) :
    o'.Counts id total := by
  have count := h.of_joining live joining
  exact .inl ⟨e, f, stack, live', joining, same ▸ count⟩

/-- A turn ends a fork only when all of its children have been placed. -/
theorem Counts.turn {e : Evaluation} {f : Fork} {stack : List Frame} {total steps n : Nat}
    {t : Cluster.Turn} {s : Surroundings} {phase : Phase} (h : o.Counts id total)
    (live : o.evaluations.get? id = some e) (joining : e.phase = .joining f stack)
    (turn : t.Follows o.scopes e) (leads : t.Leads s phase) :
    Counts { o with evaluations := o.evaluations.insert id { e with steps, phase }, nextId := n }
      id total := by
  have count := h.of_joining live joining
  refine .inr ⟨?_, ?_⟩
  · rintro ⟨e', f', stack', live', joining'⟩
    rw [Table.get?_insert, if_pos rfl] at live'
    cases live'
    exact leads.not_joining f' stack' joining'
  · cases turn with
    | joined joining' placed arrived =>
      cases joining'.symm.trans joining
      simpa [placed] using count
    | places joining' waiting => cases leads
    | _ => simp_all

theorem Counts.place {e : Evaluation} {f : Fork} {stack : List Frame} {total : Nat}
    {w : Workflow} {rest : List Workflow} {scopes : ScopeTree} {scope : Scope}
    (h : o.Counts id total) (live : o.evaluations.get? id = some e)
    (joining : e.phase = .joining f stack) (waiting : f.waiting = w :: rest)
    (sent : Dispatched
      { o with
        evaluations := o.evaluations.insert id
          { e with phase := .joining { f with placed := f.placed + 1, waiting := rest } stack }
        scopes }
      e.job (some ⟨id, f.placed⟩) scope w o')
    (new : ⟨o.newId⟩ ≠ id) : o'.Counts id total := by
  have count := h.of_joining live joining
  obtain ⟨p, phase, hget, -⟩ := sent.get?
  obtain ⟨worker, now, hl⟩ := sent.ledger
  have live' := (hget id).trans ((if_neg new).trans
    ((Table.get?_insert _ _ _ _).trans (if_pos rfl)))
  refine .inl ⟨_, _, _, live', rfl, ?_⟩
  rw [hl, Ledger.length_childrenOf_add]
  rw [waiting, List.length_cons] at count
  simp only [Option.map_some, if_pos]
  omega

/-- A job that has ended is forgotten without the children of evaluations that are still there. -/
theorem Recorded.childrenOf_prune (h : o.Recorded) (hc : o.Consistent) {e : Evaluation}
    {job : JobId} {entry : JobEntry} (live : o.evaluations.get? id = some e)
    (known : o.jobs.get? job = some entry) (ended : entry.job.status.isTerminal = true) :
    (o.ledger.prune job).2.childrenOf id = o.ledger.childrenOf id := by
  refine Ledger.childrenOf_prune ?_
  -- The children are of the same job as their parent, which has not ended.
  intro r hmem hparent hjob
  obtain ⟨q, hq, hid, hsame⟩ := h.forest.parent hmem hparent
  obtain ⟨p, hp, hid', hjob', -⟩ := h.record_of_evaluation live
  cases h.forest.eq_of_id hq hp (hid.trans hid'.symm)
  obtain ⟨t, hthread, hiff⟩ := hc.thread_of_job known
  have hwait := hc.thread_of_evaluation live
  rw [← hjob', hsame, hjob, hthread] at hwait
  cases hwait
  exact hiff.1 ended

theorem Counts.step {ev : Event} {total : Nat} (h : o.Counts id total) (hj : o.Joining id)
    (hr : o.Recorded) (hc : o.Consistent) (hn : o.nextId < Uuid.supply) (s : o.Step ev o') :
    o'.Counts id total := by
  obtain ⟨e, f, stack, live, joining⟩ := hj
  have count := h.of_joining live joining
  have new : ⟨o.newId⟩ ≠ id := by
    rintro rfl
    exact (hc.evaluation_known live).ne_newId hn rfl
  have other : ∀ {id' e'}, o.evaluations.get? id' = some e' →
      (∀ f stack, e'.phase ≠ .joining f stack) → id' ≠ id := by
    rintro id' e' live' hne rfl
    cases live'.symm.trans live
    exact hne f stack joining
  have stays : o'.evaluations.get? id = some e →
      (o'.ledger.childrenOf id).length = (o.ledger.childrenOf id).length → o'.Counts id total :=
    h.stay live joining
  cases s with
  | elapse => exact h
  | arrange => exact h
  | submit now => exact stays live rfl
  | cancel => exact stays live rfl
  | forget known ended =>
    exact stays live (congrArg List.length (hr.childrenOf_prune hc live known ended))
  | shutdown => exact stays live rfl
  | begin thread sent =>
    obtain ⟨p, phase, hget, -⟩ := sent.get?
    obtain ⟨worker, now, hl⟩ := sent.ledger
    refine stays ?_ ?_
    · rw [hget]
      exact (if_neg new).trans live
    · rw [hl, Ledger.length_childrenOf_add]
      rfl
  | @receive i post d rest e' at_slot inbox live' =>
    have queued := hc.queued_of_mem at_slot (by simp [inbox]) live'
    refine stays ?_ rfl
    rw [Table.get?_insert, if_neg (other live' (by simp [queued]))]
    exact live
  | @close i post worker at_slot stopped =>
    refine stays ?_ rfl
    rw [get?_dropAll, if_neg]
    · exact live
    · intro hm
      cases (hc.queued_of_mem at_slot hm live).symm.trans joining
  | @shift id' e' t steps n phase live' turn leads later =>
    by_cases hid : id' = id
    · subst hid
      cases live'.symm.trans live
      exact h.turn live joining turn leads
    · refine stays ?_ rfl
      rw [Table.get?_insert, if_neg hid]
      exact live
  | fork steps live' running free forks =>
    refine stays ?_ rfl
    rw [Table.get?_insert, if_neg (other live' (by simp [running]))]
    exact live
  | @place id' e' f' w rest stack' _ live' joining' waiting sent =>
    by_cases hid : id' = id
    · subst hid
      exact h.place live' joining' waiting sent new
    · obtain ⟨p, phase, hget, -⟩ := sent.get?
      obtain ⟨worker, now, hl⟩ := sent.ledger
      refine stays ?_ ?_
      · rw [hget, Table.get?_insert, if_neg hid]
        exact (if_neg new).trans live
      · rw [hl, Ledger.length_childrenOf_add]
        simp [hid]
  | collectRoot now live' responded root known =>
    refine stays ?_ (Ledger.length_childrenOf_finish _ _ _ _)
    rw [Table.get?_erase, if_neg (other live' (by simp [responded]))]
    exact live
  | @collectChild id' e' r now parent pe f' stack' live' responded child above joining' =>
    have hne : id' ≠ id := other live' (by simp [responded])
    by_cases hid : parent.id = id
    · subst hid
      cases above.symm.trans live
      cases joining'.symm.trans joining
      refine .inl ⟨_, _, _, (Table.get?_insert _ _ _ _).trans (if_pos rfl), rfl, ?_⟩
      rw [Ledger.length_childrenOf_finish]
      exact count
    · refine stays ?_ (Ledger.length_childrenOf_finish _ _ _ _)
      rw [Table.get?_insert, if_neg hid, Table.get?_erase, if_neg hne]
      exact live

/-- How a record came about that there is after an event. -/
inductive RecordOrigin (o : Outline) (ev : Event) (r : EvaluationRecord) : Prop
  | kept (held : r ∈ o.ledger.records)
  | placed (fresh : ∀ q ∈ o.ledger.records, q.id ≠ r.id) (running : r.status = .running)
      (opened : r.completedAt = none)
  | collected {q : EvaluationRecord} {e : Evaluation} {response : Response} (now : Timestamp)
      (held : q ∈ o.ledger.records) (running : q.status = .running)
      (live : o.evaluations.get? q.id = some e) (responded : e.phase = .responded response)
      (event : ev = .move (.collect q.id))
      (ended : r = { q with status := response.outcome.status, completedAt := some now })

theorem RecordOrigin.of_add {ev : Event} {new r : EvaluationRecord}
    (fresh : ∀ q ∈ o.ledger.records, q.id ≠ new.id) (running : new.status = .running)
    (opened : new.completedAt = none) (hr : r ∈ (o.ledger.add new).records) :
    o.RecordOrigin ev r := by
  rcases Ledger.mem_add.1 hr with hr | rfl
  · exact .kept hr
  · exact .placed fresh running opened

theorem RecordOrigin.of_finish (h : o.Recorded) {e : Evaluation} {response : Response}
    {now : Timestamp} {r : EvaluationRecord} (live : o.evaluations.get? id = some e)
    (responded : e.phase = .responded response)
    (hr : r ∈ (o.ledger.finish id response.outcome.status now).records) :
    o.RecordOrigin (.move (.collect id)) r := by
  rcases Ledger.mem_finish.1 hr with ⟨hr, -⟩ | ⟨q, hq, rfl, rfl⟩
  · exact .kept hr
  · obtain ⟨q', hq', hid, -, -, running⟩ := h.record_of_evaluation live
    cases h.forest.eq_of_id hq' hq hid
    refine .collected now hq running live responded rfl ?_
    simp [EvaluationRecord.finish, running, Status.isTerminal]

theorem Step.recordOrigin {ev : Event} (s : o.Step ev o') (h : o.Recorded)
    (hn : o.nextId < Uuid.supply) {r : EvaluationRecord} (hr : r ∈ o'.ledger.records) :
    o.RecordOrigin ev r := by
  have fresh : ∀ q ∈ o.ledger.records, q.id ≠ ⟨o.newId⟩ := by
    intro q hq hid
    exact (h.record_known hq).ne_newId hn (congrArg EvaluationId.uuid hid)
  cases s with
  | forget known ended => exact .kept (Ledger.mem_prune.1 hr).1
  | begin thread sent =>
    obtain ⟨worker, now, hl⟩ := sent.ledger
    exact .of_add fresh rfl rfl (hl ▸ hr)
  | place live joining waiting sent =>
    obtain ⟨worker, now, hl⟩ := sent.ledger
    exact .of_add fresh rfl rfl (hl ▸ hr)
  | collectRoot now live responded root known => exact .of_finish h live responded hr
  | collectChild now live responded child above joining => exact .of_finish h live responded hr
  | _ => exact .kept hr

/-- Records are dropped only together with their job. -/
theorem Step.record_kept {ev : Event} (s : o.Step ev o') {r : EvaluationRecord}
    (hr : r ∈ o.ledger.records) :
    (∃ r' ∈ o'.ledger.records, r'.id = r.id) ∨ ev = .forget r.job := by
  have finished : ∀ id status now, ∃ r' ∈ (o.ledger.finish id status now).records,
      r'.id = r.id := by
    intro id status now
    by_cases hid : r.id = id
    · exact ⟨_, Ledger.mem_finish.2 (.inr ⟨r, hr, hid, rfl⟩), EvaluationRecord.id_finish _ _ _⟩
    · exact ⟨r, Ledger.mem_finish.2 (.inl ⟨hr, hid⟩), rfl⟩
  cases s with
  | @forget job entry known ended =>
    by_cases hjob : r.job = job
    · exact .inr (hjob ▸ rfl)
    · exact .inl ⟨r, Ledger.mem_prune.2 ⟨hr, hjob⟩, rfl⟩
  | begin thread sent =>
    obtain ⟨worker, now, hl⟩ := sent.ledger
    exact .inl ⟨r, hl ▸ Ledger.mem_add.2 (.inl hr), rfl⟩
  | place live joining waiting sent =>
    obtain ⟨worker, now, hl⟩ := sent.ledger
    exact .inl ⟨r, hl ▸ Ledger.mem_add.2 (.inl hr), rfl⟩
  | collectRoot now live responded root known => exact .inl (finished _ _ _)
  | collectChild now live responded child above joining => exact .inl (finished _ _ _)
  | _ => exact .inl ⟨r, hr, rfl⟩

/-- Only running records are above running ones. -/
theorem Recorded.running_parent (h : o.Recorded) (hc : o.Consistent) {r q : EvaluationRecord}
    (hr : r ∈ o.ledger.records) (hq : q ∈ o.ledger.records) (above : r.parent = some q.id)
    (running : r.status = .running) : q.status = .running := by
  obtain ⟨e, live⟩ := h.evaluation_of_record hr running
  obtain ⟨r', hr', hid, -, hparent, -⟩ := h.record_of_evaluation live
  cases h.forest.eq_of_id hr' hr hid
  obtain ⟨parent, hp, hpid⟩ := Option.map_eq_some_iff.1 (hparent.symm.trans above)
  obtain ⟨pe, f, stack, live', -⟩ := hc.above live hp
  obtain ⟨q', hq', hid', -, -, hs⟩ := h.record_of_evaluation live'
  cases h.forest.eq_of_id hq' hq (hid'.trans hpid)
  exact hs

theorem Recorded.running_above (h : o.Recorded) (hc : o.Consistent) {r top : EvaluationRecord}
    (hr : r ∈ o.ledger.records) (below : o.ledger.Below r top) (running : r.status = .running) :
    top.status = .running := by
  induction below with
  | child above held => exact h.running_parent hc hr held above running
  | further above held _ ih => exact ih held (h.running_parent hc hr held above running)

/-- The records of a job that has ended have all ended. -/
theorem Recorded.of_ended (h : o.Recorded) (hc : o.Consistent) {entry : JobEntry}
    {r : EvaluationRecord} (known : o.jobs.get? r.job = some entry)
    (ended : entry.job.status.isTerminal = true) (hr : r ∈ o.ledger.records) :
    r.status.isTerminal = true := by
  by_contra hs
  have running : r.status = .running := by simpa [Status.isTerminal] using hs
  obtain ⟨e, live⟩ := h.evaluation_of_record hr running
  obtain ⟨r', hr', hid, hjob, -⟩ := h.record_of_evaluation live
  cases h.forest.eq_of_id hr' hr hid
  obtain ⟨t, hthread, hiff⟩ := hc.thread_of_job known
  have hwait := hc.thread_of_evaluation live
  rw [← hjob, hthread] at hwait
  cases hwait
  exact hiff.1 ended

/-- A fork begins with all of its children to be placed. -/
theorem Counts.of_fork {e : Evaluation} {m : Machine} {kind : ForkKind} {children : List Workflow}
    {stack : List Frame} (live : o.evaluations.get? id = some e) (running : e.phase = .running m)
    (free : o.scopes.isCancelled e.scope = false)
    (forks : m.step o.registry = .fork kind children stack)
    (s : o.Step (.move (.advance id)) o') :
    o'.Counts id ((o.ledger.childrenOf id).length + children.length) := by
  cases s with
  | shift steps live' turn leads later =>
    cases live'.symm.trans live
    cases turn with
    | stopped running' cancelled => simp [free] at cancelled
    | @steps m' running' free' =>
      cases running'.symm.trans running
      cases leads with
      | childless h =>
        cases h.symm.trans forks
        refine .inr ⟨?_, rfl⟩
        rintro ⟨e', f, stack', live'', joining⟩
        rw [Table.get?_insert, if_pos rfl] at live''
        cases live''
        cases joining
      | next h => cases h.symm.trans forks
      | finished h => cases h.symm.trans forks
      | aborted h => cases h.symm.trans forks
      | immediate h => cases h.symm.trans forks
      | guarded h => cases h.symm.trans forks
    | _ => simp_all
  | fork steps live' running' free' forks' =>
    cases live'.symm.trans live
    cases running'.symm.trans running
    cases forks'.symm.trans forks
    exact .inl ⟨_, _, _, (Table.get?_insert _ _ _ _).trans (if_pos rfl), rfl, rfl⟩
  | place live' joining waiting sent =>
    cases live'.symm.trans live
    cases joining.symm.trans running

end Outline

namespace Cluster

theorem recorded_start (registry : Registry) (config : EngineConfig) (backend : Backend)
    (sink : LogSink) : (start registry config backend sink).outline.Recorded where
  forest := ⟨List.nodup_nil, by rintro r ⟨⟩, by rintro r ⟨⟩⟩
  record_known := by
    rintro r ⟨⟩
  thread_of_record := by
    rintro r ⟨⟩
  record_of_evaluation := by
    rintro id e ⟨⟩
  evaluation_of_record := by
    rintro r ⟨⟩
  completed := by
    rintro r ⟨⟩

namespace Run

variable {P : Cluster → Event → Prop} {a b : Cluster}

theorem recorded (run : Run P a b) (hc : a.outline.Consistent) (hn : b.nextId < Uuid.supply)
    (h : a.outline.Recorded) : b.outline.Recorded :=
  run.invariant (I := fun c => c.outline.Recorded) hc hn h fun hc hn _ s h => h.step hc hn s

theorem counts {id : EvaluationId} {total : Nat} (run : Run (fun c _ => c.outline.Joining id) a b)
    (hc : a.outline.Consistent) (hn : b.nextId < Uuid.supply) (hr : a.outline.Recorded)
    (h : a.outline.Counts id total) : b.outline.Counts id total := by
  have both : b.outline.Recorded ∧ b.outline.Counts id total :=
    run.invariant (I := fun c => c.outline.Recorded ∧ c.outline.Counts id total) hc hn ⟨hr, h⟩
      fun hc hn joining s h => ⟨h.1.step hc hn s, h.2.step joining h.1 hc hn s⟩
  exact both.2

end Run

/-- What the records of an engine show at any time. -/
structure StructuredRecords (c : Cluster) : Prop where
  forest : c.dispatcher.ledger.Forest
  parent : ∀ r ∈ c.dispatcher.ledger.records, ∀ p, r.parent = some p →
    ∃ q ∈ c.dispatcher.ledger.records, q.id = p ∧ q.job = r.job ∧
      (r.status = .running → q.status = .running)
  below : ∀ r ∈ c.dispatcher.ledger.records, ∀ top, c.dispatcher.ledger.Below r top →
    top.status.isTerminal = true → r.status.isTerminal = true
  job : ∀ r ∈ c.dispatcher.ledger.records, ∀ entry, c.jobs.get? r.job = some entry →
    entry.job.status.isTerminal = true → r.status.isTerminal = true
  completed : ∀ r ∈ c.dispatcher.ledger.records,
    (r.completedAt.isSome = true ↔ r.status.isTerminal = true)

theorem structuredRecords {c : Cluster} (h : c.outline.Recorded) (hc : c.outline.Consistent) :
    c.StructuredRecords where
  forest := h.forest
  parent := by
    intro r hr p hp
    obtain ⟨q, hq, rfl, hjob⟩ := h.forest.parent hr hp
    exact ⟨q, hq, rfl, hjob, h.running_parent hc hr hq hp⟩
  below := by
    intro r hr top below ended
    by_contra hs
    have running : r.status = .running := by simpa [Status.isTerminal] using hs
    simp [h.running_above hc hr below running, Status.isTerminal] at ended
  job := by
    intro r hr entry known ended
    exact h.of_ended hc known ended hr
  completed := by
    intro r hr
    exact h.completed hr

/-- In every state of an engine the records are structured. Whatever happens then, a record begins
running and ends when the outcome of its evaluation is collected, and a fork has added a record
for each of its children when the evaluation goes on. -/
theorem structured_concurrency {registry : Registry} {config : EngineConfig} {backend : Backend}
    {sink : LogSink} {c : Cluster} (run : Reaches (start registry config backend sink) c)
    (ids : c.nextId < Uuid.supply) :
    c.StructuredRecords ∧
    (∀ ev c', c.after ev = some c' →
      (∀ r ∈ c'.dispatcher.ledger.records, c.outline.RecordOrigin ev r) ∧
      ∀ r ∈ c.dispatcher.ledger.records,
        (∃ r' ∈ c'.dispatcher.ledger.records, r'.id = r.id) ∨ ev = .forget r.job) ∧
    ∀ id e m kind children stack c₁ c₂, c.evaluations.get? id = some e → e.phase = .running m →
      c.scopes.isCancelled e.scope = false → m.step c.registry = .fork kind children stack →
      c.step (.advance id) = some c₁ → Run (fun b _ => b.outline.Joining id) c₁ c₂ →
      c₂.nextId < Uuid.supply → ¬ c₂.outline.Joining id →
      (c₂.dispatcher.ledger.childrenOf id).length =
        (c.dispatcher.ledger.childrenOf id).length + children.length := by
  have consistent := run.consistent (consistent_start registry config backend sink) ids
  have recorded := run.recorded (consistent_start registry config backend sink) ids
    (recorded_start registry config backend sink)
  refine ⟨structuredRecords recorded consistent, ?_, ?_⟩
  · intro ev c' next
    have s := step_of_after consistent next
    exact ⟨fun r hr => s.recordOrigin recorded ids hr, fun r hr => s.record_kept hr⟩
  · intro id e m kind children stack c₁ c₂ live running free forks next joins ids' resumed
    have s : c.outline.Step (.move (.advance id)) c₁.outline := step_of_advance consistent next
    have ids₁ := Nat.lt_of_le_of_lt joins.nextId_le ids'
    have begun : c₁.outline.Counts id _ := .of_fork (o := c.outline) live running free forks s
    rcases joins.counts (consistent.step ids s) ids' (recorded.step consistent ids s) begun with
      ⟨e', f, stack', live', joining, -⟩ | ⟨-, count⟩
    · exact absurd ⟨e', f, stack', live', joining⟩ resumed
    · exact count

/-- A job whose root evaluation has been placed has one record. -/
theorem structured_concurrency_begun :
    ∃ c, Reaches (start {} {} (.memory .empty) (.memory .empty)) c ∧ c.nextId < Uuid.supply ∧
      c.dispatcher.ledger.records.length = 1 ∧ c.StructuredRecords := by
  obtain ⟨c, run, ids, one⟩ : ∃ c, Reaches (start {} {} (.memory .empty) (.memory .empty)) c ∧
      c.nextId < Uuid.supply ∧ c.dispatcher.ledger.records.length = 1 := by
    have submitted := Run.step (P := fun _ _ => True) (.refl _) trivial
      (rfl : (start {} {} (.memory .empty) (.memory .empty)).after (.submit "job" (.ret .null)) = _)
    exact ⟨_, .step submitted trivial
      (rfl : Cluster.after _ (.move (.begin ⟨Uuid.fresh 0⟩)) = some _), by decide, rfl⟩
  exact ⟨c, run, ids, one, (structured_concurrency run ids).1⟩

end Cluster

end WorkflowEngine
