import WorkflowEngine.Proofs.Accounts
import WorkflowEngine.Proofs.Forgetting
/-!
What is kept of jobs. One who forgets a job while others act drops all that is recorded of it and
nothing else, and a job that is run leaves nothing behind.
-/
set_option autoImplicit false

namespace WorkflowEngine

/-- A record stays with its job when it ends. -/
theorem Ledger.exists_of_finish {l : Ledger} {id : EvaluationId} {status : Status} {now : Timestamp}
    {r : EvaluationRecord} (hr : r ∈ (l.finish id status now).records) :
    ∃ q ∈ l.records, q.job = r.job := by
  rcases mem_finish.1 hr with ⟨held, -⟩ | ⟨q, held, -, rfl⟩
  · exact ⟨r, held, rfl⟩
  · exact ⟨q, held, (EvaluationRecord.job_finish _ _ _).symm⟩

namespace Outline

variable {o o' : Outline} {job : JobId} {endings : JobId → Option Ending}
  {jobs : Table JobId JobEntry} {threads : Table JobId JobThread} {half : Finset JobId}

/-- Whether each record belongs to a job that has an entry or is half forgotten. -/
def Listed (o : Outline) (half : Finset JobId) : Prop :=
  ∀ r ∈ o.ledger.records, r.job ∉ half → (o.jobs.get? r.job).isSome = true

/-- Only to be forgotten takes the entry of a job away, and none is made for an old job. -/
theorem Step.isSome_jobs {ev : Event} (s : o.Step ev o') (hn : o.nextId < Uuid.supply)
    (given : o.Known job.uuid) (other : ev ≠ .forget job) :
    (o'.jobs.get? job).isSome = (o.jobs.get? job).isSome := by
  cases s with
  | submit now =>
    rw [Table.get?_insert, if_neg]
    rintro rfl
    exact given.ne_newId hn rfl
  | @forget forgotten entry known ended =>
    rw [Table.get?_erase, if_neg]
    rintro rfl
    exact other rfl
  | begin thread sent =>
    obtain ⟨-, hjobs, -⟩ := sent.unchanged
    rw [hjobs]
  | place live joining waiting sent =>
    obtain ⟨-, hjobs, -⟩ := sent.unchanged
    rw [hjobs]
  | collectRoot now live responded root known =>
    rw [Table.get?_insert]
    split
    · next own => rw [← own, known]; rfl
    · rfl
  | _ => rfl

namespace Booked

theorem known_of_record (h : o.Booked endings jobs threads) {r : EvaluationRecord}
    (hr : r ∈ o.ledger.records) : o.Known r.job.uuid := by
  obtain ⟨t, thread, -⟩ := h.recorded.thread_of_record hr
  exact h.consistent.thread_known thread

/-- A job whose thread is shown has been given its identifier. -/
theorem known_of_thread (h : o.Booked endings jobs threads) {t : JobThread}
    (thread : o.threads.get? job = some t) : o.Known job.uuid := by
  have page := h.page job
  rw [thread] at page
  obtain ⟨booked, thread'⟩ := page.exists_thread
  exact h.consistent.thread_known thread'

/-- An event makes records only for jobs that have an entry. -/
theorem listed {ev : Event} (h : o.Booked endings jobs threads) (hn : o.nextId < Uuid.supply)
    (hl : o.Listed half) (s : o.Step ev o') (other : ∀ job, ev ≠ .forget job) :
    o'.Listed half := by
  have kept : ∀ {job}, o.Known job.uuid → (o.jobs.get? job).isSome = true →
      (o'.jobs.get? job).isSome = true := fun given listed =>
    (s.isSome_jobs hn given (other _)).trans listed
  have old : ∀ {r : EvaluationRecord}, r ∈ o.ledger.records → r.job ∉ half →
      (o'.jobs.get? r.job).isSome = true := fun hr whole =>
    kept (h.known_of_record hr) (hl _ hr whole)
  have finished : ∀ {id status now r}, r ∈ (o.ledger.finish id status now).records →
      r.job ∉ half → (o'.jobs.get? r.job).isSome = true := by
    intro id status now r hr whole
    obtain ⟨q, held, same⟩ := Ledger.exists_of_finish hr
    rw [← same] at whole ⊢
    exact old held whole
  intro r hr whole
  cases s with
  | forget known ended => exact absurd rfl (other _)
  | @begin job w scope _ thread sent =>
    obtain ⟨worker, now, ho⟩ := sent.ledger
    rw [ho] at hr
    rcases Ledger.mem_add.1 hr with hr | rfl
    · exact old hr whole
    · have page := h.page job
      rw [thread] at page
      obtain ⟨-, thread', same⟩ := page.of_submitted
      refine kept (h.known_of_thread thread) ?_
      rw [same]
      exact Option.isSome_iff_exists.2
        (h.consistent.job_of_thread thread' (by simp [JobThread.HasEnded]))
  | place live joining waiting sent =>
    obtain ⟨worker, now, ho⟩ := sent.ledger
    rw [ho] at hr
    rcases Ledger.mem_add.1 hr with hr | rfl
    · exact old hr whole
    · obtain ⟨-, -, thread, -⟩ := h.of_evaluation live
      exact kept (h.known_of_thread thread) (Option.isSome_iff_exists.2 (h.exists_entry live))
  | collectRoot => exact finished hr whole
  | collectChild => exact finished hr whole
  | _ => exact old hr whole

end Booked

end Outline

namespace Gradual

variable {d d' : Gradual} {act : Act} {job : JobId} {jobs : Table JobId JobEntry}
  {threads : Table JobId JobThread} {half : Finset JobId}

theorem Step.isSome_jobs (s : d.Step act d')
    (h : d.cluster.outline.Booked d.endings jobs threads) (hn : d.cluster.nextId < Uuid.supply)
    (given : d.cluster.outline.Known job.uuid) (other : act ≠ .event (.forget job)) :
    (d'.cluster.jobs.get? job).isSome = (d.cluster.jobs.get? job).isSome := by
  cases s with
  | event open_ended next =>
    refine (Cluster.outline_after h.mailed h.forked h.exists_entry next).isSome_jobs hn given ?_
    rintro rfl
    exact other rfl
  | settle taken =>
    obtain ⟨e, r, -, -, -, -, -, ho⟩ := Cluster.outline_settleRoot h.mailed taken
    exact congrArg (fun o => (o.jobs.get? job).isSome) ho
  | @enter ended o ending =>
    unfold Cluster.enterJob
    split
    · next entry known =>
      simp only [Table.get?_insert]
      split
      · next own => rw [← own, known]; rfl
      · rfl
    · rfl
  | tell ending => rfl

theorem Step.listed (s : d.Step act d') (h : d.cluster.outline.Booked d.endings jobs threads)
    (hn : d.cluster.nextId < Uuid.supply) (hl : d.cluster.outline.Listed half)
    (other : ∀ job, act ≠ .event (.forget job)) : d'.cluster.outline.Listed half := by
  cases s with
  | event open_ended next =>
    refine h.listed hn hl (Cluster.outline_after h.mailed h.forked h.exists_entry next) ?_
    rintro job rfl
    exact other job rfl
  | settle taken =>
    obtain ⟨e, r, -, -, -, -, -, ho⟩ := Cluster.outline_settleRoot h.mailed taken
    simp only [ho]
    intro record hr whole
    obtain ⟨q, held, same⟩ := Ledger.exists_of_finish hr
    rw [← same] at whole ⊢
    exact hl q held whole
  | @enter ended o ending =>
    have s : d.Step (.enter ended) _ := .enter ending
    intro r hr whole
    have hr' : r ∈ d.cluster.outline.ledger.records := by
      revert hr
      simp only [Cluster.enterJob, Cluster.outline]
      split <;> exact id
    exact (s.isSome_jobs h hn (h.known_of_record hr') (by simp)).trans (hl r hr' whole)
  | tell ending => exact hl

/-- What is told of the end of a job stays told. -/
theorem Step.told_kept (s : d.Step act d') (h : d.cluster.outline.Booked d.endings jobs threads)
    (hn : d.cluster.nextId < Uuid.supply) {o : Outcome} (told : d.cluster.outcome? job = some o) :
    d'.cluster.outcome? job = some o := by
  have thread := Cluster.outcome?_eq_some.1 told
  refine Cluster.outcome?_eq_some.2 ?_
  cases s with
  | event open_ended next =>
    refine (Cluster.outline_after h.mailed h.forked h.exists_entry next).ended_kept hn
      (h.known_of_thread thread) ?_ thread
    intro id e live
    exact (h.of_evaluation live).2.2.1
  | settle taken =>
    obtain ⟨e, r, -, -, -, -, -, ho⟩ := Cluster.outline_settleRoot h.mailed taken
    exact (congrArg (fun o => o.threads.get? job) ho).trans thread
  | @enter ended o' ending =>
    unfold Cluster.enterJob
    split <;> exact thread
  | @tell ended o' ending =>
    simp only [Cluster.tellJob]
    rw [Table.get?_insert, if_neg]
    · exact thread
    · rintro rfl
      have page := h.page ended
      rw [ending, show d.cluster.outline.threads.get? ended = some (.ended o) from thread] at page
      cases page

end Gradual

theorem JobEntry.Tells.isTerminal {entry : JobEntry} {o : Outcome} (tells : entry.Tells o) :
    entry.job.status.isTerminal = true := by
  obtain ⟨before, now, rfl⟩ := tells
  exact o.isTerminal_status

namespace Cluster

theorem nextId_submit (c : Cluster) (name : String) (w : Workflow) :
    (c.submit name w).2.nextId = c.nextId + 1 := by
  change (c.submit name w).2.outline.nextId = _
  simp only [submit, outline_wake]
  rfl

theorem known_submit (c : Cluster) (name : String) (w : Workflow) :
    (c.submit name w).2.outline.Known (c.submit name w).1.uuid :=
  ⟨c.nextId, by simp [outline, nextId_submit], rfl⟩

theorem isSome_submit (c : Cluster) (name : String) (w : Workflow) :
    ((c.submit name w).2.outline.jobs.get? (c.submit name w).1).isSome = true := by
  simp only [submit, outline_wake]
  simp [outline]

end Cluster

namespace Forgetting

variable {P : Act → Prop} {a b d d' : Forgetting} {act : Act} {job : JobId}
  {jobs : Table JobId JobEntry} {threads : Table JobId JobThread}

/-- The books are in order, every record is listed, and jobs that are half forgotten have ended
and have no entry. -/
structure Kept (d : Forgetting) (jobs : Table JobId JobEntry) (threads : Table JobId JobThread) :
    Prop where
  booked : d.cluster.outline.Booked d.gradual.endings jobs threads
  listed : d.cluster.outline.Listed d.half
  gone : ∀ job ∈ d.half, d.cluster.jobs.get? job = none
  ended : ∀ job ∈ d.half, ∃ o, threads.get? job = some (.ended o)

/-- A job that was given its identifier and has no entry any more. -/
structure Absent (d : Forgetting) (job : JobId) : Prop where
  given : d.cluster.outline.Known job.uuid
  gone : d.cluster.jobs.get? job = none

theorem Step.nextId_le (s : d.Step act d') : d.cluster.nextId ≤ d'.cluster.nextId := by
  cases s with
  | gradual other next => exact next.nextId_le
  | dropEntry taken =>
    obtain ⟨entry, -, -, rfl⟩ := Cluster.dropEntry_eq_ok.1 taken
    exact Nat.le_refl _
  | dropRecords left => exact Nat.le_refl _

/-- Only the first step of those who forget a job takes its entry away. -/
theorem Step.isSome_jobs (s : d.Step act d') (h : d.Kept jobs threads)
    (hn : d.cluster.nextId < Uuid.supply) (given : d.cluster.outline.Known job.uuid)
    (other : act ≠ .dropEntry job) :
    (d'.cluster.jobs.get? job).isSome = (d.cluster.jobs.get? job).isSome := by
  cases s with
  | gradual not_forget next => exact next.isSome_jobs h.booked hn given (not_forget job)
  | @dropEntry dropped c taken =>
    have hne : job ≠ dropped := by
      rintro rfl
      exact other rfl
    exact congrArg Option.isSome (Cluster.agrees_dropEntry taken hne).1
  | dropRecords left => rfl

theorem Step.kept (s : d.Step act d') (h : d.Kept jobs threads)
    (hn : d.cluster.nextId < Uuid.supply) :
    ∃ jobs' threads', d'.Kept jobs' threads' ∧ Outline.Lasting threads threads' := by
  cases s with
  | @gradual act g other next =>
    obtain ⟨jobs', threads', booked, lasting⟩ := next.booked h.booked hn
    refine ⟨jobs', threads', ⟨booked, next.listed h.booked hn h.listed other, ?_, ?_⟩, lasting⟩
    · intro job hjob
      obtain ⟨o, thread⟩ := h.ended job hjob
      have given := h.booked.consistent.thread_known thread
      have same := next.isSome_jobs h.booked hn given (other job)
      rw [show d.gradual.cluster.jobs.get? job = none from h.gone job hjob] at same
      exact Option.isNone_iff_eq_none.1 (Option.isSome_eq_false_iff.1 same)
    · intro job hjob
      obtain ⟨o, thread⟩ := h.ended job hjob
      exact ⟨o, lasting job o thread⟩
  | @dropEntry job c taken =>
    have others := fun other (hne : other ≠ job) => (Cluster.agrees_dropEntry taken hne).1
    obtain ⟨entry, known, ended, rfl⟩ := Cluster.dropEntry_eq_ok.1 taken
    refine ⟨_, threads, ⟨h.booked.dropEntry known ended, ?_, ?_, ?_⟩, .refl threads⟩
    · intro r hr whole
      rw [Finset.mem_insert, not_or] at whole
      exact (congrArg Option.isSome (others r.job whole.1)).trans (h.listed r hr whole.2)
    · intro job' hjob
      by_cases hne : job' = job
      · exact (Table.get?_erase _ _ _).trans (if_pos hne.symm)
      · exact (others job' hne).trans (h.gone job' ((Finset.mem_insert.1 hjob).resolve_left hne))
    · intro job' hjob
      rcases Finset.mem_insert.1 hjob with rfl | hjob
      · obtain ⟨o, thread, -⟩ := h.booked.of_terminal known ended
        exact ⟨o, thread⟩
      · exact h.ended job' hjob
  | @dropRecords job left =>
    obtain ⟨o, thread⟩ := h.ended job left
    refine ⟨jobs, threads, ⟨h.booked.dropRecords thread (h.gone job left), ?_, ?_, ?_⟩,
      .refl threads⟩
    · intro r hr whole
      obtain ⟨held, hne⟩ := Ledger.mem_prune.1 hr
      exact h.listed r held fun half => whole (Finset.mem_erase.2 ⟨hne, half⟩)
    · intro job' hjob
      exact h.gone job' (Finset.mem_of_mem_erase hjob)
    · intro job' hjob
      exact h.ended job' (Finset.mem_of_mem_erase hjob)

theorem Run.nextId_le (run : Run P a b) : a.cluster.nextId ≤ b.cluster.nextId := by
  induction run with
  | refl => exact Nat.le_refl _
  | step _ _ next ih => exact ih.trans next.nextId_le

theorem Run.kept (run : Run P a b) (h : a.Kept jobs threads)
    (hn : b.cluster.nextId < Uuid.supply) :
    ∃ jobs' threads', b.Kept jobs' threads' ∧ Outline.Lasting threads threads' := by
  induction run with
  | refl => exact ⟨jobs, threads, h, .refl threads⟩
  | step _ _ next ih =>
    have hn' := Nat.lt_of_le_of_lt next.nextId_le hn
    obtain ⟨jobs₁, threads₁, h₁, lasting⟩ := ih hn'
    obtain ⟨jobs₂, threads₂, h₂, lasting'⟩ := next.kept h₁ hn'
    exact ⟨jobs₂, threads₂, h₂, lasting.trans lasting'⟩

/-- A job without an entry gets none again, so that nobody starts to forget it. -/
theorem Step.absent (s : d.Step act d') (h : d.Kept jobs threads)
    (hn : d.cluster.nextId < Uuid.supply) (absent : d.Absent job) :
    d'.Absent job ∧ (job ∉ d.half → job ∉ d'.half) := by
  have other : act ≠ .dropEntry job := by
    rintro rfl
    cases s with
    | dropEntry taken =>
      obtain ⟨entry, known, -⟩ := Cluster.dropEntry_eq_ok.1 taken
      cases absent.gone.symm.trans known
  have same := s.isSome_jobs h hn absent.given other
  rw [absent.gone] at same
  refine ⟨⟨absent.given.mono s.nextId_le,
    Option.isNone_iff_eq_none.1 (Option.isSome_eq_false_iff.1 same)⟩, ?_⟩
  intro whole
  cases s with
  | gradual => exact whole
  | @dropEntry dropped c taken =>
    rw [Finset.mem_insert, not_or]
    refine ⟨?_, whole⟩
    rintro rfl
    exact other rfl
  | dropRecords left => exact fun half => whole (Finset.mem_of_mem_erase half)

theorem Run.absent (run : Run P a b) (h : a.Kept jobs threads)
    (hn : b.cluster.nextId < Uuid.supply) (absent : a.Absent job) :
    b.Absent job ∧ (job ∉ a.half → job ∉ b.half) := by
  induction run with
  | refl => exact ⟨absent, id⟩
  | step run _ next ih =>
    have hn' := Nat.lt_of_le_of_lt next.nextId_le hn
    obtain ⟨still, whole⟩ := ih hn'
    obtain ⟨jobs', threads', kept, -⟩ := run.kept h hn'
    obtain ⟨still', whole'⟩ := next.absent kept hn' still
    exact ⟨still', whole' ∘ whole⟩

/-- Nothing is recorded of a job without an entry, unless it is half forgotten. -/
theorem Kept.dropped (h : d.Kept jobs threads) (absent : d.Absent job) (whole : job ∉ d.half) :
    d.Dropped job := by
  intro d' run ids
  obtain ⟨still, whole'⟩ := run.absent h ids absent
  obtain ⟨jobs', threads', kept, -⟩ := run.kept h ids
  refine ⟨by simp [Cluster.job?, still.gone], Cluster.evaluationsOf_eq_nil.2 ?_⟩
  rintro r hr rfl
  have listed := kept.listed r hr (whole' whole)
  rw [show d'.cluster.outline.jobs.get? r.job = none from still.gone] at listed
  cases listed

/-- One who has forgotten a job has left nothing of it. -/
theorem Forgets.dropped (forgets : a.Forgets P job (.ok ()) d) (h : a.Kept jobs threads)
    (hn : d.cluster.nextId < Uuid.supply) : d.Dropped job := by
  cases forgets with
  | @done b c _ entry meanwhile records =>
    have hc := Nat.lt_of_le_of_lt records.nextId_le hn
    have ha := Nat.lt_of_le_of_lt (entry.nextId_le.trans meanwhile.nextId_le) hc
    obtain ⟨jobs₁, threads₁, kept₁, -⟩ := entry.kept h ha
    obtain ⟨jobs₂, threads₂, kept₂, -⟩ := meanwhile.kept kept₁ hc
    obtain ⟨jobs₃, threads₃, kept₃, -⟩ := records.kept kept₂ hc
    have absent : b.Absent job := by
      cases entry with
      | dropEntry taken =>
        have gone := kept₁.gone job (Finset.mem_insert_self job _)
        obtain ⟨o, thread⟩ := kept₁.ended job (Finset.mem_insert_self job _)
        exact ⟨kept₁.booked.consistent.thread_known thread, gone⟩
    obtain ⟨absent₂, -⟩ := meanwhile.absent kept₁ hc absent
    obtain ⟨absent₃, -⟩ := records.absent kept₂ hc absent₂
    refine kept₃.dropped absent₃ ?_
    cases records with
    | dropRecords left => exact Finset.notMem_erase job _

/-- Those who take the entry of a job away were permitted to. -/
theorem Run.isSome_jobs (run : Run P a b) (h : a.Kept jobs threads)
    (hn : b.cluster.nextId < Uuid.supply) (given : a.cluster.outline.Known job.uuid)
    (listed : (a.cluster.jobs.get? job).isSome = true) :
    (b.cluster.jobs.get? job).isSome = true ∨ P (.dropEntry job) := by
  induction run with
  | refl => exact .inl listed
  | @step b d act run may next ih =>
    have hn' := Nat.lt_of_le_of_lt next.nextId_le hn
    rcases ih hn' with listed' | dropped
    · by_cases hact : act = .dropEntry job
      · exact .inr (hact ▸ may)
      · obtain ⟨jobs', threads', kept, -⟩ := run.kept h hn'
        have given' : b.cluster.outline.Known job.uuid := given.mono run.nextId_le
        exact .inl ((next.isSome_jobs kept hn' given' hact).trans listed')
    · exact .inr dropped

theorem Step.told_kept (s : d.Step act d') (h : d.Kept jobs threads)
    (hn : d.cluster.nextId < Uuid.supply) {o : Outcome} (told : d.cluster.outcome? job = some o) :
    d'.cluster.outcome? job = some o := by
  cases s with
  | gradual other next => exact next.told_kept h.booked hn told
  | dropEntry taken =>
    obtain ⟨entry, -, -, rfl⟩ := Cluster.dropEntry_eq_ok.1 taken
    exact told
  | dropRecords left => exact told

theorem Run.told_kept (run : Run P a b) (h : a.Kept jobs threads)
    (hn : b.cluster.nextId < Uuid.supply) {o : Outcome} (told : a.cluster.outcome? job = some o) :
    b.cluster.outcome? job = some o := by
  induction run with
  | refl => exact told
  | step run _ next ih =>
    have hn' := Nat.lt_of_le_of_lt next.nextId_le hn
    obtain ⟨jobs', threads', kept, -⟩ := run.kept h hn'
    exact next.told_kept kept hn' (ih hn')

/-- Once the outcome of a job is told, the job is not shown as running. -/
theorem Kept.isTerminal (h : d.Kept jobs threads) {o : Outcome} {entry : JobEntry}
    (told : d.cluster.outcome? job = some o) (known : d.cluster.jobs.get? job = some entry) :
    entry.job.status.isTerminal = true := by
  have page := h.booked.page job
  rw [show d.cluster.outline.threads.get? job = some (.ended o) from
    Cluster.outcome?_eq_some.1 told] at page
  exact (page.of_told.2 entry known).isTerminal

/-- One who has run a workflow has left nothing of its job. It may be that another one has begun to
forget the job, and still has to drop its records. -/
theorem Runs.dropped {name : String} {w : Workflow} {o : Outcome}
    {result : Except EngineError Unit} (runs : a.Runs P name w job o result d)
    (h : a.Kept jobs threads) (hn : d.cluster.nextId < Uuid.supply) :
    (result = .ok () ∧ d.Dropped job) ∨
      (result = .error (.jobNotFound job) ∧ P (.dropEntry job) ∧ d.cluster.job? job = none ∧
        ∀ d', Reaches d d' → d'.cluster.nextId < Uuid.supply → job ∉ d'.half → d'.Dropped job) := by
  cases runs with
  | @run b c e _ _ _ submitted meanwhile told later forgets =>
    have he := Nat.lt_of_le_of_lt forgets.reaches.nextId_le hn
    have hc := Nat.lt_of_le_of_lt later.nextId_le he
    have hb := Nat.lt_of_le_of_lt meanwhile.nextId_le hc
    have ha := Nat.lt_of_le_of_lt submitted.nextId_le hb
    obtain ⟨jobs₁, threads₁, kept₁, -⟩ := submitted.kept h ha
    obtain ⟨jobs₂, threads₂, kept₂, -⟩ := meanwhile.kept kept₁ hc
    obtain ⟨jobs₃, threads₃, kept₃, -⟩ := later.kept kept₂ he
    cases forgets with
    | done entry between records =>
      exact .inl ⟨rfl, (Forgets.done entry between records).dropped kept₃ hn⟩
    | refused refused =>
      rcases Cluster.dropEntry_eq_error.1 refused with ⟨gone, rfl⟩ | ⟨entry, known, running, rfl⟩
      · obtain ⟨given, listed⟩ : b.cluster.outline.Known (a.cluster.submit name w).1.uuid ∧
            (b.cluster.jobs.get? (a.cluster.submit name w).1).isSome = true := by
          cases submitted with
          | gradual _ next =>
            cases next with
            | event _ after =>
              cases after
              exact ⟨a.cluster.known_submit name w, a.cluster.isSome_submit name w⟩
        have others := meanwhile.trans later
        have may : P (.dropEntry (a.cluster.submit name w).1) := by
          refine (others.isSome_jobs kept₁ he given listed).resolve_left ?_
          simp [gone]
        have absent : d.Absent (a.cluster.submit name w).1 :=
          ⟨Outline.Known.mono given others.nextId_le, gone⟩
        refine .inr ⟨rfl, may, by simp [Cluster.job?, gone], ?_⟩
        intro d' run ids whole
        obtain ⟨jobs', threads', kept', -⟩ := run.kept kept₃ ids
        exact kept'.dropped (run.absent kept₃ ids absent).1 whole
      · -- The outcome was told before, so that the job is not running.
        have ended := kept₃.isTerminal (later.told_kept kept₂ he told) known
        cases ended.symm.trans running

end Forgetting

end WorkflowEngine
