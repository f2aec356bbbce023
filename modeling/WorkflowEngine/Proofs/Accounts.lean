import WorkflowEngine.Proofs.Books
import WorkflowEngine.Proofs.Soundness
/-!
One outcome per job: what those who join a job are told, its entry and the record of its root
evaluation agree, whatever happens between the steps at its end. A cancel that comes late is
refused or is too late to change the outcome.
-/
set_option autoImplicit false

namespace WorkflowEngine

namespace Cluster

variable {c c' : Cluster} {job : JobId} {o : Outcome}

theorem outcome?_eq_some :
    c.outcome? job = some o ↔ c.threads.get? job = some (.ended o) := by
  unfold outcome?
  split <;> simp_all

theorem outline_settleRoot {id : EvaluationId} (hm : c.outline.Mailed)
    (taken : c.settleRoot id = some (job, o, c')) :
    ∃ e r, c.evaluations.get? id = some e ∧ e.phase = .responded r ∧ e.parent = none ∧
      job = e.job ∧ o = r.outcome ∧
      c'.outline =
        { c.outline with
          evaluations := c.evaluations.erase id
          ledger := c.dispatcher.ledger.finish id r.outcome.status c.time } := by
  unfold settleRoot at taken
  obtain ⟨e, live, h⟩ := Option.bind_eq_some_iff.1 taken
  obtain ⟨p, hp, -⟩ := hm.placed live
  split at h
  · next r hr hroot =>
    simp only [hp, Dispatcher.settle] at h
    cases h
    refine ⟨e, r, live, hr, hroot, rfl, rfl, ?_⟩
    exact Outline.ext rfl rfl rfl (Pool.size_modifyLoad _ _ _) rfl rfl rfl rfl rfl rfl rfl
  · cases h

theorem outline_enterJob {entry : JobEntry} (known : c.jobs.get? job = some entry) :
    (c.enterJob job o).outline =
      { c.outline with jobs := c.jobs.insert job (endedEntry entry o c.time) } := by
  simp only [enterJob, known]
  rfl

end Cluster

namespace Gradual

variable {a b d d' : Gradual} {jobs : Table JobId JobEntry} {threads : Table JobId JobThread}

theorem Step.nextId_le {act : Act} (s : d.Step act d') :
    d.cluster.nextId ≤ d'.cluster.nextId := by
  cases s with
  | event open_ended next => exact Cluster.nextId_after next
  | @settle id job o c taken =>
    unfold Cluster.settleRoot at taken
    obtain ⟨e, live, h⟩ := Option.bind_eq_some_iff.1 taken
    split at h
    · cases h
      exact Nat.le_refl _
    · cases h
  | @enter job o ending =>
    unfold Cluster.enterJob
    split <;> exact Nat.le_refl _
  | tell ending => exact Nat.le_refl _

theorem Step.booked {act : Act} (s : d.Step act d')
    (h : d.cluster.outline.Booked d.endings jobs threads) (hn : d.cluster.nextId < Uuid.supply) :
    ∃ jobs' threads', d'.cluster.outline.Booked d'.endings jobs' threads' ∧
      Outline.Lasting threads threads' := by
  cases s with
  | event open_ended next =>
    refine h.event hn (Cluster.outline_after h.mailed h.forked h.exists_entry next) ?_
    intro id e hev live root
    exact open_ended ⟨id, e, hev, live, root⟩
  | settle taken =>
    obtain ⟨e, r, live, responded, root, rfl, rfl, ho⟩ :=
      Cluster.outline_settleRoot h.mailed taken
    simp only [ho]
    exact h.settle hn _ live responded root
  | @enter job o ending =>
    obtain ⟨entry, known⟩ : ∃ entry, d.cluster.jobs.get? job = some entry := by
      have page := h.page job
      rw [ending] at page
      exact page.of_settled
    simp only [Cluster.outline_enterJob known]
    exact ⟨jobs, threads, h.enter ending known _, .refl threads⟩
  | tell ending => exact ⟨jobs, threads, h.tell ending, .refl threads⟩

theorem Reaches.nextId_le (run : Reaches a b) : a.cluster.nextId ≤ b.cluster.nextId := by
  induction run with
  | refl => exact Nat.le_refl _
  | step _ next ih => exact ih.trans next.nextId_le

theorem Reaches.booked (run : Reaches a b) (h : a.cluster.outline.Booked a.endings jobs threads)
    (hn : b.cluster.nextId < Uuid.supply) :
    ∃ jobs' threads', b.cluster.outline.Booked b.endings jobs' threads' ∧
      Outline.Lasting threads threads' := by
  induction run with
  | refl => exact ⟨jobs, threads, h, .refl threads⟩
  | step _ next ih =>
    have hn' := Nat.lt_of_le_of_lt next.nextId_le hn
    obtain ⟨jobs₁, threads₁, h₁, lasting⟩ := ih hn'
    obtain ⟨jobs₂, threads₂, h₂, lasting'⟩ := next.booked h₁ hn'
    exact ⟨jobs₂, threads₂, h₂, lasting.trans lasting'⟩

/-- The outcome of a job is known as soon as the books tell it. -/
theorem known_iff (h : d.cluster.outline.Booked d.endings jobs threads) {job : JobId}
    {o : Outcome} : d.known job = some o ↔ threads.get? job = some (.ended o) := by
  have page := h.page job
  cases hd : d.endings job with
  | none =>
    rw [hd] at page
    simp only [known, hd, Cluster.outcome?_eq_some]
    rw [← page.of_none]
    rfl
  | some ending =>
    rw [hd] at page
    rw [page.of_ending]
    simp [known, hd]

end Gradual

/-- What those who join a job are told, the job as it is shown, and the record of its root
evaluation. -/
structure Accounts (id : JobId) (told : Except EngineError Value) (job : Job)
    (root : EvaluationRecord) : Prop where
  completed : (∃ v, told = .ok v) ↔ job.status = .completed ∧ root.status = .completed
  failed : (∃ e, told = .error (.workflow e)) ↔ job.status = .failed ∧ root.status = .failed
  cancelled : told = .error (.cancelled id) ↔ job.status = .cancelled ∧ root.status = .cancelled
  error : ∀ text, (∃ e, told = .error (.workflow e) ∧ e.text = text) ↔ job.error = some text
  dated : job.completedAt.isSome = true ∧ root.completedAt.isSome = true

theorem Accounts.of_tells {id : JobId} {entry : JobEntry} {o : Outcome} {root : EvaluationRecord}
    (tells : entry.Tells o) (status : root.status = o.status)
    (dated : root.completedAt.isSome = true) :
    Accounts id (EngineError.ofOutcome id o) entry.job root := by
  obtain ⟨before, now, rfl⟩ := tells
  constructor <;> (rcases o with (e | -) | v) <;>
    simp [EngineError.ofOutcome, Cluster.endedEntry, Outcome.status, status, dated]

namespace Schedule

variable {s s' : Schedule}

theorem reaches_next (h : s.next = some s') : Cluster.Reaches s.cluster s'.cluster := by
  unfold next at h
  split at h
  · next t _ =>
    split at h
    · cases h
      exact .refl _
    · next c hstep =>
      have taken : s.cluster.after (.move (s.cluster.nextMove t)) = some c := hstep
      have run : Cluster.Reaches s.cluster c := .single trivial taken
      split at h <;> cases h <;> exact run
  · split at h
    · cases h
      exact .single trivial (rfl : s.cluster.after (.arrange _) = _)
    · split at h <;> cases h
      exact .single trivial (rfl : s.cluster.after (.arrange _) = _)

theorem reaches_run (goal : Cluster → Bool) (limit : Option Nat) (fuel : Nat) (s : Schedule) :
    Cluster.Reaches s.cluster (s.run goal limit fuel).cluster := by
  induction fuel generalizing s with
  | zero => exact .refl _
  | succ fuel ih =>
    simp only [run]
    split
    · next s' hs => exact (reaches_next hs).trans (ih s')
    · split
      · exact .refl _
      · split
        · exact .refl _
        · next due _ =>
          split
          · exact .refl _
          · have elapsed : Cluster.Reaches s.cluster (s.cluster.elapseTo due) :=
              .single trivial (rfl : s.cluster.after (.elapse due) = _)
            exact elapsed.trans (ih { s with cluster := s.cluster.elapseTo due })

/-- To join a job takes steps and then tells the outcome. -/
theorem join_eq (s : Schedule) (job : JobId) :
    Cluster.Reaches s.cluster (s.join job).2.cluster ∧
      (s.join job).1 = ((s.join job).2.cluster.outcome? job).map (EngineError.ofOutcome job) :=
  ⟨reaches_run _ _ _ s, rfl⟩

theorem interrupt_eq (s : Schedule) (job : JobId) :
    Cluster.Reaches s.cluster (s.interrupt job).2.cluster ∧
      (s.interrupt job).1 =
        ((s.interrupt job).2.cluster.outcome? job).map (EngineError.ofOutcome job) := by
  unfold interrupt
  cases hc : s.cluster.cancel job with
  | error err => exact s.join_eq job
  | ok c =>
    obtain ⟨run, told⟩ := join_eq { s with cluster := c } job
    have cancelled : Cluster.Reaches s.cluster c :=
      .single trivial
        (show s.cluster.after (.cancel job) = some c by simp [Cluster.after, hc, Except.toOption])
    exact ⟨cancelled.trans run, told⟩

end Schedule

namespace Gradual

variable {registry : Registry} {config : EngineConfig} {backend : Backend} {sink : LogSink}
  {d : Gradual}

theorem booked_start (registry : Registry) (config : EngineConfig) (backend : Backend)
    (sink : LogSink) :
    (Cluster.start registry config backend sink).outline.Booked (fun _ => none) .empty .empty where
  consistent := Cluster.consistent_start registry config backend sink
  recorded := Cluster.recorded_start registry config backend sink
  roots := by
    rintro job outcome entry ⟨⟩
  page := by
    intro job
    exact .unended (t := none) (e := none) (by simp)

/-- What a job that has ended is known by. -/
theorem accounts {jobs : Table JobId JobEntry} {threads : Table JobId JobThread}
    (h : d.cluster.outline.Booked d.endings jobs threads) {job : JobId} {o : Outcome}
    {entry : JobEntry} (ended : d.cluster.outcome? job = some o)
    (known : d.cluster.jobs.get? job = some entry) :
    ∃ root ∈ d.cluster.evaluationsOf job, root.parent = none ∧
      (∀ r ∈ d.cluster.evaluationsOf job, r.parent = none → r = root) ∧
      Accounts job (EngineError.ofOutcome job o) entry.job root := by
  have page := h.page job
  have shown : d.cluster.outline.threads.get? job = some (.ended o) :=
    Cluster.outcome?_eq_some.1 ended
  rw [shown] at page
  obtain ⟨thread, tells⟩ := page.of_told
  obtain ⟨entry', known'⟩ : ∃ entry', jobs.get? job = some entry' := by
    rw [← Option.isSome_iff_exists, ← page.isSome_eq, Option.isSome_iff_exists]
    exact ⟨entry, known⟩
  obtain ⟨root, hr, hjob, top, status⟩ := h.roots job o entry' thread known'
  have listed : ∀ r, r ∈ d.cluster.evaluationsOf job ↔
      r ∈ d.cluster.outline.ledger.records ∧ r.job = job := by
    simp [Cluster.evaluationsOf, Ledger.ofJob, Cluster.outline]
  refine ⟨root, (listed root).2 ⟨hr, hjob⟩, top, ?_, ?_⟩
  · intro r hm hp
    obtain ⟨hm', hj⟩ := (listed r).1 hm
    exact h.recorded.forest.one_root r hm' root hr hp top (hj.trans hjob.symm)
  · refine .of_tells (tells entry known) status ((h.recorded.completed hr).2 ?_)
    rw [status]
    exact o.isTerminal_status

/-- Whatever happens to an engine, between the steps at the end of a job too: the accounts of a job
that has ended agree; a job that is shown as ended cannot be cancelled; the outcome of a job does
not change once its root evaluation is settled; and to join a job, or to interrupt it, tells this
outcome. -/
theorem accounts_agree (run : Reaches (ofCluster (Cluster.start registry config backend sink)) d)
    (ids : d.cluster.nextId < Uuid.supply) :
    (∀ job o entry, d.cluster.outcome? job = some o → d.cluster.jobs.get? job = some entry →
      ∃ root ∈ d.cluster.evaluationsOf job, root.parent = none ∧
        (∀ r ∈ d.cluster.evaluationsOf job, r.parent = none → r = root) ∧
        Accounts job (EngineError.ofOutcome job o) entry.job root) ∧
    (∀ job entry, d.cluster.jobs.get? job = some entry → entry.job.status.isTerminal = true →
      d.cluster.cancel job = .error (.jobNotRunning job) ∧
        ∃ o, d.known job = some o ∧ entry.Tells o) ∧
    (∀ job o d', d.known job = some o → Reaches d d' → d'.cluster.nextId < Uuid.supply →
      d'.known job = some o) ∧
    ∀ (s : Schedule) job, ofCluster s.cluster = d →
      ∀ told s', s.join job = (told, s') ∨ s.interrupt job = (told, s') →
        Reaches d (ofCluster s'.cluster) ∧
        told = (s'.cluster.outcome? job).map (EngineError.ofOutcome job) ∧
        (s'.cluster.nextId < Uuid.supply → ∀ o, s.cluster.outcome? job = some o →
          told = some (EngineError.ofOutcome job o)) := by
  obtain ⟨jobs, threads, h, -⟩ := run.booked (booked_start registry config backend sink) ids
  have stays : ∀ job o d', d.known job = some o → Reaches d d' →
      d'.cluster.nextId < Uuid.supply → d'.known job = some o := by
    intro job o d' hk further ids'
    obtain ⟨jobs', threads', h', lasting⟩ := further.booked h ids'
    exact (known_iff h').2 (lasting job o ((known_iff h).1 hk))
  refine ⟨fun job o entry ended known => accounts h ended known, ?_, stays, ?_⟩
  · intro job entry known terminal
    refine ⟨by simp [Cluster.cancel, known, terminal], ?_⟩
    obtain ⟨o, thread, tells⟩ := h.of_terminal known terminal
    exact ⟨o, (known_iff h).2 thread, tells⟩
  · rintro s job rfl told s' hs
    have both : Cluster.Reaches s.cluster s'.cluster ∧
        told = (s'.cluster.outcome? job).map (EngineError.ofOutcome job) := by
      rcases hs with hs | hs
      · have := s.join_eq job
        rwa [hs] at this
      · have := s.interrupt_eq job
        rwa [hs] at this
    have further := reaches_of_reaches both.1
    refine ⟨further, both.2, ?_⟩
    intro ids' o ended
    rw [both.2, show s'.cluster.outcome? job = some o from stays job o _ ended further ids']
    rfl

/-- A job that is cancelled when its root evaluation is settled already keeps its value. -/
theorem accounts_agree_late : ∃ d entry root,
    Reaches (ofCluster (Cluster.start {} {} (.memory .empty) (.memory .empty))) d ∧
      d.cluster.scopes.isCancelled entry.scope = true ∧
      d.cluster.jobs.get? ⟨Uuid.fresh 0⟩ = some entry ∧
      root ∈ d.cluster.evaluationsOf ⟨Uuid.fresh 0⟩ ∧
      Accounts ⟨Uuid.fresh 0⟩ (.ok .null) entry.job root := by
  have sent : Workflow.decode (Workflow.ret .null).encode = .ok (.ret .null) := by cbv
  have submitted : Cluster.Reaches (Cluster.start {} {} (.memory .empty) (.memory .empty)) _ :=
    .single trivial (rfl : Cluster.after _ (.submit "job" (.ret .null)) = _)
  have begun := submitted.step trivial
    (rfl : Cluster.after _ (.move (.begin ⟨Uuid.fresh 0⟩)) = some _)
  have received := begun.step trivial (rfl : Cluster.after _ (.move (.receive 0)) = some _)
  have started := received.step trivial (Cluster.after_accepted ⟨Uuid.fresh 1⟩ rfl rfl sent)
  have stepped := started.step trivial
    (rfl : Cluster.after _ (.move (.advance ⟨Uuid.fresh 1⟩)) = some _)
  have replied := stepped.step trivial
    (rfl : Cluster.after _ (.move (.advance ⟨Uuid.fresh 1⟩)) = some _)
  have settled := fun c between => (reaches_of_reaches replied).trans
    (reaches_of_settled (b := c) (rfl : Cluster.settleRoot _ ⟨Uuid.fresh 1⟩ =
      some (⟨Uuid.fresh 0⟩, (Response.reply (Outcome.encode (.ok .null))).outcome, _)) between)
  have told := settled _ (.single (by rintro ⟨id, e, ⟨⟩, -⟩)
    (rfl : Cluster.after _ (.cancel ⟨Uuid.fresh 0⟩) = some _))
  obtain ⟨d, entry, run, ids, cancelled, known, ended⟩ : ∃ d entry,
      Reaches (ofCluster (Cluster.start {} {} (.memory .empty) (.memory .empty))) d ∧
        d.cluster.nextId < Uuid.supply ∧ d.cluster.scopes.isCancelled entry.scope = true ∧
        d.cluster.jobs.get? ⟨Uuid.fresh 0⟩ = some entry ∧
        d.cluster.outcome? ⟨Uuid.fresh 0⟩ =
          some (Response.reply (Outcome.encode (.ok .null))).outcome :=
    ⟨_, _, told, by decide, rfl, rfl, rfl⟩
  have value : (Response.reply (Outcome.encode (.ok .null))).outcome = .ok .null := by cbv
  rw [value] at ended
  obtain ⟨root, hr, -, -, accounts⟩ := (accounts_agree run ids).1 ⟨Uuid.fresh 0⟩ _ entry ended known
  exact ⟨d, entry, root, run, cancelled, known, hr, accounts⟩

end Gradual

end WorkflowEngine
