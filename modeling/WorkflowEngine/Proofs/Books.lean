import WorkflowEngine.Proofs.JobEnds
import WorkflowEngine.Proofs.StructuredConcurrency
/-!
While a job ends step by step, what is shown of it lags behind. Books that are kept at once, with
what will be entered and told, stay consistent; what is shown differs from them only as far as the
end of the job has come.
-/
set_option autoImplicit false

namespace WorkflowEngine

namespace Ledger

/-- A record that has ended stays as it is. -/
theorem mem_finish_of_terminal {l : Ledger} {r : EvaluationRecord} (hr : r ∈ l.records)
    (ended : r.status.isTerminal = true) (id : EvaluationId) (status : Status) (now : Timestamp) :
    r ∈ (l.finish id status now).records := by
  refine mem_finish.2 ?_
  by_cases hid : r.id = id
  · refine .inr ⟨r, hr, hid, ?_⟩
    simp [EvaluationRecord.finish, ended]
  · exact .inl ⟨hr, hid⟩

end Ledger

namespace Outline

variable {o o' : Outline} {job : JobId}

/-- A job that has ended, as long as it is known, has a root record that tells how. -/
def RootsTold (o : Outline) : Prop :=
  ∀ job outcome entry, o.threads.get? job = some (.ended outcome) →
    o.jobs.get? job = some entry →
    ∃ r ∈ o.ledger.records, r.job = job ∧ r.parent = none ∧ r.status = outcome.status

theorem RootsTold.congr (h : o.RootsTold)
    (ht : ∀ {job outcome}, o'.threads.get? job = some (.ended outcome) →
      o.threads.get? job = some (.ended outcome))
    (hj : ∀ {job outcome entry}, o.threads.get? job = some (.ended outcome) →
      o'.jobs.get? job = some entry → ∃ entry', o.jobs.get? job = some entry')
    (hl : ∀ {r entry}, r ∈ o.ledger.records → r.status.isTerminal = true →
      o'.jobs.get? r.job = some entry → r ∈ o'.ledger.records) : o'.RootsTold := by
  intro job outcome entry thread known
  obtain ⟨entry', known'⟩ := hj (ht thread) known
  obtain ⟨r, hr, rfl, top, hs⟩ := h _ _ _ (ht thread) known'
  exact ⟨r, hl hr (by rw [hs]; exact outcome.isTerminal_status) known, rfl, top, hs⟩

theorem RootsTold.frame (h : o.RootsTold) (ht : o'.threads = o.threads) (hj : o'.jobs = o.jobs)
    (hl : ∀ {r}, r ∈ o.ledger.records → r.status.isTerminal = true → r ∈ o'.ledger.records) :
    o'.RootsTold :=
  h.congr (fun h => ht ▸ h) (fun _ h => ⟨_, hj ▸ h⟩) fun hr ended _ => hl hr ended

theorem RootsTold.step {ev : Event} (h : o.RootsTold) (hc : o.Consistent) (hr : o.Recorded)
    (hn : o.nextId < Uuid.supply) (s : o.Step ev o') : o'.RootsTold := by
  cases s with
  | submit now =>
    have fresh : ∀ {job t}, o.threads.get? job = some t → ⟨o.newId⟩ ≠ job := by
      rintro job t hthread rfl
      exact (hc.thread_known hthread).ne_newId hn rfl
    refine h.congr ?_ ?_ fun hr _ _ => hr
    · intro job outcome thread
      rw [Table.get?_insert] at thread
      split at thread
      · cases thread
      · exact thread
    · intro job outcome entry thread known
      rw [Table.get?_insert, if_neg (fresh thread)] at known
      exact ⟨entry, known⟩
  | @forget job entry known ended =>
    refine h.congr (fun h => h) ?_ ?_
    · intro job' outcome entry' thread known'
      rw [Table.get?_erase] at known'
      split at known'
      · cases known'
      · exact ⟨entry', known'⟩
    · intro r entry' hr _ known'
      refine Ledger.mem_prune.2 ⟨hr, ?_⟩
      rintro rfl
      rw [Table.get?_erase, if_pos rfl] at known'
      cases known'
  | begin thread sent =>
    obtain ⟨-, hjobs, hthreads, -, -⟩ := sent.unchanged
    obtain ⟨worker, now, hl⟩ := sent.ledger
    refine h.congr ?_ (fun _ h => ⟨_, hjobs ▸ h⟩) fun hr _ _ => hl ▸ Ledger.mem_add.2 (.inl hr)
    intro job' outcome thread'
    rw [hthreads, Table.get?_insert] at thread'
    split at thread'
    · cases thread'
    · exact thread'
  | place live joining waiting sent =>
    obtain ⟨-, hjobs, hthreads, -, -⟩ := sent.unchanged
    obtain ⟨worker, now, hl⟩ := sent.ledger
    exact h.frame hthreads hjobs fun hr _ => hl ▸ Ledger.mem_add.2 (.inl hr)
  | @collectRoot id e response entry now live responded root known =>
    intro job outcome entry' thread known'
    rw [Table.get?_insert] at thread known'
    split at thread
    · next hjob =>
      subst hjob
      cases thread
      obtain ⟨r, hm, hid, hsame, hparent, running⟩ := hr.record_of_evaluation live
      refine ⟨_, Ledger.mem_finish.2 (.inr ⟨r, hm, hid, rfl⟩), ?_, ?_, ?_⟩
      · rw [EvaluationRecord.job_finish, hsame]
      · rw [EvaluationRecord.parent_finish, hparent, root]
        rfl
      · simp [EvaluationRecord.finish, running, Status.isTerminal]
    · next hjob =>
      rw [if_neg hjob] at known'
      obtain ⟨r, hm, hsame, top, hs⟩ := h _ _ _ thread known'
      refine ⟨r, Ledger.mem_finish_of_terminal hm ?_ _ _ _, hsame, top, hs⟩
      rw [hs]
      exact outcome.isTerminal_status
  | collectChild now live responded child above joining =>
    exact h.frame rfl rfl fun hr ended => Ledger.mem_finish_of_terminal hr ended _ _ _
  | _ => exact h.frame rfl rfl fun hr _ => hr

/-- The thread of a job ends once. -/
theorem Step.ended_kept {ev : Event} (s : o.Step ev o') (hn : o.nextId < Uuid.supply)
    (given : o.Known job.uuid)
    (busy : ∀ {id e}, o.evaluations.get? id = some e → o.threads.get? e.job = some .waiting)
    {outcome : Outcome} (ended : o.threads.get? job = some (.ended outcome)) :
    o'.threads.get? job = some (.ended outcome) := by
  cases s with
  | submit now =>
    rw [Table.get?_insert, if_neg]
    · exact ended
    · rintro rfl
      exact given.ne_newId hn rfl
  | begin thread sent =>
    obtain ⟨-, -, hthreads, -, -⟩ := sent.unchanged
    rw [hthreads, Table.get?_insert, if_neg]
    · exact ended
    · rintro rfl
      cases thread.symm.trans ended
  | place live joining waiting sent =>
    obtain ⟨-, -, hthreads, -, -⟩ := sent.unchanged
    rw [hthreads]
    exact ended
  | collectRoot now live responded root known =>
    rw [Table.get?_insert, if_neg]
    · exact ended
    · rintro rfl
      cases (busy live).symm.trans ended
  | _ => exact ended

theorem Step.lasting {ev : Event} (s : o.Step ev o') (hc : o.Consistent)
    (hn : o.nextId < Uuid.supply) {outcome : Outcome}
    (ended : o.threads.get? job = some (.ended outcome)) :
    o'.threads.get? job = some (.ended outcome) :=
  s.ended_kept hn (hc.thread_known ended) hc.thread_of_evaluation ended

/-- To cancel a scope, of a job or not, keeps an outline consistent. -/
theorem Consistent.cancelScope (h : o.Consistent) (s : Scope) :
    Consistent { o with scopes := o.scopes.cancel s } :=
  ⟨h.toMailed.frame rfl rfl rfl (ScopeTree.isCancelled_cancel _),
    h.toThreaded.congr rfl rfl (Nat.le_refl _) (.of_eq rfl),
    h.toForked.frame (Nat.le_refl _) rfl⟩

/-- An outline with other entries and threads of jobs. -/
def withBooks (o : Outline) (jobs : Table JobId JobEntry) (threads : Table JobId JobThread) :
    Outline :=
  { o with jobs, threads }

theorem Dispatched.withBooks {parent : Option Parent} {scope : Scope} {w : Workflow}
    (sent : o.Dispatched job parent scope w o') (jobs : Table JobId JobEntry)
    (threads : Table JobId JobThread) :
    (o.withBooks jobs threads).Dispatched job parent scope w (o'.withBooks jobs threads) := by
  cases sent with
  | sent now at_slot listens => exact .sent (o := o.withBooks jobs threads) now at_slot listens
  | refused now at_slot stopped =>
    exact .refused (o := o.withBooks jobs threads) now at_slot stopped

end Outline

/-- Whether an entry tells an outcome. -/
def JobEntry.Tells (entry : JobEntry) (o : Outcome) : Prop :=
  ∃ before now, entry = Cluster.endedEntry before o now

/-- What is shown of a job, on the left of each pair, and what the books say, on the right, as far
as the end of the job has come. -/
inductive Page : Option Ending → Option JobThread → Option JobThread → Option JobEntry →
    Option JobEntry → Prop
  | unended {t : Option JobThread} {e : Option JobEntry} (h : ∀ o, t ≠ some (.ended o)) :
      Page none t t e e
  | settled {o : Outcome} {entry entry' : JobEntry}
      (running : entry.job.status.isTerminal = false) :
      Page (some (.settled o)) (some .waiting) (some (.ended o)) (some entry) (some entry')
  | entered {o : Outcome} {e e' : Option JobEntry} (known : e.isSome = e'.isSome)
      (tells : ∀ entry, e = some entry → entry.Tells o) :
      Page (some (.entered o)) (some .waiting) (some (.ended o)) e e'
  | told {o : Outcome} {e e' : Option JobEntry} (known : e.isSome = e'.isSome)
      (tells : ∀ entry, e = some entry → entry.Tells o) :
      Page none (some (.ended o)) (some (.ended o)) e e'

namespace Page

variable {ending : Option Ending} {t t' : Option JobThread} {e e' : Option JobEntry}

theorem isSome_eq (p : Page ending t t' e e') : e.isSome = e'.isSome := by
  cases p with
  | unended => rfl
  | settled => rfl
  | entered known => exact known
  | told known => exact known

/-- As long as a job has not ended, all is shown as it is. -/
theorem of_unended (p : Page ending t t' e e') (h : ∀ o, t' ≠ some (.ended o)) :
    ending = none ∧ t = t' ∧ e = e' := by
  cases p with
  | unended => exact ⟨rfl, rfl, rfl⟩
  | settled => exact absurd rfl (h _)
  | entered => exact absurd rfl (h _)
  | told => exact absurd rfl (h _)

theorem of_none (p : Page none t t' e e') : t = t' := by
  cases p with
  | unended => rfl
  | told => rfl

theorem exists_thread {shown : JobThread} (p : Page ending (some shown) t' e e') :
    ∃ booked, t' = some booked := by
  cases p with
  | unended => exact ⟨_, rfl⟩
  | settled => exact ⟨_, rfl⟩
  | entered => exact ⟨_, rfl⟩
  | told => exact ⟨_, rfl⟩

theorem of_ending {ending : Ending} (p : Page (some ending) t t' e e') :
    t' = some (.ended ending.outcome) := by
  cases p with
  | settled => rfl
  | entered => rfl

theorem of_told {o : Outcome} (p : Page ending (some (.ended o)) t' e e') :
    t' = some (.ended o) ∧ ∀ entry, e = some entry → entry.Tells o := by
  cases p with
  | unended h => exact absurd rfl (h o)
  | told known tells => exact ⟨rfl, tells⟩

theorem of_submitted {w : Workflow} {scope : Scope}
    (p : Page ending (some (.submitted w scope)) t' e e') :
    ending = none ∧ t' = some (.submitted w scope) ∧ e = e' := by
  cases p with
  | unended => exact ⟨rfl, rfl, rfl⟩

theorem of_settled {o : Outcome} (p : Page (some (.settled o)) t t' e e') :
    ∃ entry, e = some entry := by
  cases p with
  | settled => exact ⟨_, rfl⟩

theorem of_terminal {entry : JobEntry} (p : Page ending t t' (some entry) e')
    (ended : entry.job.status.isTerminal = true) :
    (∃ o, t' = some (.ended o) ∧ entry.Tells o) ∨
      (e' = some entry ∧ ∀ o, t' ≠ some (.ended o)) := by
  cases p with
  | unended h => exact .inr ⟨rfl, h⟩
  | settled running => simp [ended] at running
  | entered known tells => exact .inl ⟨_, rfl, tells _ rfl⟩
  | told known tells => exact .inl ⟨_, rfl, tells _ rfl⟩

theorem forget {entry : JobEntry} (p : Page ending t t' (some entry) e')
    (ended : entry.job.status.isTerminal = true) : Page ending t t' none none := by
  cases p with
  | unended h => exact .unended h
  | settled running => simp [ended] at running
  | entered => exact .entered rfl (by simp)
  | told => exact .told rfl (by simp)

end Page

namespace Outline

/-- What is shown of each job agrees with the books, which are consistent. -/
structure Booked (o : Outline) (endings : JobId → Option Ending) (jobs : Table JobId JobEntry)
    (threads : Table JobId JobThread) : Prop where
  consistent : (o.withBooks jobs threads).Consistent
  recorded : (o.withBooks jobs threads).Recorded
  roots : (o.withBooks jobs threads).RootsTold
  page : ∀ job, Page (endings job) (o.threads.get? job) (threads.get? job) (o.jobs.get? job)
    (jobs.get? job)

/-- Whether books go on to tell of the end of each job that has ended. -/
def Lasting (threads threads' : Table JobId JobThread) : Prop :=
  ∀ job outcome, threads.get? job = some (.ended outcome) →
    threads'.get? job = some (.ended outcome)

theorem Lasting.refl (threads : Table JobId JobThread) : Lasting threads threads :=
  fun _ _ ended => ended

theorem Lasting.trans {threads threads' threads'' : Table JobId JobThread}
    (h : Lasting threads threads') (h' : Lasting threads' threads'') : Lasting threads threads'' :=
  fun job outcome ended => h' job outcome (h job outcome ended)

namespace Booked

variable {o o' : Outline} {endings : JobId → Option Ending}
  {jobs jobs' : Table JobId JobEntry} {threads threads' : Table JobId JobThread}

theorem mailed (h : o.Booked endings jobs threads) : o.Mailed :=
  h.consistent.toMailed.frame rfl rfl rfl id

theorem forked (h : o.Booked endings jobs threads) : o.Forked :=
  h.consistent.toForked.frame (Nat.le_refl _) rfl

/-- The job of an evaluation has not ended. -/
theorem of_evaluation (h : o.Booked endings jobs threads) {id : EvaluationId} {e : Evaluation}
    (live : o.evaluations.get? id = some e) :
    threads.get? e.job = some .waiting ∧ endings e.job = none ∧
      o.threads.get? e.job = some .waiting ∧ o.jobs.get? e.job = jobs.get? e.job := by
  have hwait : threads.get? e.job = some .waiting := h.consistent.thread_of_evaluation live
  obtain ⟨hnone, ht, hj⟩ := (h.page e.job).of_unended (by simp [hwait])
  exact ⟨hwait, hnone, ht.trans hwait, hj⟩

theorem exists_entry (h : o.Booked endings jobs threads) {id : EvaluationId} {e : Evaluation}
    (live : o.evaluations.get? id = some e) : ∃ entry, o.jobs.get? e.job = some entry := by
  obtain ⟨hwait, -, -, hj⟩ := h.of_evaluation live
  rw [hj]
  exact h.consistent.job_of_thread hwait (by simp [JobThread.HasEnded])

/-- What changes the books as an event does keeps them. -/
theorem of_step {ev : Event} (h : o.Booked endings jobs threads) (hn : o.nextId < Uuid.supply)
    (s : (o.withBooks jobs threads).Step ev (o'.withBooks jobs' threads'))
    (page : ∀ job, Page (endings job) (o'.threads.get? job) (threads'.get? job)
      (o'.jobs.get? job) (jobs'.get? job)) :
    o'.Booked endings jobs' threads' ∧ Lasting threads threads' :=
  ⟨⟨h.consistent.step hn s, h.recorded.step h.consistent hn s,
    h.roots.step h.consistent h.recorded hn s, page⟩, fun _ _ => s.lasting h.consistent hn⟩

/-- Most events have nothing to do with the books. -/
theorem quiet {ev : Event} (h : o.Booked endings jobs threads) (hn : o.nextId < Uuid.supply)
    (hj : o'.jobs = o.jobs) (ht : o'.threads = o.threads)
    (s : (o.withBooks jobs threads).Step ev (o'.withBooks jobs threads)) :
    ∃ jobs' threads', o'.Booked endings jobs' threads' ∧ Lasting threads threads' := by
  refine ⟨jobs, threads, h.of_step hn s ?_⟩
  rw [hj, ht]
  exact h.page

theorem submit (h : o.Booked endings jobs threads) (hn : o.nextId < Uuid.supply) (name : String)
    (w : Workflow) (now : Timestamp) :
    ∃ jobs' threads', Booked
      { o with
        jobs := o.jobs.insert ⟨o.newId⟩
          ⟨⟨⟨o.newId⟩, name, .running, now, none, none⟩, (o.scopes.child .root).1⟩
        threads := o.threads.insert ⟨o.newId⟩ (.submitted w (o.scopes.child .root).1)
        scopes := (o.scopes.child .root).2
        nextId := o.nextId + 1 } endings jobs' threads' ∧ Lasting threads threads' := by
  have s : (o.withBooks jobs threads).Step (.submit name w) _ := .submit now
  refine ⟨_, _, h.of_step hn s ?_⟩
  intro job
  simp only [Table.get?_insert]
  by_cases hjob : ⟨o.newId⟩ = job
  · have fresh : ∀ outcome, threads.get? job ≠ some (.ended outcome) := by
      intro outcome thread
      subst hjob
      have known : (o.withBooks jobs threads).Known o.newId := h.consistent.thread_known thread
      exact known.ne_newId hn rfl
    obtain ⟨hnone, -, -⟩ := (h.page job).of_unended fresh
    simp only [withBooks, newId] at hjob ⊢
    simp only [hjob, if_true, hnone]
    exact .unended (by simp)
  · simp only [withBooks, newId] at hjob ⊢
    simp only [hjob, if_false]
    exact h.page job

/-- A late cancel changes nothing of what the books say. -/
theorem cancelScope (h : o.Booked endings jobs threads) (s : Scope) :
    Booked { o with scopes := o.scopes.cancel s } endings jobs threads :=
  ⟨h.consistent.cancelScope s,
    h.recorded.congr rfl (Nat.le_refl _) (.of_eq rfl) (.of_eq rfl) fun ht hb => ⟨_, ht, hb⟩,
    h.roots.frame rfl rfl fun hr _ => hr, h.page⟩

/-- A job is shown as ended only when its end has been entered. -/
theorem of_terminal (h : o.Booked endings jobs threads) {job : JobId} {entry : JobEntry}
    (known : o.jobs.get? job = some entry) (ended : entry.job.status.isTerminal = true) :
    ∃ outcome, threads.get? job = some (.ended outcome) ∧ entry.Tells outcome := by
  have page := h.page job
  rw [known] at page
  rcases page.of_terminal ended with told | ⟨hsame, unended⟩
  · exact told
  · obtain ⟨t, thread, hiff⟩ := h.consistent.thread_of_job hsame
    cases t with
    | ended outcome => exact absurd thread (unended outcome)
    | _ => exact (hiff.1 ended).elim

/-- An entry that tells the end of its job can be dropped. -/
theorem dropEntry (h : o.Booked endings jobs threads) {job : JobId} {entry : JobEntry}
    (known : o.jobs.get? job = some entry) (ended : entry.job.status.isTerminal = true) :
    Booked { o with jobs := o.jobs.erase job } endings (jobs.erase job) threads := by
  have page := h.page job
  rw [known] at page
  obtain ⟨entry', known'⟩ := Option.isSome_iff_exists.1 page.isSome_eq.symm
  have ended' : entry'.job.status.isTerminal = true := by
    obtain ⟨outcome, thread, -⟩ := h.of_terminal known ended
    obtain ⟨t, ht, hiff⟩ := h.consistent.thread_of_job known'
    cases thread.symm.trans ht
    exact hiff.2 trivial
  refine ⟨⟨h.consistent.toMailed.frame rfl rfl rfl id,
      h.consistent.toThreaded.forget known' ended' _,
      h.consistent.toForked.frame (Nat.le_refl _) rfl⟩,
    h.recorded.congr rfl (Nat.le_refl _) (.of_eq rfl) (.of_eq rfl) fun ht hb => ⟨_, ht, hb⟩,
    h.roots.congr (fun ht => ht) ?_ fun hr _ _ => hr, ?_⟩
  · intro job' outcome entry'' _ left
    simp only [withBooks, Table.get?_erase] at left
    split at left
    · cases left
    · exact ⟨entry'', left⟩
  · intro job'
    simp only [Table.get?_erase]
    split
    · next hjob => exact hjob ▸ page.forget ended
    · exact h.page job'

/-- The records of a job that has ended can be dropped with its entry. -/
theorem dropRecords (h : o.Booked endings jobs threads) {job : JobId} {outcome : Outcome}
    (thread : threads.get? job = some (.ended outcome)) (gone : o.jobs.get? job = none) :
    Booked { o with ledger := (o.ledger.prune job).2 } endings jobs threads := by
  refine ⟨⟨h.consistent.toMailed.frame rfl rfl rfl id,
      h.consistent.toThreaded.congr rfl rfl (Nat.le_refl _) (.of_eq rfl),
      h.consistent.toForked.frame (Nat.le_refl _) rfl⟩,
    h.recorded.prune ?_ jobs, h.roots.congr (fun ht => ht) (fun _ hj => ⟨_, hj⟩) ?_, h.page⟩
  · rintro id e live rfl
    cases (h.consistent.thread_of_evaluation live).symm.trans thread
  · rintro r entry hr - known
    refine Ledger.mem_prune.2 ⟨hr, ?_⟩
    rintro rfl
    have page := h.page r.job
    rw [gone, show jobs.get? r.job = some entry from known] at page
    cases page.isSome_eq

theorem begin (h : o.Booked endings jobs threads) (hn : o.nextId < Uuid.supply) {job : JobId}
    {w : Workflow} {scope : Scope} (thread : o.threads.get? job = some (.submitted w scope))
    (sent : Dispatched { o with threads := o.threads.insert job .waiting } job none scope w o') :
    ∃ jobs' threads', o'.Booked endings jobs' threads' ∧ Lasting threads threads' := by
  have page := h.page job
  rw [thread] at page
  obtain ⟨hnone, thread', hsame⟩ := page.of_submitted
  obtain ⟨-, hjobs, hthreads, -, -⟩ := sent.unchanged
  refine ⟨_, _, h.of_step hn (.begin (o := o.withBooks jobs threads) thread'
    (sent.withBooks jobs (threads.insert job .waiting))) ?_⟩
  intro job'
  rw [hjobs, hthreads]
  simp only [Table.get?_insert]
  split
  · next hjob =>
    subst hjob
    rw [hnone, hsame]
    exact .unended (by simp)
  · exact h.page job'

theorem event {ev : Event} (h : o.Booked endings jobs threads) (hn : o.nextId < Uuid.supply)
    (s : o.Step ev o')
    (open_ended : ∀ id e, ev = .move (.collect id) → o.evaluations.get? id = some e →
      e.parent ≠ none) :
    ∃ jobs' threads', o'.Booked endings jobs' threads' ∧ Lasting threads threads' := by
  cases s with
  | elapse => exact ⟨jobs, threads, h, .refl threads⟩
  | arrange => exact ⟨jobs, threads, h, .refl threads⟩
  | submit now => exact h.submit hn _ _ now
  | cancel => exact ⟨jobs, threads, h.cancelScope _, .refl threads⟩
  | forget known ended =>
    obtain ⟨outcome, thread, -⟩ := h.of_terminal known ended
    exact ⟨_, threads, (h.dropEntry known ended).dropRecords thread (by simp), .refl threads⟩
  | shutdown => exact ⟨jobs, threads, h.cancelScope _, .refl threads⟩
  | begin thread sent => exact h.begin hn thread sent
  | receive at_slot inbox live =>
    exact h.quiet hn rfl rfl (.receive (o := o.withBooks jobs threads) at_slot inbox live)
  | close at_slot stopped =>
    exact h.quiet hn rfl rfl (.close (o := o.withBooks jobs threads) at_slot stopped)
  | shift steps live turn leads later =>
    exact h.quiet hn rfl rfl (.shift (o := o.withBooks jobs threads) steps live turn leads later)
  | fork steps live running free forks =>
    exact h.quiet hn rfl rfl (.fork (o := o.withBooks jobs threads) steps live running free forks)
  | place live joining waiting sent =>
    obtain ⟨-, hjobs, hthreads, -, -⟩ := sent.unchanged
    exact h.quiet hn hjobs hthreads (.place (o := o.withBooks jobs threads) live joining waiting
      (sent.withBooks jobs threads))
  | collectRoot now live responded root known => exact absurd root (open_ended _ _ rfl live)
  | collectChild now live responded child above joining =>
    exact h.quiet hn rfl rfl
      (.collectChild (o := o.withBooks jobs threads) now live responded child above joining)

theorem settle (h : o.Booked endings jobs threads) (hn : o.nextId < Uuid.supply)
    {id : EvaluationId} {e : Evaluation} {r : Response} (now : Timestamp)
    (live : o.evaluations.get? id = some e) (responded : e.phase = .responded r)
    (root : e.parent = none) :
    ∃ jobs' threads', Booked
      { o with
        evaluations := o.evaluations.erase id
        ledger := o.ledger.finish id r.outcome.status now }
      (Function.update endings e.job (some (.settled r.outcome))) jobs' threads' ∧
      Lasting threads threads' := by
  obtain ⟨hwait, hnone, hthread, hsame⟩ := h.of_evaluation live
  obtain ⟨entry, known⟩ := h.exists_entry live
  have s := Step.collectRoot (o := o.withBooks jobs threads) now live responded root
    (hsame.symm.trans known)
  have hc := h.consistent.step hn s
  have running : entry.job.status.isTerminal = false := by
    obtain ⟨t, ht, hiff⟩ := h.consistent.thread_of_job (hsame.symm.trans known)
    cases hwait.symm.trans ht
    exact eq_false_of_ne_true fun ended => hiff.1 ended
  refine ⟨_, _, ⟨hc, h.recorded.step h.consistent hn s,
    h.roots.step h.consistent h.recorded hn s, ?_⟩, fun _ _ => s.lasting h.consistent hn⟩
  intro job
  simp only [withBooks, Table.get?_insert]
  by_cases hjob : e.job = job
  · subst hjob
    simp only [Function.update_self, if_true, hthread, known]
    exact .settled running
  · rw [Function.update_of_ne (Ne.symm hjob), if_neg hjob, if_neg hjob]
    exact h.page job

theorem enter (h : o.Booked endings jobs threads) {job : JobId} {outcome : Outcome}
    (ending : endings job = some (.settled outcome)) {entry : JobEntry}
    (known : o.jobs.get? job = some entry) (now : Timestamp) :
    Booked { o with jobs := o.jobs.insert job (Cluster.endedEntry entry outcome now) }
      (Function.update endings job (some (.entered outcome))) jobs threads := by
  refine ⟨h.consistent, h.recorded, h.roots, ?_⟩
  intro job'
  by_cases hjob : job = job'
  · subst hjob
    have page := h.page job
    simp only [Table.get?_insert, Function.update_self, if_true]
    generalize o.threads.get? job = t, threads.get? job = t', jobs.get? job = e' at page ⊢
    rw [ending, known] at page
    cases page with
    | settled running =>
      refine .entered rfl ?_
      rintro _ ⟨⟩
      exact ⟨entry, now, rfl⟩
  · simp only [Table.get?_insert]
    rw [Function.update_of_ne (Ne.symm hjob), if_neg hjob]
    exact h.page job'

theorem tell (h : o.Booked endings jobs threads) {job : JobId} {outcome : Outcome}
    (ending : endings job = some (.entered outcome)) :
    Booked { o with threads := o.threads.insert job (.ended outcome) }
      (Function.update endings job none) jobs threads := by
  refine ⟨h.consistent, h.recorded, h.roots, ?_⟩
  intro job'
  by_cases hjob : job = job'
  · subst hjob
    have page := h.page job
    simp only [Table.get?_insert, Function.update_self, if_true]
    generalize o.threads.get? job = t, threads.get? job = t', jobs.get? job = e',
      o.jobs.get? job = e at page ⊢
    rw [ending] at page
    cases page with
    | entered known tells => exact .told known tells
  · simp only [Table.get?_insert]
    rw [Function.update_of_ne (Ne.symm hjob), if_neg hjob]
    exact h.page job'

end Booked

end Outline

end WorkflowEngine
