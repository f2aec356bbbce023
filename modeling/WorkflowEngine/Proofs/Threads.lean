import WorkflowEngine.Proofs.Consistency
/-!
The thread of a job waits as long as the job has evaluations, in every state of an engine.
-/
set_option autoImplicit false

namespace WorkflowEngine

namespace Outline

variable {o o' : Outline}

/-- Every evaluation is inside the root evaluation of its job, which is itself or joins. -/
theorem Forked.exists_root (h : o.Forked) {id : EvaluationId} {e : Evaluation}
    (live : o.evaluations.get? id = some e) :
    ∃ top root, o.evaluations.get? top = some root ∧ root.parent = none ∧ root.job = e.job ∧
      (top = id ∨ ∃ f stack, root.phase = .joining f stack) := by
  -- The way up is as long as the path of the scope.
  induction hn : e.scope.around.length using Nat.strongRecOn generalizing id e with
  | ind n ih =>
    cases hp : e.parent with
    | none => exact ⟨id, e, live, hp, rfl, .inl rfl⟩
    | some parent =>
      obtain ⟨pe, f, stack, above, joining, hjob, -, hscope⟩ := h.above live hp
      have hfork := h.fork_scope above joining
      have hlt : pe.scope.around.length < n := by
        rw [← hn, hscope, Scope.path, List.length_cons, hfork, Scope.path, List.length_cons]
        omega
      obtain ⟨top, root, hroot, hnone, hsame, hphase⟩ := ih _ hlt above rfl
      refine ⟨top, root, hroot, hnone, hsame.trans hjob, .inr ?_⟩
      rcases hphase with rfl | hphase
      · cases hroot.symm.trans above
        exact ⟨f, stack, joining⟩
      · exact hphase

theorem Threaded.congr (h : o.Threaded) (hj : o'.jobs = o.jobs) (ht : o'.threads = o.threads)
    (hn : o.nextId ≤ o'.nextId) (hk : o'.StemsFrom o) : o'.Threaded where
  thread_known := by
    intro job t hthread
    exact (h.thread_known (ht ▸ hthread)).mono hn
  thread_of_job := by
    rw [hj, ht]
    exact h.thread_of_job
  job_of_thread := by
    rw [hj, ht]
    exact h.job_of_thread
  submitted_scope := by
    rw [ht]
    exact h.submitted_scope
  thread_of_evaluation := by
    intro id e' live'
    obtain ⟨e, live, hjob, -, -, -⟩ := hk id e' live'
    rw [ht, hjob]
    exact h.thread_of_evaluation live
  root_unique := by
    intro id₁ e₁' id₂ e₂' live₁' live₂' h₁ h₂ hsame
    obtain ⟨e₁, live₁, hj₁, hp₁, -, -⟩ := hk id₁ e₁' live₁'
    obtain ⟨e₂, live₂, hj₂, hp₂, -, -⟩ := hk id₂ e₂' live₂'
    exact h.root_unique live₁ live₂ (hp₁ ▸ h₁) (hp₂ ▸ h₂) (by rw [← hj₁, ← hj₂, hsame])
  root_scope := by
    intro id e' live' hnone
    obtain ⟨e, live, -, hp, hs, -⟩ := hk id e' live'
    rw [hs]
    exact h.root_scope live (hp ▸ hnone)

theorem Threaded.submit (h : o.Threaded) (hn : o.nextId < Uuid.supply) (name : String)
    (w : Workflow) (now : Timestamp) :
    Threaded
      { o with
        jobs := o.jobs.insert ⟨o.newId⟩
          ⟨⟨⟨o.newId⟩, name, .running, now, none, none⟩, (o.scopes.child .root).1⟩
        threads := o.threads.insert ⟨o.newId⟩ (.submitted w (o.scopes.child .root).1)
        scopes := (o.scopes.child .root).2
        nextId := o.nextId + 1 } := by
  have fresh : ∀ {job t}, o.threads.get? job = some t → ⟨o.newId⟩ ≠ job := by
    rintro job t hthread rfl
    exact (h.thread_known hthread).ne_newId hn rfl
  refine
    { h with
      thread_known := ?_
      thread_of_job := ?_
      job_of_thread := ?_
      submitted_scope := ?_
      thread_of_evaluation := ?_ }
  · intro job t hthread
    simp only [Table.get?_insert] at hthread
    split at hthread
    · next hj => exact hj ▸ known_newId (Nat.lt_succ_self _)
    · exact (h.thread_known hthread).mono (Nat.le_succ _)
  · intro job entry hjob
    simp only [Table.get?_insert] at hjob ⊢
    split at hjob
    · next hj =>
      cases hjob
      exact ⟨_, if_pos hj, by simp [Status.isTerminal, JobThread.HasEnded]⟩
    · next hj =>
      rw [if_neg hj]
      exact h.thread_of_job hjob
  · intro job t hthread ht
    simp only [Table.get?_insert] at hthread ⊢
    split at hthread
    · next hj => exact ⟨_, if_pos hj⟩
    · next hj =>
      rw [if_neg hj]
      exact h.job_of_thread hthread ht
  · intro job w' s hthread
    simp only [Table.get?_insert] at hthread
    split at hthread
    · cases hthread
      rfl
    · exact h.submitted_scope hthread
  · intro id e live
    have hthread := h.thread_of_evaluation live
    simp only [Table.get?_insert]
    rw [if_neg (fresh hthread)]
    exact hthread

theorem Threaded.forget (h : o.Threaded) {job : JobId} {entry : JobEntry}
    (known : o.jobs.get? job = some entry) (ended : entry.job.status.isTerminal = true)
    (ledger : Ledger) : Threaded { o with jobs := o.jobs.erase job, ledger } := by
  refine { h with thread_of_job := ?_, job_of_thread := ?_ }
  · intro job' entry' hjob
    simp only [Table.get?_erase] at hjob
    split at hjob
    · cases hjob
    · exact h.thread_of_job hjob
  · intro job' t hthread ht
    simp only [Table.get?_erase]
    split
    · next hj =>
      obtain ⟨t', hthread', hiff⟩ := h.thread_of_job known
      cases (hj ▸ hthread').symm.trans hthread
      exact absurd (hiff.1 ended) ht
    · exact h.job_of_thread hthread ht

theorem Threaded.begin (h : o.Threaded) {job : JobId} {w : Workflow} {scope : Scope}
    (thread : o.threads.get? job = some (.submitted w scope))
    (sent : Dispatched { o with threads := o.threads.insert job .waiting } job none scope w o') :
    o'.Threaded := by
  obtain ⟨p, phase, hget, -⟩ := sent.get?
  obtain ⟨-, hjobs, hthreads, -, hnext⟩ := sent.unchanged
  have idle : ∀ {id e}, o.evaluations.get? id = some e → e.job ≠ job := by
    rintro id e live rfl
    cases (h.thread_of_evaluation live).symm.trans thread
  constructor
  · intro job' t hthread
    rw [hthreads, Table.get?_insert] at hthread
    split at hthread
    · next hj => exact hj ▸ (h.thread_known thread).mono (by simp [hnext])
    · exact (h.thread_known hthread).mono (by simp [hnext])
  · intro job' entry hjob
    rw [hjobs] at hjob
    rw [hthreads]
    obtain ⟨t, ht, hiff⟩ := h.thread_of_job hjob
    simp only [Table.get?_insert]
    split
    · next hj =>
      subst hj
      cases thread.symm.trans ht
      exact ⟨_, rfl, hiff⟩
    · exact ⟨t, ht, hiff⟩
  · intro job' t hthread ht
    rw [hthreads, Table.get?_insert] at hthread
    rw [hjobs]
    split at hthread
    · next hj => exact hj ▸ h.job_of_thread thread (by simp [JobThread.HasEnded])
    · exact h.job_of_thread hthread ht
  · intro job' w' s hthread
    rw [hthreads, Table.get?_insert] at hthread
    split at hthread
    · cases hthread
    · exact h.submitted_scope hthread
  · intro id e live
    rw [hget] at live
    rw [hthreads, Table.get?_insert]
    split at live
    · cases live
      exact if_pos rfl
    · rw [if_neg (Ne.symm (idle live))]
      exact h.thread_of_evaluation live
  · intro id₁ e₁ id₂ e₂ live₁ live₂ h₁ h₂ hsame
    rw [hget] at live₁ live₂
    split at live₁ <;> split at live₂
    · next hid₁ hid₂ => exact hid₁.symm.trans hid₂
    · cases live₁
      exact absurd hsame.symm (idle live₂)
    · cases live₂
      exact absurd hsame (idle live₁)
    · exact h.root_unique live₁ live₂ h₁ h₂ hsame
  · intro id e live hnone
    rw [hget] at live
    split at live
    · cases live
      exact h.submitted_scope thread
    · exact h.root_scope live hnone

theorem Dispatched.threaded {job : JobId} {parent : Parent} {scope : Scope} {w : Workflow}
    (sent : o.Dispatched job (some parent) scope w o') (h : o.Threaded)
    (thread : o.threads.get? job = some .waiting) : o'.Threaded := by
  obtain ⟨p, phase, hget, -⟩ := sent.get?
  obtain ⟨-, hjobs, hthreads, -, hnext⟩ := sent.unchanged
  constructor
  · intro job' t hthread
    exact (h.thread_known (hthreads ▸ hthread)).mono (by simp [hnext])
  · rw [hjobs, hthreads]
    exact h.thread_of_job
  · rw [hjobs, hthreads]
    exact h.job_of_thread
  · rw [hthreads]
    exact h.submitted_scope
  · intro id e live
    rw [hget] at live
    rw [hthreads]
    split at live
    · cases live
      exact thread
    · exact h.thread_of_evaluation live
  · intro id₁ e₁ id₂ e₂ live₁ live₂ h₁ h₂ hsame
    rw [hget] at live₁ live₂
    split at live₁
    · cases live₁
      cases h₁
    · split at live₂
      · cases live₂
        cases h₂
      · exact h.root_unique live₁ live₂ h₁ h₂ hsame
  · intro id e live hnone
    rw [hget] at live
    split at live
    · cases live
      cases hnone
    · exact h.root_scope live hnone

/-- A job ends with its root evaluation, which is the last one. -/
theorem Threaded.collectRoot (h : o.Threaded) (hf : o.Forked) {id : EvaluationId}
    {e : Evaluation} {r : Response} {entry : JobEntry} (now : Timestamp)
    (live : o.evaluations.get? id = some e) (responded : e.phase = .responded r)
    (root : e.parent = none) (ledger : Ledger) :
    Threaded
      { o with
        evaluations := o.evaluations.erase id
        ledger
        threads := o.threads.insert e.job (.ended r.outcome)
        jobs := o.jobs.insert e.job (Cluster.endedEntry entry r.outcome now) } := by
  have last : ∀ {id' e'}, o.evaluations.get? id' = some e' → id ≠ id' → e.job ≠ e'.job := by
    intro id' e' live' hne hjob
    obtain ⟨top, te, htop, hnone, hsame, hphase⟩ := hf.exists_root live'
    cases h.root_unique htop live hnone root (hsame.trans hjob.symm)
    cases htop.symm.trans live
    rcases hphase with rfl | ⟨f, stack, joining⟩
    · exact hne rfl
    · cases responded.symm.trans joining
  constructor
  · intro job t hthread
    simp only [Table.get?_insert] at hthread
    split at hthread
    · next hj => exact hj ▸ (h.thread_known (h.thread_of_evaluation live))
    · exact h.thread_known hthread
  · intro job entry' hjob
    simp only [Table.get?_insert] at hjob ⊢
    split at hjob
    · next hj =>
      cases hjob
      exact ⟨_, if_pos hj, by simp [Cluster.endedEntry, JobThread.HasEnded]⟩
    · next hj =>
      rw [if_neg hj]
      exact h.thread_of_job hjob
  · intro job t hthread ht
    simp only [Table.get?_insert] at hthread ⊢
    split at hthread
    · cases hthread
      exact absurd trivial ht
    · next hj =>
      rw [if_neg hj]
      exact h.job_of_thread hthread ht
  · intro job w s hthread
    simp only [Table.get?_insert] at hthread
    split at hthread
    · cases hthread
    · exact h.submitted_scope hthread
  · intro id' e' live'
    simp only [Table.get?_erase] at live'
    split at live'
    · cases live'
    · next hne =>
      simp only [Table.get?_insert]
      rw [if_neg (last live' hne)]
      exact h.thread_of_evaluation live'
  · intro id₁ e₁ id₂ e₂ live₁ live₂ h₁ h₂ hsame
    simp only [Table.get?_erase] at live₁ live₂
    split at live₁
    · cases live₁
    · split at live₂
      · cases live₂
      · exact h.root_unique live₁ live₂ h₁ h₂ hsame
  · intro id' e' live' hnone
    simp only [Table.get?_erase] at live'
    split at live'
    · cases live'
    · exact h.root_scope live' hnone

theorem Threaded.step {ev : Event} (h : o.Threaded) (hf : o.Forked) (hn : o.nextId < Uuid.supply)
    (s : o.Step ev o') : o'.Threaded := by
  cases s with
  | elapse => exact h
  | arrange => exact h
  | submit now => exact h.submit hn _ _ now
  | cancel => exact h.congr rfl rfl (Nat.le_refl _) (.of_eq rfl)
  | forget known ended => exact h.forget known ended _
  | shutdown => exact h.congr rfl rfl (Nat.le_refl _) (.of_eq rfl)
  | begin thread sent => exact h.begin thread sent
  | receive at_slot inbox live =>
    exact h.congr rfl rfl (Nat.le_refl _) (.update live rfl)
  | close at_slot stopped => exact h.congr rfl rfl (Nat.le_refl _) (.dropAll rfl)
  | shift steps live turn leads later => exact h.congr rfl rfl later.1 (.update live rfl)
  | fork steps live running free forks =>
    exact h.congr rfl rfl (Nat.le_refl _) (.update live rfl)
  | place live joining waiting sent =>
    refine sent.threaded ?_ (h.thread_of_evaluation live)
    exact h.congr rfl rfl (Nat.le_refl _) (.update live rfl)
  | collectRoot now live responded root known =>
    exact h.collectRoot hf now live responded root _
  | @collectChild id e r now parent pe f stack live responded child above joining =>
    have erased : Threaded { o with evaluations := o.evaluations.erase id } :=
      h.congr rfl rfl (Nat.le_refl _) (.erase rfl)
    have hne : id ≠ parent.id := by
      rintro rfl
      cases live.symm.trans above
      cases responded.symm.trans joining
    refine erased.congr rfl rfl (Nat.le_refl _) (.update (e := pe) ?_ rfl)
    simp [hne, above]

end Outline

end WorkflowEngine
