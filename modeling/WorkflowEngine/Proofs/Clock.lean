import WorkflowEngine.Proofs.Draining
/-!
The clock of an engine. No move takes time, and pauses begin and end by the clock. A state in which
no move is possible only waits: for moments to come, and for the children that wait for them.
-/
set_option autoImplicit false

namespace WorkflowEngine

namespace Cluster

variable {c c' : Cluster}

theorem now_wake (c : Cluster) (t : Thread) : (c.wake t).now = c.now := by
  unfold wake
  split <;> rfl

theorem now_foldl_wake {α : Type} (f : α → Thread) (l : List α) (c : Cluster) :
    (l.foldl (fun c a => c.wake (f a)) c).now = c.now := by
  induction l generalizing c with
  | nil => rfl
  | cons a rest ih => rw [List.foldl_cons, ih, now_wake]

theorem now_respond (c : Cluster) (id : EvaluationId) (e : Evaluation) (r : Response) :
    (c.respond id e r).now = c.now :=
  now_wake _ _

theorem now_cancelScope (c : Cluster) (s : Scope) : (c.cancelScope s).now = c.now :=
  now_foldl_wake (fun entry : EvaluationId × Evaluation => .evaluation entry.1) _ _

theorem now_dispatch (c : Cluster) (job : JobId) (parent : Option Parent) (scope : Scope)
    (w : Workflow) : (c.dispatch job parent scope w).now = c.now := by
  unfold dispatch
  simp only [freshId]
  split
  · exact now_respond _ _ _ _
  · unfold send
    split
    · split
      · exact now_wake _ _
      · exact now_respond _ _ _ _
    · exact now_respond _ _ _ _

theorem now_remember (c : Cluster) (e : Evaluation) (key : Key) (data : Bytes) :
    (c.remember e key data).now = c.now := by
  unfold remember
  split <;> rfl

theorem now_serve (c : Cluster) (e : Evaluation) (r : Request) : (c.serve e r).2.now = c.now := by
  cases r with
  | remember key data => exact now_remember c e key data
  | _ => rfl

theorem now_runMachine (c : Cluster) (id : EvaluationId) (e : Evaluation) (m : Machine) :
    (c.runMachine id e m).now = c.now := by
  unfold runMachine
  split
  · rfl
  · exact now_respond _ _ _ _
  · exact now_respond _ _ _ _
  · unfold fork
    split <;> rfl
  · split <;> rfl

theorem now_request {id : EvaluationId} {e : Evaluation} {due : Option Nat} {stack : List Frame}
    {r : Request} {next : r.Answer → Program (Reply Value)}
    (h : c.request id e due stack r next = some c') : c'.now = c.now := by
  unfold request at h
  split at h
  · split at h
    · cases h
      rfl
    · split at h <;> cases h
      rfl
  · change some ((c.serve e r).2.setPhase id e (.operating (next (c.serve e r).1) none stack)) =
      some c' at h
    rw [← Option.some.inj h]
    exact now_serve c e r

theorem now_take {id : EvaluationId} {e : Evaluation} {t : Turn} (h : c.take id e t = some c') :
    c'.now = c.now := by
  cases t with
  | step m =>
    cases h
    exact now_runMachine _ _ _ _
  | ask r next due stack => exact now_request h
  | place w rest f stack =>
    cases h
    exact now_dispatch _ _ _ _ _
  | resume stack o =>
    cases h
    rfl
  | start w =>
    cases h
    rfl
  | reply o =>
    cases h
    exact now_respond _ _ _ _

theorem now_arrive (c : Cluster) (parent : Parent) (o : Outcome) :
    (c.arrive parent o).now = c.now := by
  simp only [arrive]
  split
  · split
    · split
      · exact now_cancelScope _ _
      · rfl
    · rfl
  · rfl

theorem now_endJob (c : Cluster) (job : JobId) (o : Outcome) : (c.endJob job o).now = c.now := by
  simp only [endJob]
  split <;> rfl

theorem now_foldl_dropDelivery (worker : WorkerId) (ds : List Delivery) (c : Cluster) :
    (ds.foldl (dropDelivery worker) c).now = c.now := by
  induction ds generalizing c with
  | nil => rfl
  | cons d rest ih =>
    rw [List.foldl_cons, ih]
    unfold dropDelivery
    split
    · exact now_respond _ _ _ _
    · rfl

theorem now_step {m : Move} (h : c.step m = some c') : c'.now = c.now := by
  cases m with
  | begin job =>
    obtain ⟨w, scope, -, rfl⟩ := begin_cases h
    exact now_dispatch _ _ _ _ _
  | receive i =>
    obtain ⟨worker, d, rest, -, -, -, ⟨e, -, rfl⟩ | ⟨-, rfl⟩⟩ := receive_cases h
    · exact now_wake _ _
    · rfl
  | close i =>
    obtain ⟨worker, -, -, -, rfl⟩ := close_cases h
    exact now_foldl_dropDelivery _ _ _
  | advance id =>
    obtain ⟨e, t, -, -, h⟩ := advance_cases h
    exact now_take h
  | collect id =>
    obtain ⟨e, r, o, dispatcher, -, -, -, ⟨parent, -, rfl⟩ | ⟨-, rfl⟩⟩ := collect_cases h
    · exact now_arrive _ _ _
    · exact now_endJob _ _ _

theorem now_elapseTo (c : Cluster) (time : Nat) : (c.elapseTo time).now = max c.now time :=
  now_foldl_wake (fun due : EvaluationId × Nat => Thread.evaluation due.1) _ _

/-- The clock moves on by itself only. -/
theorem now_after {ev : Event} (h : c.after ev = some c') :
    c'.now = c.now ∨ ∃ time, ev = .elapse time ∧ c'.now = max c.now time := by
  cases ev with
  | submit name w =>
    cases h
    exact .inl (now_wake _ _)
  | cancel job =>
    obtain ⟨entry, -, -, rfl⟩ := cancel_cases h
    exact .inl (now_cancelScope _ _)
  | forget job =>
    obtain ⟨entry, -, -, rfl⟩ := forget_cases h
    exact .inl rfl
  | shutdown =>
    cases h
    unfold shutdown
    rw [now_foldl_wake (fun i => Thread.worker i), now_cancelScope]
    exact .inl rfl
  | elapse time =>
    cases h
    exact .inr ⟨time, rfl, now_elapseTo c time⟩
  | arrange ready =>
    cases h
    exact .inl rfl
  | move m => exact .inl (now_step h)

/-- What a turn leads to by the clock. A pause is planned first, and is over when its moment has
come. -/
def Turn.Clocked (now : Nat) (phase : Phase) : Turn → Prop
  | .ask (.pause micros) next none stack =>
    phase = .operating (.ask (.pause micros) next) (some (now + millisOf micros)) stack
  | .ask (.pause _) next (some due) stack => due ≤ now ∧ phase = .operating (next ()) none stack
  | _ => True

theorem advance_clocked {id : EvaluationId} {e e' : Evaluation} {t : Turn}
    (live : c.evaluations.get? id = some e) (ht : turn c.scopes e = some t)
    (h : c.advance id = some c') (live' : c'.evaluations.get? id = some e') :
    t.Clocked c.now e'.phase := by
  rw [advance_eq live, ht, Option.bind_some] at h
  cases t with
  | ask r next due stack =>
    cases r with
    | pause micros =>
      simp only [take, request] at h
      cases due with
      | none =>
        cases h
        rw [get?_setPhase] at live'
        cases live'
        rfl
      | some due =>
        simp only at h
        split at h <;> cases h
        rw [get?_setPhase] at live'
        cases live'
        exact ⟨‹_›, rfl⟩
    | _ => trivial
  | _ => trivial

/-- A job is completed when its root evaluation is collected. -/
theorem collect_completedAt {id : EvaluationId} {e : Evaluation} {entry : JobEntry}
    (live : c.evaluations.get? id = some e) (root : e.parent = none)
    (h : c.collect id = some c') (known : c'.jobs.get? e.job = some entry) :
    entry.job.completedAt = some c.time := by
  simp only [collect, live, Option.bind_eq_bind, Option.bind_some, root] at h
  split at h
  · cases h
    simp only [endJob] at known
    split at known
    · rw [Table.get?_insert, if_pos rfl] at known
      cases known
      rfl
    · next absent => cases absent.symm.trans known
  · cases h

/-- Whether an evaluation waits for a moment. -/
def WaitsFor (c : Cluster) (id : EvaluationId) (due : Nat) : Prop :=
  ∃ e p stack, c.evaluations.get? id = some e ∧ e.phase = .operating p (some due) stack

/-- Nothing waits for a moment before the next one. -/
theorem WaitsFor.le_of_nextDue {id : EvaluationId} {due first : Nat} (h : c.WaitsFor id due)
    (next : c.nextDue = some first) : first ≤ due := by
  obtain ⟨e, p, stack, live, operating⟩ := h
  have hmem : (id, due) ∈ c.dueTimes := by
    refine List.mem_filterMap.2 ⟨(id, e), Table.mem_of_get? live, ?_⟩
    simp only [operating]
  exact (List.min?_eq_some_iff.1 next).2 due (List.mem_map_of_mem hmem)

/-- A state in which nothing can go on by itself. -/
def Rests (c : Cluster) : Prop := ∀ m, c.step m = none

/-- A state in which no move gets a job on. -/
def Pauses (c : Cluster) (job : JobId) : Prop := ∀ m, c.outline.Serves job m → c.step m = none

/-- The phases of an evaluation that does not go on by itself before time does. -/
inductive Idles (now : Nat) : Phase → Prop
  | pausing {micros due : Nat} {next : (Request.pause micros).Answer → Program (Reply Value)}
      {stack : List Frame} (later : now < due) :
      Idles now (.operating (.ask (.pause micros) next) (some due) stack)
  | joining {f : Fork} {stack : List Frame} (placed : f.waiting = []) (missing : f.missing ≠ 0) :
      Idles now (.joining f stack)

/-- An engine rests when all jobs have begun and all evaluations wait. -/
theorem rests_of_idles (hc : c.outline.Consistent) (serving : c.scopes.isCancelled .root = false)
    (begun : ∀ job w s, c.threads.get? job ≠ some (.submitted w s))
    (idle : ∀ id e, c.evaluations.get? id = some e →
      c.scopes.isCancelled e.scope = false ∧ Idles c.now e.phase) : c.Rests := by
  intro m
  cases m with
  | begin job =>
    simp only [step, beginJob]
    split
    · exact absurd ‹_› (begun _ _ _)
    · rfl
  | receive i =>
    refine Option.eq_none_iff_forall_ne_some.2 fun c' next => ?_
    have s : c.outline.Step (.move (.receive i)) c'.outline := step_of_receive hc next
    generalize c'.outline = o at s
    cases s with
    | @receive _ post d rest e at_slot inbox live =>
      have waits := (idle _ _ live).2
      rw [hc.queued_of_mem at_slot (by simp [inbox]) live] at waits
      cases waits
  | close i =>
    simp only [step, close, serving, Bool.not_false, Bool.or_true, if_true]
    cases c.workers[i]? <;> rfl
  | advance id =>
    cases live : c.evaluations.get? id with
    | none => simp [step, advance, live]
    | some e =>
      obtain ⟨free, waits⟩ := idle id e live
      simp only [step, advance_eq live]
      generalize hp : e.phase = phase at waits
      cases waits with
      | pausing later => simp [turn, hp, free, take, request, Nat.not_le_of_lt later]
      | joining placed missing => simp [turn, hp, placed, missing]
  | collect id =>
    cases live : c.evaluations.get? id with
    | none => simp [step, collect, live]
    | some e =>
      have waits := (idle id e live).2
      simp only [step, collect, live, Option.bind_eq_bind, Option.bind_some]
      generalize e.phase = phase at waits
      cases waits <;> rfl

theorem Rests.pauses (rest : c.Rests) (job : JobId) : c.Pauses job := fun m _ => rest m

variable {id : EvaluationId} {e : Evaluation} {job : JobId}

/-- A job that has been submitted would begin. -/
theorem Pauses.begun (rest : c.Pauses job) (w : Workflow) (scope : Scope) :
    c.threads.get? job ≠ some (.submitted w scope) := by
  intro thread
  have stays : c.beginJob job = none := rest (.begin job) rfl
  simp only [beginJob, thread] at stays
  cases stays

/-- A cancelled evaluation would go on. -/
theorem Pauses.free (rest : c.Pauses job) (hc : c.outline.Consistent) (hn : c.nextId < Uuid.supply)
    (live : c.evaluations.get? id = some e) (own : e.job = job) :
    c.scopes.isCancelled e.scope = false := by
  subst own
  apply eq_false_of_ne_true
  intro cancelled
  by_cases silent : ∀ r, e.phase ≠ .responded r
  · obtain ⟨m, c', serves, next, -⟩ :=
      exists_move hc hn cancelled live (List.suffix_refl _) silent
    cases (rest m serves).symm.trans next
  · simp only [not_forall, not_not] at silent
    obtain ⟨r, responded⟩ := silent
    obtain ⟨c', next⟩ := exists_collect live responded
    cases (rest (.collect id) ⟨e, live, rfl⟩).symm.trans next

theorem idles_of_request {due : Option Nat} {stack : List Frame} {r : Request}
    {next : r.Answer → Program (Reply Value)} (h : c.request id e due stack r next = none) :
    Idles c.now (.operating (.ask r next) due stack) := by
  unfold request at h
  split at h
  · split at h
    · cases h
    · split at h
      · cases h
      · exact .pausing (Nat.lt_of_not_le ‹_›)
  · cases h

theorem Pauses.idles (rest : c.Pauses job) (hc : c.outline.Consistent)
    (hn : c.nextId < Uuid.supply) (live : c.evaluations.get? id = some e) (own : e.job = job) :
    Idles c.now e.phase := by
  have free := rest.free hc hn live own
  have stays : (turn c.scopes e).bind (c.take id e) = none :=
    (advance_eq live).symm.trans (rest (.advance id) ⟨e, live, own⟩)
  cases hp : e.phase with
  | queued =>
    obtain ⟨p, placed, -⟩ := hc.placed live
    have queued : c.outline.QueuedAt id p.slot := ⟨e, p, live, hp, placed, rfl⟩
    obtain ⟨c', next⟩ := exists_receive hc queued
    cases (rest (.receive p.slot) ⟨id, queued, e, live, own⟩).symm.trans next
  | accepted payload =>
    simp only [turn, hp] at stays
    split at stays <;> cases stays
  | running m =>
    simp only [turn, hp, free] at stays
    cases stays
  | operating p due stack =>
    simp only [turn, hp, free] at stays
    cases p with
    | done reply => cases reply <;> cases stays
    | ask r next => exact idles_of_request stays
  | joining f stack =>
    simp only [turn, hp] at stays
    cases hw : f.waiting with
    | cons w waiting =>
      rw [hw] at stays
      cases stays
    | nil =>
      refine .joining hw fun missing => ?_
      simp only [hw, missing, if_true] at stays
      cases stays
  | responded r =>
    obtain ⟨c', next⟩ := exists_collect live hp
    cases (rest (.collect id) ⟨e, live, own⟩).symm.trans next

/-- The moments that evaluations of the job wait for are yet to come. -/
theorem Pauses.later (rest : c.Pauses job) (hc : c.outline.Consistent)
    (hn : c.nextId < Uuid.supply) (live : c.evaluations.get? id = some e) (own : e.job = job)
    {p : Program (Reply Value)} {due : Nat} {stack : List Frame}
    (operating : e.phase = .operating p (some due) stack) : c.now < due := by
  have idle := rest.idles hc hn live own
  rw [operating] at idle
  cases idle with
  | pausing later => exact later

/-- Without a move for its job a fork waits for children that nobody has stopped. -/
theorem Pauses.fork (rest : c.Pauses job) (hc : c.outline.Consistent) (hn : c.nextId < Uuid.supply)
    (live : c.evaluations.get? id = some e) (own : e.job = job) {f : Fork} {stack : List Frame}
    (joining : e.phase = .joining f stack) :
    ¬ c.outline.Childless id ∧ f.scope.number ∉ c.scopes.cancelled := by
  have idle := rest.idles hc hn live own
  rw [joining] at idle
  cases idle with
  | joining placed missing =>
    obtain ⟨i, child, hchild⟩ := hc.exists_child live joining placed missing
    refine ⟨fun childless => childless i child hchild, fun stopped => ?_⟩
    obtain ⟨ce, live', hparent⟩ := hchild
    obtain ⟨pe, f', stack', above, joining', same, -, hscope⟩ := hc.above live' hparent
    cases above.symm.trans live
    cases joining'.symm.trans joining
    have cancelled : c.scopes.isCancelled ce.scope = true :=
      ScopeTree.isCancelled_iff.2 ⟨f.scope.number, by simp [Scope.path, hscope], stopped⟩
    exact absurd (rest.free hc hn live' (same.symm.trans own)) (by simp [cancelled])

end Cluster

end WorkflowEngine
