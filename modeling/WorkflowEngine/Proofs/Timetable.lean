import WorkflowEngine.Proofs.Allowance
import WorkflowEngine.Proofs.Punctual
import WorkflowEngine.Proofs.Tracing
/-!
A job in time: its evaluations keep their plans, on whatever workers they are and whatever other
jobs do. What happens without the passing of time keeps them so, and what the job itself does is
taken from what it may still do.
-/
set_option autoImplicit false

namespace WorkflowEngine

namespace Outline

/-- Whether every job whose thread waits has a root evaluation to wait for. -/
def Attended (o : Outline) : Prop :=
  ∀ job, o.threads.get? job = some .waiting →
    ∃ id e, o.evaluations.get? id = some e ∧ e.job = job ∧ e.parent = none

/-- The plans of a job with a goal, apart from how far they have come. Nothing is asked of the
deliveries to cancelled evaluations. -/
structure Scheduled (o : Outline) (job : JobId) (goal : Plan) (now : Nat)
    (plan : EvaluationId → Plan) : Prop where
  thread : ∃ t, o.threads.get? job = some t
  mail : ∀ {i : Nat} {post : Post} {d e}, o.posts[i]? = some post → d ∈ post.inbox →
    o.evaluations.get? d.evaluation = some e → e.job = job →
    o.scopes.isCancelled e.scope = false →
    Workflow.decode d.payload = .ok (plan d.evaluation).workflow
  root : ∀ {id e}, o.evaluations.get? id = some e → e.job = job → e.parent = none →
    plan id = goal
  ended : ∀ {outcome}, o.threads.get? job = some (.ended outcome) →
    outcome = goal.result.mapError .error ∧ goal.time ≤ now ∧
      ∀ {entry}, o.jobs.get? job = some entry →
        entry.job.completedAt = some (.ofMillis goal.time)

/-- A job that keeps its plans, and what it may still do. -/
structure Timed (o : Outline) (r : Registry) (job : JobId) (goal : Plan) (now : Nat)
    (plan : EvaluationId → Plan) (left : EvaluationId → Nat) (total : Nat) : Prop extends
    Scheduled o job goal now plan where
  submitted : ∀ {v scope}, o.threads.get? job = some (.submitted v scope) →
    v = goal.workflow ∧ ∃ t n, Machine.Finishes r (.start v) goal.result t n ∧
      goal.time = now + t ∧ n + 4 ≤ total
  toDrain : ∀ {id e}, o.evaluations.get? id = some e → e.job = job → e.phase.toDrain ≤ left id
  onTime : ∀ {id e}, o.evaluations.get? id = some e → e.job = job →
    o.scopes.isCancelled e.scope = false → o.OnTime r now plan id e.phase (left id)
  affords : o.Affords job left total

/-- The job keeps its plans, with no more to do than a total, and with less if it has done something
itself. -/
inductive Pays (o : Outline) (r : Registry) (job : JobId) (goal : Plan) (now total : Nat)
    (own : Prop) : Prop
  | intro (plan : EvaluationId → Plan) (left : EvaluationId → Nat) (total' : Nat)
      (timed : o.Timed r job goal now plan left total') (within : total' ≤ total)
      (less : own → total' < total) : Pays o r job goal now total own

variable {o o' : Outline} {r : Registry} {job : JobId} {goal : Plan} {now : Nat}
  {plan : EvaluationId → Plan} {left : EvaluationId → Nat} {total : Nat} {own own' : Prop}

theorem Pays.mono (h : o.Pays r job goal now total own) (hp : own' → own) :
    o.Pays r job goal now total own' := by
  obtain ⟨plan, left, total', timed, within, less⟩ := h
  exact ⟨plan, left, total', timed, within, fun h => less (hp h)⟩

/-- What others do keeps the plans. -/
theorem Timed.pays (h : o.Timed r job goal now plan left total) (hp : ¬ own) :
    o.Pays r job goal now total own :=
  ⟨plan, left, total, h, Nat.le_refl total, fun h => absurd h hp⟩

theorem Attended.step {ev : Event} (h : o.Attended) (hc : o.Consistent)
    (hn : o.nextId < Uuid.supply) (s : o.Step ev o') : o'.Attended := by
  intro job waiting'
  have kept : o.threads.get? job = some .waiting →
      ∃ id e, o'.evaluations.get? id = some e ∧ e.job = job ∧ e.parent = none := by
    intro waiting
    obtain ⟨id, e, live, same, root⟩ := h job waiting
    by_cases collects : ev = .move (.collect id)
    · subst collects
      cases s with
      | collectRoot now live' responded root known =>
        cases live'.symm.trans live
        rw [same, Table.get?_insert, if_pos rfl] at waiting'
        cases waiting'
      | collectChild now live' responded child above joining =>
        cases live'.symm.trans live
        cases root.symm.trans child
    · obtain ⟨e', live', hjob, hparent, -⟩ := s.stays hc hn live collects
      exact ⟨id, e', live', hjob.trans same, hparent.trans root⟩
  cases s with
  | submit now =>
    rw [Table.get?_insert] at waiting'
    split at waiting'
    · cases waiting'
    · exact kept waiting'
  | begin thread sent =>
    obtain ⟨p, phase, hget, -⟩ := sent.get?
    obtain ⟨-, -, hthreads, -⟩ := sent.unchanged
    rw [hthreads, Table.get?_insert] at waiting'
    split at waiting'
    · next hjob => exact ⟨_, _, (hget _).trans (if_pos rfl), hjob, rfl⟩
    · exact kept waiting'
  | place live joining waiting sent =>
    obtain ⟨-, -, hthreads, -⟩ := sent.unchanged
    exact kept (hthreads ▸ waiting')
  | collectRoot now live responded root known =>
    rw [Table.get?_insert] at waiting'
    split at waiting'
    · cases waiting'
    · exact kept waiting'
  | _ => exact kept waiting'

/-- What is on its way stays there, and evaluations stay as they are. -/
theorem Scheduled.congr (h : o.Scheduled job goal now plan)
    (hp : ∀ {i : Nat} {post' : Post} {d}, o'.posts[i]? = some post' → d ∈ post'.inbox →
      ∃ post, o.posts[i]? = some post ∧ d ∈ post.inbox)
    (hk : o'.StemsFrom o)
    (hs : ∀ n ∈ o.scopes.cancelled, n ∈ o'.scopes.cancelled)
    (thread : ∃ t, o'.threads.get? job = some t)
    (ended : ∀ {outcome}, o'.threads.get? job = some (.ended outcome) →
      outcome = goal.result.mapError .error ∧ goal.time ≤ now ∧
        ∀ {entry}, o'.jobs.get? job = some entry →
          entry.job.completedAt = some (.ofMillis goal.time)) :
    o'.Scheduled job goal now plan where
  thread := thread
  mail := by
    intro i post' d e' at_slot' hd live' hjob free
    obtain ⟨post, at_slot, hd⟩ := hp at_slot' hd
    obtain ⟨e, live, hj, -, hscope, -⟩ := hk _ e' live'
    exact h.mail at_slot hd live (hj ▸ hjob) (ScopeTree.free_mono hs (hscope ▸ free))
  root := by
    intro id e' live' hjob hnone
    obtain ⟨e, live, hj, hparent, -⟩ := hk id e' live'
    exact h.root live (hj ▸ hjob) (hparent ▸ hnone)
  ended := ended

/-- Neither mail nor the thread of the job has changed. -/
theorem Scheduled.frame (h : o.Scheduled job goal now plan) (hp : o'.posts = o.posts)
    (hk : o'.StemsFrom o)
    (hs : ∀ n ∈ o.scopes.cancelled, n ∈ o'.scopes.cancelled)
    (ht : o'.threads.get? job = o.threads.get? job)
    (hj : ∀ {entry}, o'.jobs.get? job = some entry → o.jobs.get? job = some entry) :
    o'.Scheduled job goal now plan := by
  refine h.congr (fun at_slot hd => ⟨_, hp ▸ at_slot, hd⟩) hk hs (ht.symm ▸ h.thread) ?_
  intro outcome thread
  obtain ⟨result, time, completed⟩ := h.ended (ht ▸ thread)
  exact ⟨result, time, fun known => completed (hj known)⟩

/-- A new evaluation gets a plan for what is sent, unless it is cancelled. -/
theorem Dispatched.scheduled {job' : JobId} {parent : Option Parent} {scope : Scope} {v : Workflow}
    (sent : o.Dispatched job' parent scope v o') (h : o.Scheduled job goal now plan)
    (hm : o.Mailed) (fresh : o.evaluations.get? ⟨o.newId⟩ = none) (q : Plan)
    (sends : job' = job → o.scopes.isCancelled scope = false → q.workflow = v)
    (root : job' = job → parent = none → q = goal) :
    o'.Scheduled job goal now (Function.update plan ⟨o.newId⟩ q) := by
  obtain ⟨p, phase, hget, -⟩ := sent.get?
  obtain ⟨-, hjobs, hthreads, hscopes, -⟩ := sent.unchanged
  refine
    { thread := hthreads ▸ h.thread
      mail := ?_
      root := ?_
      ended := fun ended => ?_ }
  · intro i post' d e at_slot' hd live hjob free
    rw [hscopes] at free
    rcases sent.delivered hm fresh at_slot' hd live with
      ⟨rfl, p, phase, rfl⟩ | ⟨hne, live, post, at_slot, hd⟩
    · rw [Function.update_self, ← sends hjob free]
      exact q.travels.there
    · rw [Function.update_of_ne hne]
      exact h.mail at_slot hd live hjob free
  · intro id e live hjob hnone
    rw [hget] at live
    split at live
    · next hid =>
      subst hid
      cases live
      rw [Function.update_self]
      exact root hjob hnone
    · next hid =>
      rw [Function.update_of_ne (Ne.symm hid)]
      exact h.root live hjob hnone
  · obtain ⟨result, time, completed⟩ := h.ended (hthreads ▸ ended)
    exact ⟨result, time, fun known => completed (hjobs ▸ known)⟩

/-- Evaluations that get no child keep their plans. -/
theorem Dispatched.onTime {job' : JobId} {parent : Option Parent} {scope : Scope} {v : Workflow}
    (sent : o.Dispatched job' parent scope v o') (fresh : o.evaluations.get? ⟨o.newId⟩ = none)
    (q : Plan) {id : EvaluationId} {phase : Phase} {n : Nat} (h : o.OnTime r now plan id phase n)
    (hid : id ≠ ⟨o.newId⟩) (hp : ∀ i, parent ≠ some ⟨id, i⟩) :
    o'.OnTime r now (Function.update plan ⟨o.newId⟩ q) id phase n := by
  obtain ⟨-, -, -, hscopes, -⟩ := sent.unchanged
  refine h.congr (Function.update_of_ne hid _ _) ?_ ?_ (hscopes ▸ fun _ hn => hn)
  · intro i c
    rw [sent.child fresh]
    simp [hp i]
  · rintro i c ⟨e, live, -⟩
    refine Function.update_of_ne ?_ _ _
    rintro rfl
    cases live.symm.trans fresh

/-- Nothing has changed for the job. -/
theorem Timed.frame (h : o.Timed r job goal now plan left total)
    (he : o'.evaluations = o.evaluations) (scheduled : o'.Scheduled job goal now plan)
    (ht : o'.threads.get? job = o.threads.get? job)
    (hs : ∀ n ∈ o.scopes.cancelled, n ∈ o'.scopes.cancelled) :
    o'.Timed r job goal now plan left total where
  toScheduled := scheduled
  submitted := fun thread => h.submitted (ht ▸ thread)
  toDrain := fun live => h.toDrain (he ▸ live)
  onTime := by
    intro id e live hjob free
    refine (h.onTime (he ▸ live) hjob (ScopeTree.free_mono hs free)).congr rfl
      (child_congr (.of_eq he) fun live => ?_) (fun _ => rfl) hs
    exact ⟨_, he.symm ▸ live⟩
  affords := h.affords.congr (owned_congr he)

/-- Enough is left to end the job when there is for the evaluation with a new phase. -/
theorem Timed.toDrain_insert (h : o.Timed r job goal now plan left total) {id : EvaluationId}
    {e : Evaluation} {steps k : Nat} {phase : Phase}
    (he : o'.evaluations = o.evaluations.insert id { e with steps, phase })
    (drain : phase.toDrain ≤ k) {id' : EvaluationId} {e' : Evaluation}
    (live' : o'.evaluations.get? id' = some e') (hjob : e'.job = job) :
    e'.phase.toDrain ≤ Function.update left id k id' := by
  rw [he, Table.get?_insert] at live'
  split at live'
  · next hid =>
    subst hid
    cases live'
    rw [Function.update_self]
    exact drain
  · next hid =>
    rw [Function.update_of_ne (Ne.symm hid)]
    exact h.toDrain live' hjob

/-- The plans of a job are kept when the evaluation with a new phase and all others keep theirs. -/
theorem onTime_insert {o₁ : Outline} {id : EvaluationId} {e : Evaluation} {steps k : Nat}
    {phase : Phase} (he : o₁.evaluations = o.evaluations.insert id { e with steps, phase })
    (here : o.scopes.isCancelled e.scope = false → o'.OnTime r now plan id phase k)
    (others : ∀ {id' e'}, o.evaluations.get? id' = some e' → id ≠ id' → e'.job = job →
      o.scopes.isCancelled e'.scope = false → o'.OnTime r now plan id' e'.phase (left id'))
    {id' : EvaluationId} {e' : Evaluation} (live' : o₁.evaluations.get? id' = some e')
    (hjob : e'.job = job) (free : o.scopes.isCancelled e'.scope = false) :
    o'.OnTime r now plan id' e'.phase (Function.update left id k id') := by
  rw [he, Table.get?_insert] at live'
  split at live'
  · next hid =>
    subst hid
    cases live'
    rw [Function.update_self]
    exact here free
  · next hid =>
    rw [Function.update_of_ne (Ne.symm hid)]
    exact others live' hid hjob free

/-- A new phase of one evaluation. If it is one of the job, then there is less left for it. -/
theorem Timed.update (h : o.Timed r job goal now plan left total) (hc : o.Threaded)
    {id : EvaluationId} {e : Evaluation} {steps : Nat} {phase : Phase}
    (live : o.evaluations.get? id = some e)
    (he : o'.evaluations = o.evaluations.insert id { e with steps, phase })
    (scheduled : o'.Scheduled job goal now plan) (ht : o'.threads = o.threads)
    (hs : ∀ n ∈ o.scopes.cancelled, n ∈ o'.scopes.cancelled)
    (less : e.job = job → o.scopes.isCancelled e.scope = true → phase.toDrain < e.phase.toDrain)
    (on : e.job = job → o.scopes.isCancelled e.scope = false →
      ∃ k, left id = k + 1 ∧ o.OnTime r now plan id phase k) :
    o'.Pays r job goal now total (e.job = job) := by
  have others : ∀ {id' e'}, o.evaluations.get? id' = some e' → e'.job = job →
      o.scopes.isCancelled e'.scope = false →
      o'.OnTime r now plan id' e'.phase (left id') := fun live' hjob free =>
    (h.onTime live' hjob free).congr rfl (child_update live he) (fun _ => rfl) hs
  by_cases same : e.job = job
  · obtain ⟨k, hk, drain, on⟩ : ∃ k, left id = k + 1 ∧ phase.toDrain ≤ k ∧
        (o.scopes.isCancelled e.scope = false → o.OnTime r now plan id phase k) := by
      cases free : o.scopes.isCancelled e.scope with
      | false =>
        obtain ⟨k, hk, on⟩ := on same free
        exact ⟨k, hk, on.toDrain_le, fun _ => on⟩
      | true =>
        have drain := h.toDrain live same
        have less := less same free
        exact ⟨left id - 1, by omega, by omega, by simp⟩
    obtain ⟨total', spent, affords⟩ := h.affords.spend (owned_update live he) ⟨e, live, same⟩ k
    have here : o.scopes.isCancelled e.scope = false → o'.OnTime r now plan id phase k :=
      fun free => (on free).congr rfl (child_update live he) (fun _ => rfl) hs
    exact ⟨plan, Function.update left id k, total',
      { toScheduled := scheduled
        submitted := fun thread => by
          cases (hc.thread_of_evaluation live).symm.trans (same ▸ ht ▸ thread)
        toDrain := h.toDrain_insert he drain
        onTime := fun live' hjob free => onTime_insert he here
          (fun live' _ => others live') live' hjob (ScopeTree.free_mono hs free)
        affords := affords }, by omega, fun _ => by omega⟩
  · have before : ∀ {id' e'}, o'.evaluations.get? id' = some e' → e'.job = job →
        o.evaluations.get? id' = some e' := by
      intro id' e' live' hjob
      rw [he, Table.get?_insert] at live'
      split at live'
      · cases live'
        exact absurd hjob same
      · exact live'
    exact ⟨plan, left, total,
      { toScheduled := scheduled
        submitted := fun thread => h.submitted (ht ▸ thread)
        toDrain := fun live' hjob => h.toDrain (before live' hjob) hjob
        onTime := fun live' hjob free =>
          others (before live' hjob) hjob (ScopeTree.free_mono hs free)
        affords := h.affords.congr (owned_update live he) }, Nat.le_refl total,
      fun hjob => absurd hjob same⟩

/-- A worker accepts what the plan of the evaluation tells. -/
theorem Timed.receive (h : o.Timed r job goal now plan left total) (hc : o.Consistent) {i : Nat}
    {post : Post} {d : Delivery} {rest : List Delivery} {e : Evaluation}
    (at_slot : o.posts[i]? = some post) (inbox : post.inbox = d :: rest)
    (live : o.evaluations.get? d.evaluation = some e)
    (he : o'.evaluations = o.evaluations.insert d.evaluation
      { e with phase := .accepted d.payload })
    (hp : o'.posts = o.posts.modify i fun q => { q with inbox := rest })
    (ht : o'.threads = o.threads) (hj : o'.jobs = o.jobs) (hs : o'.scopes = o.scopes) :
    o'.Pays r job goal now total (e.job = job) := by
  have hd : d ∈ post.inbox := inbox ▸ List.mem_cons_self
  have queued := hc.queued_of_mem at_slot (List.mem_map_of_mem hd) live
  have scheduled : o'.Scheduled job goal now plan := by
    refine h.toScheduled.congr (fun {j post' d'} at_slot' hd' => ?_) (.update live he)
      (hs ▸ fun _ hn => hn) (ht ▸ h.thread) fun ended => ?_
    · rw [hp] at at_slot'
      rcases modify_cases at_slot' with ⟨rfl, before, hb, rfl⟩ | ⟨-, hpost⟩
      · cases hb.symm.trans at_slot
        exact ⟨post, at_slot, inbox ▸ List.mem_cons_of_mem d hd'⟩
      · exact ⟨post', hpost, hd'⟩
    · rw [hj]
      exact h.ended (ht ▸ ended)
  refine h.update hc.toThreaded live he scheduled ht (hs ▸ fun _ hn => hn) (fun _ _ => ?_)
    fun own free => ?_
  · rw [queued]
    exact Nat.lt_succ_self 3
  · exact (queued ▸ h.onTime live own free).accepts (h.mail at_slot hd live own free)

/-- A new evaluation of any job beside those that keep their plans. -/
theorem Dispatched.timed {job' : JobId} {parent : Option Parent} {scope : Scope} {v : Workflow}
    (sent : o.Dispatched job' parent scope v o') (hm : o.Mailed)
    (stays : o.scopes.isCancelled .root = false) {q : Plan}
    (scheduled : o'.Scheduled job goal now (Function.update plan ⟨o.newId⟩ q))
    (submitted : ∀ {v scope}, o.threads.get? job = some (.submitted v scope) →
      v = goal.workflow ∧ ∃ t n, Machine.Finishes r (.start v) goal.result t n ∧
        goal.time = now + t ∧ n + 4 ≤ total)
    (toDrain : ∀ {id e}, o.evaluations.get? id = some e → e.job = job →
      e.phase.toDrain ≤ left id)
    (onTime : ∀ {id e}, o.evaluations.get? id = some e → e.job = job →
      o.scopes.isCancelled e.scope = false →
      o'.OnTime r now (Function.update plan ⟨o.newId⟩ q) id e.phase (left id))
    (new : job' = job → Phase.queued.toDrain ≤ left ⟨o.newId⟩ ∧
      (o.scopes.isCancelled scope = false → q.workflow = v ∧ ∃ t n,
        Machine.Finishes r (.start v) q.result t n ∧ q.time = now + t ∧
          left ⟨o.newId⟩ = n + 3))
    (affords : o'.Affords job left total) :
    o'.Timed r job goal now (Function.update plan ⟨o.newId⟩ q) left total := by
  obtain ⟨-, -, hthreads, hscopes, -⟩ := sent.unchanged
  refine
    { toScheduled := scheduled
      submitted := fun thread => submitted (hthreads ▸ thread)
      toDrain := ?_
      onTime := ?_
      affords := affords }
  · intro id e live hjob
    rcases sent.cases hm live with before | ⟨rfl, p, phase, rfl, rfl | ⟨f, -, stopped⟩⟩
    · exact toDrain before hjob
    · exact (new hjob).1
    · exact absurd (stopped.symm.trans stays) (by simp)
  · intro id e live hjob free
    rw [hscopes] at free
    rcases sent.cases hm live with before | ⟨rfl, p, phase, rfl, rfl | ⟨f, -, stopped⟩⟩
    · exact onTime before hjob free
    · obtain ⟨rfl, t, n, finishes, time, enough⟩ := (new hjob).2 free
      rw [enough]
      refine .queued (t := t) ?_ ?_
      · rw [Function.update_self]
        exact finishes
      · rw [Function.update_self]
        exact time
    · exact absurd (stopped.symm.trans stays) (by simp)

/-- A new evaluation of another job takes nothing from the plans. -/
theorem Dispatched.timed_other {job' : JobId} {parent : Option Parent} {scope : Scope}
    {v : Workflow} (sent : o.Dispatched job' parent scope v o')
    (h : o.Timed r job goal now plan left total) (hm : o.Mailed)
    (fresh : o.evaluations.get? ⟨o.newId⟩ = none) (stays : o.scopes.isCancelled .root = false)
    (other : job' ≠ job)
    (above : ∀ {id e}, o.evaluations.get? id = some e → e.job = job →
      ∀ i, parent ≠ some ⟨id, i⟩) :
    o'.Timed r job goal now (Function.update plan ⟨o.newId⟩ goal) left total := by
  have scheduled := sent.scheduled h.toScheduled hm fresh goal (fun hj => absurd hj other)
    fun hj => absurd hj other
  refine sent.timed hm stays scheduled h.submitted h.toDrain (fun live hj free => ?_)
    (fun hj => absurd hj other) (h.affords.congr fun id => ?_)
  · refine sent.onTime fresh goal (h.onTime live hj free) ?_ (above live hj)
    rintro rfl
    cases live.symm.trans fresh
  · rw [sent.owned fresh]
    simp [other]

/-- A job begins with its root evaluation, and other jobs with theirs. -/
theorem Timed.begin (h : o.Timed r job goal now plan left total) (hc : o.Consistent)
    (fresh : o.evaluations.get? ⟨o.newId⟩ = none) (stays : o.scopes.isCancelled .root = false)
    {job' : JobId} {v : Workflow} {scope : Scope}
    (thread : o.threads.get? job' = some (.submitted v scope))
    (sent : Dispatched { o with threads := o.threads.insert job' .waiting } job' none scope v o') :
    o'.Pays r job goal now total (job' = job) := by
  have mailed : Mailed { o with threads := o.threads.insert job' .waiting } :=
    hc.toMailed.frame rfl rfl rfl fun h => h
  have scheduled : Scheduled { o with threads := o.threads.insert job' .waiting } job goal now
      plan := by
    by_cases hjob : job' = job
    · refine h.toScheduled.congr (fun at_slot hd => ⟨_, at_slot, hd⟩) (.of_eq rfl) (fun _ hn => hn)
        ⟨.waiting, (Table.get?_insert _ _ _ _).trans (if_pos hjob)⟩ fun ended => ?_
      rw [Table.get?_insert, if_pos hjob] at ended
      cases ended
    · exact h.toScheduled.frame rfl (.of_eq rfl) (fun _ hn => hn)
        ((Table.get?_insert _ _ _ _).trans (if_neg hjob)) fun known => known
  by_cases hjob : job' = job
  · subst hjob
    obtain ⟨rfl, t, n, finishes, time, enough⟩ := h.submitted thread
    -- A job that has not begun has no evaluation yet.
    have none : ∀ {id e}, o.evaluations.get? id = some e → e.job ≠ job' := by
      rintro id e live rfl
      cases thread.symm.trans (hc.thread_of_evaluation live)
    have nothing : o.Affords job' left 0 :=
      ⟨∅, fun id => by
        simp only [Finset.notMem_empty, false_iff]
        rintro ⟨e, live, hj⟩
        exact none live hj, by simp⟩
    have affords : o'.Affords job' (Function.update left ⟨o.newId⟩ (n + 3)) (0 + (n + 3)) :=
      nothing.grow (fun ⟨e, live, _⟩ => by cases live.symm.trans fresh) (fun id => by
        rw [sent.owned fresh]
        simp [Owned, newId]) (n + 3)
    refine ⟨_, _, 0 + (n + 3), sent.timed mailed stays
      (sent.scheduled scheduled mailed fresh goal (fun _ _ => rfl) fun _ _ => rfl) ?_
      (fun live hj => absurd hj (none live)) (fun live hj => absurd hj (none live)) (fun _ => ?_)
      affords, by omega, fun _ => by omega⟩
    · intro v scope ended
      rw [Table.get?_insert, if_pos rfl] at ended
      cases ended
    · have drain : Phase.queued.toDrain ≤ n + 3 := Nat.add_lt_add_right finishes.pos 3
      have self : Function.update left ⟨o.newId⟩ (n + 3) ⟨o.newId⟩ = n + 3 :=
        Function.update_self _ _ _
      exact ⟨drain.trans_eq self.symm, fun _ => ⟨rfl, t, n, finishes, time, self⟩⟩
  · have before : Timed { o with threads := o.threads.insert job' .waiting } r job goal now plan
        left total :=
      h.frame rfl scheduled ((Table.get?_insert _ _ _ _).trans (if_neg hjob)) fun _ hn => hn
    exact ⟨_, left, total, sent.timed_other before mailed fresh stays hjob (by simp),
      Nat.le_refl total, fun hj => absurd hj hjob⟩

/-- What a fork does to place a child of its own: the plan of the child, and what is left for the
fork and for the child. -/
theorem Timed.place_own (h : o.Timed r job goal now plan left total) (hc : o.Consistent)
    (fresh : o.evaluations.get? ⟨o.newId⟩ = none) {id : EvaluationId} {e : Evaluation} {f : Fork}
    {v : Workflow} {rest : List Workflow} {stack : List Frame}
    (live : o.evaluations.get? id = some e) (own : e.job = job)
    (joining : e.phase = .joining f stack) (waiting : f.waiting = v :: rest)
    (hchild : ∀ {i c}, o'.Child id i c ↔ o.Child id i c ∨ (i = f.placed ∧ c = ⟨o.newId⟩))
    (hs : o'.scopes.cancelled = o.scopes.cancelled) :
    ∃ (q : Plan) (k a : Nat), k + a < left id ∧
      (Phase.joining { f with placed := f.placed + 1, waiting := rest } stack).toDrain ≤ k ∧
      Phase.queued.toDrain ≤ a ∧
      (o.scopes.isCancelled e.scope = false →
        o'.OnTime r now (Function.update plan ⟨o.newId⟩ q) id
          (.joining { f with placed := f.placed + 1, waiting := rest } stack) k) ∧
      (o.scopes.isCancelled (o.scopes.child f.scope).1 = false → q.workflow = v ∧ ∃ t n,
        Machine.Finishes r (.start v) q.result t n ∧ q.time = now + t ∧ a = n + 3) := by
  have hid : id ≠ ⟨o.newId⟩ := by
    rintro rfl
    cases live.symm.trans fresh
  cases free : o.scopes.isCancelled e.scope with
  | false =>
    obtain ⟨q, t, b, k, hq, finishes, time, enough, on⟩ :=
      (joining ▸ h.onTime live own free).placed waiting fresh hid hchild hs
    have drain : Phase.queued.toDrain ≤ b + 3 := Nat.add_lt_add_right finishes.pos 3
    exact ⟨q, k, b + 3, enough, on.toDrain_le, drain, fun _ => on,
      fun _ => ⟨hq, t, b, finishes, time, rfl⟩⟩
  | true =>
    have drain := h.toDrain live own
    simp only [joining, Phase.toDrain, waiting, List.length_cons] at drain
    refine ⟨plan id, _, 4, ?_, Nat.le_refl _, Nat.le_refl 4, by simp, fun inner => ?_⟩
    · simp only [Phase.toDrain]
      omega
    · have inside : e.scope.path <:+ (o.scopes.child f.scope).1.path := by
        have hf := hc.fork_scope live joining
        exact ⟨[o.scopes.next, f.scope.number], by simp [ScopeTree.child, Scope.path, hf]⟩
      exact absurd (ScopeTree.isCancelled_of_suffix inside free) (by simp [inner])

/-- A fork places a child, be it of the job or of another one. -/
theorem Timed.place (h : o.Timed r job goal now plan left total) (hc : o.Consistent)
    (fresh : o.evaluations.get? ⟨o.newId⟩ = none) (stays : o.scopes.isCancelled .root = false)
    {id : EvaluationId} {e : Evaluation} {f : Fork} {v : Workflow} {rest : List Workflow}
    {stack : List Frame} (live : o.evaluations.get? id = some e)
    (joining : e.phase = .joining f stack) (waiting : f.waiting = v :: rest)
    (sent : Dispatched
      { o with
        evaluations := o.evaluations.insert id
          { e with phase := .joining { f with placed := f.placed + 1, waiting := rest } stack }
        scopes := (o.scopes.child f.scope).2 }
      e.job (some ⟨id, f.placed⟩) (o.scopes.child f.scope).1 v o') :
    o'.Pays r job goal now total (e.job = job) := by
  obtain ⟨o₁, ho₁⟩ : ∃ o₁, o₁ =
      { o with
        evaluations := o.evaluations.insert id
          { e with phase := .joining { f with placed := f.placed + 1, waiting := rest } stack }
        scopes := (o.scopes.child f.scope).2 } := ⟨_, rfl⟩
  have he : o₁.evaluations = o.evaluations.insert id
      { e with phase := .joining { f with placed := f.placed + 1, waiting := rest } stack } :=
    ho₁ ▸ rfl
  have ht : o₁.threads = o.threads := ho₁ ▸ rfl
  have hid : o₁.newId = o.newId := ho₁ ▸ rfl
  have hcan : o₁.scopes.cancelled = o.scopes.cancelled := ho₁ ▸ rfl
  have hfree : ∀ {s : Scope}, o₁.scopes.isCancelled s = o.scopes.isCancelled s := ho₁ ▸ rfl
  have mailed : o₁.Mailed := ho₁ ▸ hc.toMailed.places live joining rest
  have hchild : ∀ {x c i}, o'.Child x i c ↔
      o.Child x i c ∨ (x = id ∧ i = f.placed ∧ c = ⟨o.newId⟩) := sent.child_placed live fresh
  have scheduled : o₁.Scheduled job goal now plan :=
    h.toScheduled.frame (ho₁ ▸ rfl) (.update live he) (hcan ▸ fun _ hn => hn) (by rw [ht])
      (ho₁ ▸ fun known => known)
  rw [← ho₁] at sent
  have absent : o₁.evaluations.get? ⟨o₁.newId⟩ = none := by
    rw [he, hid]
    exact fresh_insert live fresh
  by_cases own : e.job = job
  · have hown : ∀ {i c}, o'.Child id i c ↔
        o.Child id i c ∨ (i = f.placed ∧ c = ⟨o.newId⟩) := by simp [hchild]
    obtain ⟨q, k, a, enough, drain, enough', on, plans⟩ :=
      h.place_own hc fresh live own joining waiting hown
        ((congrArg ScopeTree.cancelled sent.unchanged.2.2.2.1).trans hcan)
    rw [← hid] at on
    obtain ⟨total₁, spent, affords₁⟩ :=
      h.affords.spend (owned_update live he) ⟨e, live, own⟩ k
    have affords : o'.Affords job
        (Function.update (Function.update left id k) ⟨o₁.newId⟩ a) (total₁ + a) :=
      affords₁.grow (fun ⟨e', live', _⟩ => by cases absent.symm.trans live')
        (fun id' => by simp [sent.owned absent, own]) a
    have others : ∀ {id' e'}, o.evaluations.get? id' = some e' → id ≠ id' → e'.job = job →
        o.scopes.isCancelled e'.scope = false →
        o'.OnTime r now (Function.update plan ⟨o₁.newId⟩ q) id' e'.phase (left id') := by
      intro id' e' live' hne hjob free
      have before : o₁.OnTime r now plan id' e'.phase (left id') :=
        (h.onTime live' hjob free).congr rfl (child_update live he) (fun _ => rfl)
          (hcan ▸ fun _ hn => hn)
      refine sent.onTime absent q before ?_ (by simp [hne])
      rintro rfl
      rw [hid, fresh] at live'
      cases live'
    have old : ∀ {id' e'}, o₁.evaluations.get? id' = some e' →
        Function.update (Function.update left id k) ⟨o₁.newId⟩ a id' =
          Function.update left id k id' := by
      intro id' e' live'
      refine Function.update_of_ne ?_ _ _
      rintro rfl
      cases live'.symm.trans absent
    refine ⟨_, _, total₁ + a, sent.timed mailed (hfree.trans stays)
      (sent.scheduled scheduled mailed absent q (fun _ free => (plans (hfree ▸ free)).1) (by simp))
      ?_ ?_ ?_ (fun _ => ?_) affords, by omega, fun _ => by omega⟩
    · intro v scope thread
      rw [ht] at thread
      cases (hc.thread_of_evaluation live).symm.trans (own ▸ thread)
    · intro id' e' live' hjob
      rw [old live']
      exact h.toDrain_insert he drain live' hjob
    · intro id' e' live' hjob free
      rw [old live']
      exact onTime_insert he on others live' hjob (hfree ▸ free)
    · rw [Function.update_self]
      exact ⟨enough', fun free => plans (hfree ▸ free)⟩
  · obtain ⟨plan₁, left₁, total₁, timed, within, -⟩ :=
      h.update hc.toThreaded live he scheduled ht (hcan ▸ fun _ hn => hn)
        (fun hj => absurd hj own) fun hj => absurd hj own
    refine ⟨_, left₁, total₁, sent.timed_other timed mailed absent (hfree.trans stays) own ?_,
      within, fun hj => absurd hj own⟩
    rintro id' e' live' hjob i hparent
    cases hparent
    rw [he, Table.get?_insert, if_pos rfl] at live'
    cases live'
    exact own hjob

variable {role : Nat → ScopeRole}

theorem Timed.left_pos (h : o.Timed r job goal now plan left total) {id : EvaluationId}
    {e : Evaluation} {response : Response} (live : o.evaluations.get? id = some e)
    (own : e.job = job) (responded : e.phase = .responded response) : 0 < left id := by
  have drain := h.toDrain live own
  rw [responded] at drain
  exact drain

/-- Evaluations of which none is a child of the one that goes keep their plans. -/
theorem OnTime.erase {id : EvaluationId} {e : Evaluation} (live : o.evaluations.get? id = some e)
    (he : o'.evaluations = o.evaluations.erase id) (hs : o'.scopes = o.scopes)
    {id' : EvaluationId} {phase : Phase} {n : Nat} (h : o.OnTime r now plan id' phase n)
    (hp : ∀ i, e.parent ≠ some ⟨id', i⟩) : o'.OnTime r now plan id' phase n := by
  refine h.congr rfl (fun {i c} => ?_) (fun _ => rfl) (hs ▸ fun _ hn => hn)
  rw [child_erase id (.erase he) (by simp [he]) fun hne hlive =>
    ⟨_, by simpa [he, Ne.symm hne] using hlive⟩, and_iff_left_iff_imp]
  rintro ⟨ce, hce, hparent⟩ rfl
  cases hce.symm.trans live
  exact hp i hparent

/-- A job ends with its root evaluation, which has kept the goal of the job. -/
theorem Timed.collectRoot (h : o.Timed r job goal now plan left total) (hc : o.Consistent)
    (hr : o.Numbered (some job) role) {id : EvaluationId} {e : Evaluation} {response : Response}
    (live : o.evaluations.get? id = some e) (responded : e.phase = .responded response)
    (root : e.parent = none) (hp : o'.posts = o.posts)
    (he : o'.evaluations = o.evaluations.erase id) (hs : o'.scopes = o.scopes)
    (ht : o'.threads = o.threads.insert e.job (.ended response.outcome))
    (hj : e.job ≠ job → o'.jobs.get? job = o.jobs.get? job)
    (clocked : ∀ {entry}, o'.jobs.get? e.job = some entry →
      entry.job.completedAt = some (.ofMillis now)) :
    o'.Pays r job goal now total (e.job = job) := by
  have before : ∀ {id' e'}, o'.evaluations.get? id' = some e' →
      o.evaluations.get? id' = some e' ∧ id' ≠ id := by
    intro id' e' live'
    rw [he, Table.get?_erase] at live'
    split at live'
    · cases live'
    · exact ⟨live', Ne.symm ‹_›⟩
  have owned : ∀ id', o'.Owned job id' ↔ o.Owned job id' ∧ id' ≠ id := by
    intro id'
    constructor
    · rintro ⟨e', live', same⟩
      exact ⟨⟨e', (before live').1, same⟩, (before live').2⟩
    · rintro ⟨⟨e', live', same⟩, hne⟩
      exact ⟨e', by rw [he, Table.get?_erase, if_neg (Ne.symm hne)]; exact live', same⟩
  have toDrain : ∀ {id' e'}, o'.evaluations.get? id' = some e' → e'.job = job →
      e'.phase.toDrain ≤ left id' := fun live' same => h.toDrain (before live').1 same
  have onTime : ∀ {id' e'}, o'.evaluations.get? id' = some e' → e'.job = job →
      o'.scopes.isCancelled e'.scope = false → o'.OnTime r now plan id' e'.phase (left id') :=
    fun live' same free =>
      (h.onTime (before live').1 same (hs ▸ free)).erase live he hs (by simp [root])
  by_cases same : e.job = job
  · have free := hr.free_root hc.toThreaded live root same
    obtain ⟨outcome, time⟩ := (responded ▸ h.onTime live same free).of_responded
    rw [h.root live same root] at outcome time
    have thread : o'.threads.get? job = some (.ended response.outcome) := by
      rw [ht, Table.get?_insert, if_pos same]
    obtain ⟨total', less, affords⟩ :=
      h.affords.shrink ⟨e, live, same⟩ owned (h.left_pos live same responded)
    refine ⟨plan, left, total',
      { toScheduled := h.toScheduled.congr (fun at_slot hd => ⟨_, hp ▸ at_slot, hd⟩) (.erase he)
          (hs ▸ fun _ hn => hn) ⟨_, thread⟩ ?_
        submitted := fun submitted => by cases thread.symm.trans submitted
        toDrain := toDrain
        onTime := onTime
        affords := affords }, Nat.le_of_lt less, fun _ => less⟩
    intro result ended
    cases thread.symm.trans ended
    exact ⟨outcome, Nat.le_of_eq time, fun known => time ▸ clocked (same ▸ known)⟩
  · have thread : o'.threads.get? job = o.threads.get? job := by
      rw [ht, Table.get?_insert, if_neg same]
    exact ⟨plan, left, total,
      { toScheduled := h.toScheduled.frame hp (.erase he) (hs ▸ fun _ hn => hn) thread
          fun known => hj same ▸ known
        submitted := fun submitted => h.submitted (thread ▸ submitted)
        toDrain := toDrain
        onTime := onTime
        affords := h.affords.drop live same owned }, Nat.le_refl total,
      fun hjob => absurd hjob same⟩

/-- The response of a child is collected: its evaluation goes, and no other one. -/
theorem owned_collect {id top : EvaluationId} {te : Evaluation} {phase : Phase} (hne : id ≠ top)
    (above : o.evaluations.get? top = some te)
    (he : o'.evaluations = (o.evaluations.erase id).insert top { te with phase })
    (id' : EvaluationId) : o'.Owned job id' ↔ o.Owned job id' ∧ id' ≠ id := by
  by_cases there : top = id'
  · subst there
    rw [owned_of_live above, owned_of_live ((congrArg (Table.get? · top) he).trans
      ((Table.get?_insert _ _ _ _).trans (if_pos rfl)))]
    simp [Ne.symm hne]
  · simp only [Owned, he, Table.get?_insert, if_neg there, Table.get?_erase]
    by_cases gone : id = id'
    · simp [gone]
    · simp [gone, Ne.symm gone]

/-- A fork that receives the outcome of a child keeps its plan. -/
theorem Timed.received (h : o.Timed r job goal now plan left total) (hc : o.Consistent)
    (hr : o.Numbered (some job) role) {id : EvaluationId} {e : Evaluation} {response : Response}
    {parent : Parent} {pe : Evaluation} {f : Fork} {stack : List Frame}
    (live : o.evaluations.get? id = some e) (responded : e.phase = .responded response)
    (child : e.parent = some parent) (above : o.evaluations.get? parent.id = some pe)
    (joining : pe.phase = .joining f stack)
    (hchild : ∀ {x c i}, o'.Child x i c ↔ o.Child x i c ∧ c ≠ id)
    (hs : ∀ n ∈ o.scopes.cancelled, n ∈ o'.scopes.cancelled)
    (stops : (f.join.receive parent.index response.outcome).1 = true →
      f.scope.number ∈ o'.scopes.cancelled)
    (same : pe.job = job) (free : o.scopes.isCancelled pe.scope = false) :
    o'.OnTime r now plan parent.id
      (.joining
        { f with
          join := (f.join.receive parent.index response.outcome).2
          missing := f.missing - 1 } stack) (left parent.id) := by
  refine (joining ▸ h.onTime above same free).received ⟨e, live, child⟩ hchild ?_ hs stops ?_
  · rintro k ⟨e₀, live₀, hparent⟩
    cases live.symm.trans live₀
    exact congrArg Parent.index (Option.some.inj (hparent.symm.trans child))
  · by_cases hfork : f.scope.number ∈ o.scopes.cancelled
    · exact .inl ⟨hfork, hr.decided above joining hfork⟩
    · have kept : ∀ {c ce i}, o.evaluations.get? c = some ce →
          ce.parent = some ⟨parent.id, i⟩ → o.OnTime r now plan c ce.phase (left c) := by
        intro c ce i hce hparent
        obtain ⟨pe', -, -, above', -, family', -⟩ := hc.above hce hparent
        cases above'.symm.trans above
        exact h.onTime hce (family' ▸ same)
          (hr.free_child hc.toForked hce hparent above joining free hfork)
      obtain ⟨outcome, time⟩ := (responded ▸ kept live child).of_responded
      exact .inr ⟨hfork, outcome, time, fun k c ⟨ce, hce, hparent⟩ =>
        (kept hce hparent).le_time⟩

/-- The outcome of a child arrives. A child of the job that is not cancelled has kept its plan, and
so have its siblings. -/
theorem Timed.collectChild (h : o.Timed r job goal now plan left total) (hc : o.Consistent)
    (hr : o.Numbered (some job) role) {id : EvaluationId} {e : Evaluation} {response : Response}
    {parent : Parent} {pe : Evaluation} {f : Fork} {stack : List Frame}
    (live : o.evaluations.get? id = some e) (responded : e.phase = .responded response)
    (child : e.parent = some parent) (above : o.evaluations.get? parent.id = some pe)
    (joining : pe.phase = .joining f stack)
    (he : o'.evaluations = (o.evaluations.erase id).insert parent.id
      { pe with
        phase := .joining
          { f with
            join := (f.join.receive parent.index response.outcome).2
            missing := f.missing - 1 } stack })
    (hp : o'.posts = o.posts) (ht : o'.threads = o.threads) (hj : o'.jobs = o.jobs)
    (hs : ∀ n ∈ o.scopes.cancelled, n ∈ o'.scopes.cancelled)
    (stops : (f.join.receive parent.index response.outcome).1 = true →
      f.scope.number ∈ o'.scopes.cancelled) :
    o'.Pays r job goal now total (e.job = job) := by
  have hne : id ≠ parent.id := by
    rintro rfl
    cases live.symm.trans above
    cases responded.symm.trans joining
  obtain ⟨pe', f', stack', above', joining', family, -⟩ := hc.above live child
  cases above'.symm.trans above
  cases joining'.symm.trans joining
  obtain ⟨stems, hchild⟩ := child_collect hne above he
  have before : ∀ {id' e'}, o'.evaluations.get? id' = some e' → parent.id ≠ id' →
      o.evaluations.get? id' = some e' ∧ id' ≠ id := by
    intro id' e' live' there
    rw [he, Table.get?_insert, if_neg there, Table.get?_erase] at live'
    split at live'
    · cases live'
    · exact ⟨live', Ne.symm ‹_›⟩
  have owned : ∀ id', o'.Owned job id' ↔ o.Owned job id' ∧ id' ≠ id := owned_collect hne above he
  have scheduled : o'.Scheduled job goal now plan :=
    h.toScheduled.frame hp stems hs (by rw [ht]) (hj ▸ fun known => known)
  have toDrain : ∀ {id' e'}, o'.evaluations.get? id' = some e' → e'.job = job →
      e'.phase.toDrain ≤ left id' := by
    intro id' e' live' same
    by_cases there : parent.id = id'
    · subst there
      rw [he, Table.get?_insert, if_pos rfl] at live'
      cases live'
      have drain := h.toDrain above same
      rw [joining] at drain
      exact drain
    · exact h.toDrain (before live' there).1 same
  have onTime : ∀ {id' e'}, o'.evaluations.get? id' = some e' → e'.job = job →
      o'.scopes.isCancelled e'.scope = false → o'.OnTime r now plan id' e'.phase (left id') := by
    intro id' e' live' same free
    have free := ScopeTree.free_mono hs free
    by_cases there : parent.id = id'
    · subst there
      rw [he, Table.get?_insert, if_pos rfl] at live'
      cases live'
      exact h.received hc hr live responded child above joining hchild hs stops same free
    · refine (h.onTime (before live' there).1 same free).congr rfl (fun {i c} => ?_)
        (fun _ => rfl) hs
      rw [hchild, and_iff_left_iff_imp]
      rintro ⟨ce, hce, hparent⟩ rfl
      cases hce.symm.trans live
      cases hparent.symm.trans child
      exact there rfl
  by_cases same : e.job = job
  · obtain ⟨total', less, affords⟩ :=
      h.affords.shrink ⟨e, live, same⟩ owned (h.left_pos live same responded)
    exact ⟨plan, left, total',
      { toScheduled := scheduled
        submitted := fun thread => by
          cases (hc.thread_of_evaluation live).symm.trans (same ▸ ht ▸ thread)
        toDrain := toDrain
        onTime := onTime
        affords := affords }, Nat.le_of_lt less, fun _ => less⟩
  · exact ⟨plan, left, total,
      { toScheduled := scheduled
        submitted := fun thread => h.submitted (ht ▸ thread)
        toDrain := toDrain
        onTime := onTime
        affords := h.affords.drop live same owned }, Nat.le_refl total,
      fun hjob => absurd hjob same⟩

end Outline

end WorkflowEngine
