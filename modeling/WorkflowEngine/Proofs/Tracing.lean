import WorkflowEngine.Proofs.ScopeRoles
/-!
What a job sends over the wire, and what is known of the job from that: which workflow each of its
evaluations got, and how the job may end.
-/
set_option autoImplicit false

namespace WorkflowEngine

namespace Outline

/-- The workflows of a job that an event sends to a worker. -/
inductive Sends (o : Outline) (job : JobId) : Event → Workflow → Prop
  | root {w : Workflow} {scope : Scope} (thread : o.threads.get? job = some (.submitted w scope)) :
      Sends o job (.move (.begin job)) w
  | child {id : EvaluationId} {e : Evaluation} {f : Fork} {w : Workflow} {rest : List Workflow}
      {stack : List Frame} (live : o.evaluations.get? id = some e) (same : e.job = job)
      (joining : e.phase = .joining f stack) (waiting : f.waiting = w :: rest) :
      Sends o job (.move (.advance id)) w

/-- The outcomes of machines of a job that an event sends back from a worker. -/
inductive Replies (o : Outline) (job : JobId) : Event → Outcome → Prop
  | finished {id : EvaluationId} {e : Evaluation} {m : Machine} {outcome : Outcome}
      (live : o.evaluations.get? id = some e) (same : e.job = job) (running : e.phase = .running m)
      (free : o.scopes.isCancelled e.scope = false)
      (finished : m.step o.registry = .finished outcome) :
      Replies o job (.move (.advance id)) outcome

/-- Nobody outside cancels the job or shuts the engine down, and what the job sends over the wire
arrives as it was. -/
structure Undisturbed (o : Outline) (job : JobId) (ev : Event) : Prop where
  spares : ev.Spares (some job)
  sends : ∀ {w}, o.Sends job ev w → Workflow.decode w.encode = .ok w
  replies : ∀ {outcome}, o.Replies job ev outcome → Outcome.decode outcome.encode = outcome

/-- What is known of a job with a workflow, its evaluations apart. -/
structure Traced (o : Outline) (s : Surroundings) (w : Workflow)
    (source : EvaluationId → Workflow) : Prop where
  base : ∀ {e : Evaluation}, e.job = s.job → ∃ worker, o.surroundings e = { s with worker }
  known : o.Known s.job.uuid
  mail : ∀ {i : Nat} {post : Post} {d e}, o.posts[i]? = some post → d ∈ post.inbox →
    o.evaluations.get? d.evaluation = some e → e.job = s.job →
    Workflow.decode d.payload = .ok (source d.evaluation)
  root : ∀ {id e}, o.evaluations.get? id = some e → e.job = s.job → e.parent = none →
    source id = w
  submitted : ∀ {v scope}, o.threads.get? s.job = some (.submitted v scope) → v = w
  ended : ∀ {outcome}, o.threads.get? s.job = some (.ended outcome) →
    ∃ r : Except WorkflowError Value, Permits s w r ∧ outcome = r.mapError .error

variable {o o' : Outline} {s : Surroundings} {w : Workflow} {source : EvaluationId → Workflow}
  {job : JobId}

/-- Nothing is sent by events other than the begin of a job and the turns of evaluations. -/
theorem undisturbed_of_quiet (ev : Event) (spares : ev.Spares (some job))
    (begins : ev ≠ .move (.begin job)) (advances : ∀ id, ev ≠ .move (.advance id)) :
    o.Undisturbed job ev where
  spares := spares
  sends := by
    rintro w (thread | ⟨live, same, joining, waiting⟩)
    · exact absurd rfl begins
    · exact absurd rfl (advances _)
  replies := by
    rintro outcome ⟨live, same, running, free, finished⟩
    exact absurd rfl (advances _)

theorem undisturbed_begin {w : Workflow} {scope : Scope}
    (thread : o.threads.get? job = some (.submitted w scope))
    (survives : Workflow.decode w.encode = .ok w) : o.Undisturbed job (.move (.begin job)) where
  spares := trivial
  sends := by
    rintro v ⟨thread'⟩
    cases thread'.symm.trans thread
    exact survives
  replies := by
    rintro outcome ⟨⟩

theorem undisturbed_advance (id : EvaluationId) {e : Evaluation}
    (live : o.evaluations.get? id = some e) (places : ∀ f stack, e.phase ≠ .joining f stack)
    (survives : ∀ m outcome, e.phase = .running m → m.step o.registry = .finished outcome →
      Outcome.decode outcome.encode = outcome) : o.Undisturbed job (.move (.advance id)) where
  spares := trivial
  sends := by
    intro v h
    cases h with
    | child live' same joining waiting =>
      cases live'.symm.trans live
      exact absurd joining (places _ _)
  replies := by
    intro outcome h
    cases h with
    | finished live' same running free finished =>
      cases live'.symm.trans live
      exact survives _ _ running finished

theorem undisturbed_joining (id : EvaluationId) {e : Evaluation} {f : Fork} {stack : List Frame}
    (live : o.evaluations.get? id = some e) (joining : e.phase = .joining f stack)
    (survives : ∀ w rest, f.waiting = w :: rest → Workflow.decode w.encode = .ok w) :
    o.Undisturbed job (.move (.advance id)) where
  spares := trivial
  sends := by
    intro v h
    cases h with
    | child live' same joining' waiting =>
      cases live'.symm.trans live
      cases joining'.symm.trans joining
      exact survives _ _ waiting
  replies := by
    intro outcome h
    cases h with
    | finished live' same running free finished =>
      cases live'.symm.trans live
      cases running.symm.trans joining

end Outline

namespace Cluster.Run

variable {job : JobId} {a b : Cluster} {e : Evaluation} {m : Machine}

/-! What an evaluation does on its worker leaves its job undisturbed. -/

theorem starts (run : Run (fun b ev => b.outline.Undisturbed job ev) a b) (id : EvaluationId)
    {payload : String} {w : Workflow} (live : b.evaluations.get? id = some e)
    (accepted : e.phase = .accepted payload) (decoded : Workflow.decode payload = .ok w) :
    Run (fun b ev => b.outline.Undisturbed job ev) a
      (b.setPhase id e (.running (.start w))) :=
  run.step
    (Outline.undisturbed_advance id live (by simp [accepted]) (by simp [accepted]))
    (after_accepted id live accepted decoded)

theorem moves (run : Run (fun b ev => b.outline.Undisturbed job ev) a b) (id : EvaluationId)
    {m' : Machine} (live : b.evaluations.get? id = some e) (running : e.phase = .running m)
    (free : b.scopes.isCancelled e.scope = false) (next : m.step b.registry = .next m') :
    Run (fun b ev => b.outline.Undisturbed job ev) a
      (b.setPhase id { e with steps := e.steps + 1 } (.running m')) := by
  refine run.step (Outline.undisturbed_advance id live (by simp [running]) ?_)
    (after_moved id live running free next)
  intro n outcome same finished
  cases same.symm.trans running
  cases finished.symm.trans next

theorem replies (run : Run (fun b ev => b.outline.Undisturbed job ev) a b) (id : EvaluationId)
    {o : Outcome} (live : b.evaluations.get? id = some e) (running : e.phase = .running m)
    (free : b.scopes.isCancelled e.scope = false) (finished : m.step b.registry = .finished o)
    (survives : Outcome.decode o.encode = o) :
    Run (fun b ev => b.outline.Undisturbed job ev) a
      (b.finish id { e with steps := e.steps + 1 } o) := by
  refine run.step (Outline.undisturbed_advance id live (by simp [running]) ?_)
    (after_finished id live running free finished)
  intro n outcome same finished'
  cases same.symm.trans running
  cases finished'.symm.trans finished
  exact survives

end Cluster.Run

namespace Outline

variable {o o' : Outline} {s : Surroundings} {w : Workflow} {source : EvaluationId → Workflow}
  {job : JobId}

theorem Dispatched.surroundings {job : JobId} {parent : Option Parent} {scope : Scope}
    {v : Workflow} (sent : o.Dispatched job parent scope v o') :
    o'.surroundings = o.surroundings := by
  cases sent <;> rfl

theorem Step.surroundings {ev : Event} (h : o.Step ev o') : o'.surroundings = o.surroundings := by
  cases h with
  | begin thread sent => exact sent.surroundings
  | place live joining waiting sent => exact sent.surroundings
  | _ => rfl

theorem Step.registry {ev : Event} (h : o.Step ev o') : o'.registry = o.registry :=
  congrArg Surroundings.registry
    (congrFun h.surroundings ⟨⟨o.newId⟩, none, none, .root, 0, .queued⟩)

/-- What is on its way stays there, and so do the threads of the job. -/
theorem Traced.congr (h : o.Traced s w source) (hb : o'.surroundings = o.surroundings)
    (hn : o.nextId ≤ o'.nextId)
    (hp : ∀ {i : Nat} {post' : Post} {d}, o'.posts[i]? = some post' → d ∈ post'.inbox →
      ∃ post, o.posts[i]? = some post ∧ d ∈ post.inbox)
    (hk : o'.StemsFrom o)
    (submitted : ∀ {v scope}, o'.threads.get? s.job = some (.submitted v scope) → v = w)
    (ended : ∀ {outcome}, o'.threads.get? s.job = some (.ended outcome) →
      ∃ r : Except WorkflowError Value, Permits s w r ∧ outcome = r.mapError .error) :
    o'.Traced s w source where
  base := by
    rw [hb]
    exact h.base
  known := h.known.mono hn
  mail := by
    intro i post' d e' at_slot' hd live' hjob
    obtain ⟨post, at_slot, hd⟩ := hp at_slot' hd
    obtain ⟨e, live, hj, -⟩ := hk _ e' live'
    exact h.mail at_slot hd live (hj ▸ hjob)
  root := by
    intro id e' live' hjob hnone
    obtain ⟨e, live, hj, hparent, -⟩ := hk id e' live'
    exact h.root live (hj ▸ hjob) (hparent ▸ hnone)
  submitted := submitted
  ended := ended

/-- Neither mail nor threads have changed. -/
theorem Traced.frame (h : o.Traced s w source) (hb : o'.surroundings = o.surroundings)
    (hn : o.nextId ≤ o'.nextId) (hp : o'.posts = o.posts) (ht : o'.threads = o.threads)
    (hk : o'.StemsFrom o) : o'.Traced s w source :=
  h.congr hb hn (fun at_slot hd => ⟨_, hp ▸ at_slot, hd⟩) hk (fun hs => h.submitted (ht ▸ hs))
    fun he => h.ended (ht ▸ he)

theorem Dispatched.mail {job : JobId} {parent : Option Parent} {scope : Scope} {v : Workflow}
    (sent : o.Dispatched job parent scope v o') {i : Nat} {post' : Post} {d : Delivery}
    (at_slot' : o'.posts[i]? = some post') (hd : d ∈ post'.inbox) :
    d = ⟨⟨o.newId⟩, v.encode⟩ ∨ ∃ post, o.posts[i]? = some post ∧ d ∈ post.inbox := by
  cases sent with
  | sent now at_slot listens =>
    rcases modify_cases at_slot' with ⟨rfl, post, at_slot, rfl⟩ | ⟨-, at_slot⟩
    · rcases List.mem_append.1 hd with hd | hd
      · exact .inr ⟨post, at_slot, hd⟩
      · exact .inl (List.mem_singleton.1 hd)
    · exact .inr ⟨post', at_slot, hd⟩
  | refused => exact .inr ⟨post', at_slot', hd⟩

/-- What waits in an inbox after a placement is the new delivery, or has waited there before. -/
theorem Dispatched.delivered {job : JobId} {parent : Option Parent} {scope : Scope} {v : Workflow}
    (sent : o.Dispatched job parent scope v o') (hm : o.Mailed)
    (fresh : o.evaluations.get? ⟨o.newId⟩ = none) {i : Nat} {post' : Post} {d : Delivery}
    {e : Evaluation} (at_slot' : o'.posts[i]? = some post') (hd : d ∈ post'.inbox)
    (live : o'.evaluations.get? d.evaluation = some e) :
    (d = ⟨⟨o.newId⟩, v.encode⟩ ∧ ∃ p phase, e = ⟨job, parent, some p, scope, 0, phase⟩) ∨
      (d.evaluation ≠ ⟨o.newId⟩ ∧ o.evaluations.get? d.evaluation = some e ∧
        ∃ post, o.posts[i]? = some post ∧ d ∈ post.inbox) := by
  obtain ⟨p, phase, hget, -⟩ := sent.get?
  rcases sent.mail at_slot' hd with rfl | ⟨post, at_slot, hd⟩
  · rw [hget, if_pos rfl] at live
    exact .inl ⟨rfl, p, phase, (Option.some.inj live).symm⟩
  · obtain ⟨e₀, -, live₀, -⟩ := (hm.queued at_slot).2 (List.mem_map_of_mem hd)
    have hne : d.evaluation ≠ ⟨o.newId⟩ := by
      intro hid
      rw [hid, fresh] at live₀
      cases live₀
    rw [hget, if_neg (Ne.symm hne)] at live
    exact .inr ⟨hne, live, post, at_slot, hd⟩

/-- The workflow of a new evaluation is the one that was sent. -/
theorem Dispatched.traced {job : JobId} {parent : Option Parent} {scope : Scope} {v : Workflow}
    (sent : o.Dispatched job parent scope v o') (h : o.Traced s w source) (hm : o.Mailed)
    (fresh : o.evaluations.get? ⟨o.newId⟩ = none)
    (survives : job = s.job → Workflow.decode v.encode = .ok v)
    (root : job = s.job → parent = none → v = w) :
    o'.Traced s w (Function.update source ⟨o.newId⟩ v) := by
  obtain ⟨p, phase, hget, -⟩ := sent.get?
  obtain ⟨-, -, hthreads, -, hnext⟩ := sent.unchanged
  refine
    { base := ?_
      known := h.known.mono (by omega)
      mail := ?_
      root := ?_
      submitted := fun hs => h.submitted (hthreads ▸ hs)
      ended := fun he => h.ended (hthreads ▸ he) }
  · rw [sent.surroundings]
    exact h.base
  · intro i post' d e at_slot' hd live hjob
    rcases sent.delivered hm fresh at_slot' hd live with
      ⟨rfl, p, phase, rfl⟩ | ⟨hne, live, post, at_slot, hd⟩
    · rw [Function.update_self]
      exact survives hjob
    · rw [Function.update_of_ne hne]
      exact h.mail at_slot hd live hjob
  · intro id e live hjob hnone
    rw [hget] at live
    split at live
    · next hid =>
      subst hid
      cases live
      rw [Function.update_self]
      exact root hjob hnone
    · next hid =>
      rw [Function.update_of_ne (Ne.symm hid)]
      exact h.root live hjob hnone

theorem Traced.registry (h : o.Traced s w source) {e : Evaluation} (same : e.job = s.job) :
    o.registry = s.registry := by
  obtain ⟨worker, hb⟩ := h.base same
  exact congrArg Surroundings.registry hb

end Outline

namespace Cluster

theorem Run.registry {P : Cluster → Event → Prop} {a b : Cluster} (run : Run P a b)
    (hc : a.outline.Consistent) (hn : b.nextId < Uuid.supply) : b.registry = a.registry := by
  refine run.invariant (I := fun c => c.outline.registry = a.registry) hc hn rfl ?_
  intro c ev c' _ _ _ s h
  exact s.registry.trans h

/-- A job that has just been submitted has no evaluation yet. -/
theorem ne_submit {c : Cluster} (hc : c.outline.Consistent) (hn : c.nextId < Uuid.supply)
    (name : String) (w : Workflow) {id : EvaluationId} {e : Evaluation}
    (live : c.evaluations.get? id = some e) : e.job ≠ (c.submit name w).1 := fun same =>
  (hc.thread_known (hc.thread_of_evaluation live)).ne_newId hn (congrArg JobId.uuid same)

theorem thread_submit (c : Cluster) (name : String) (w : Workflow) :
    (c.submit name w).2.outline.threads.get? (c.submit name w).1 =
      some (.submitted w (c.scopes.child .root).1) := by
  unfold submit
  rw [outline_wake]
  exact (Table.get?_insert _ _ _ _).trans (if_pos rfl)

theorem evaluations_submit (c : Cluster) (name : String) (w : Workflow) :
    (c.submit name w).2.outline.evaluations = c.evaluations := by
  unfold submit
  rw [outline_wake]
  rfl

theorem absent_submit {c : Cluster} (hc : c.outline.Consistent) (hn : c.nextId < Uuid.supply)
    (name : String) (w : Workflow) {id : EvaluationId} {e : Evaluation}
    (live : (c.submit name w).2.outline.evaluations.get? id = some e) :
    e.job ≠ (c.submit name w).1 :=
  ne_submit hc hn name w (evaluations_submit c name w ▸ live)

theorem Run.ids_submit {P : Cluster → Event → Prop} {c₀ c : Cluster} {name : String} {w : Workflow}
    (run : Run P (c₀.submit name w).2 c) (ids : c.nextId < Uuid.supply) :
    c₀.nextId < Uuid.supply := by
  have submitted : c₀.after (.submit name w) = some (c₀.submit name w).2 := rfl
  exact Nat.lt_of_le_of_lt ((nextId_after submitted).trans run.nextId_le) ids

end Cluster

end WorkflowEngine
