import WorkflowEngine.Proofs.Run
/-!
Outlines of engines: what their steps decide on, without caches, loads, the clock and the order of
woken threads. Each step of an engine changes its outline in one of a few ways.
-/
set_option autoImplicit false

namespace WorkflowEngine

/-- A worker with what waits in its inbox. -/
structure Post where
  listening : Bool
  inbox : List Delivery

/-- The first three parts never change; `size` is that of the pool. -/
@[ext] structure Outline where
  registry : Registry
  settings : DataSettings
  policy : DeliveryPolicy
  size : Nat
  posts : List Post
  evaluations : Table EvaluationId Evaluation
  jobs : Table JobId JobEntry
  threads : Table JobId JobThread
  ledger : Ledger
  scopes : ScopeTree
  nextId : Nat

def Worker.post (w : Worker) : Post := ⟨w.listening, w.inbox⟩

def Cluster.outline (c : Cluster) : Outline where
  registry := c.registry
  settings := c.settings
  policy := c.policy
  size := c.dispatcher.pool.size
  posts := c.workers.map Worker.post
  evaluations := c.evaluations
  jobs := c.jobs
  threads := c.threads
  ledger := c.dispatcher.ledger
  scopes := c.scopes
  nextId := c.nextId

/-- Whether the thread of a job has come to its end. -/
def JobThread.HasEnded : JobThread → Prop
  | .ended _ => True
  | _ => False

namespace Outline

def newId (o : Outline) : Uuid := Uuid.fresh o.nextId

def surroundings (o : Outline) (e : Evaluation) : Surroundings where
  job := e.job
  worker := (e.placement.map Placement.worker).getD ⟨""⟩
  workerCount := o.size
  registry := o.registry
  settings := o.settings
  policy := o.policy

def place (o : Outline) (job : JobId) (parent : Option Parent) (scope : Scope) (p : Placement)
    (now : Timestamp) (phase : Phase) : Outline :=
  { o with
    evaluations := o.evaluations.insert ⟨o.newId⟩ ⟨job, parent, some p, scope, 0, phase⟩
    ledger := o.ledger.add
      ⟨⟨o.newId⟩, job, parent.map Parent.id, p.worker, .running, now, none⟩
    nextId := o.nextId + 1 }

/-- A workflow is placed: it waits in an inbox, unless the worker has stopped. -/
inductive Dispatched (o : Outline) (job : JobId) (parent : Option Parent) (scope : Scope)
    (w : Workflow) : Outline → Prop
  | sent {p : Placement} (now : Timestamp) {post : Post} (at_slot : o.posts[p.slot]? = some post)
      (listens : post.listening = true) :
      Dispatched o job parent scope w
        { o.place job parent scope p now .queued with
          posts := o.posts.modify p.slot fun q =>
            { q with inbox := q.inbox ++ [⟨⟨o.newId⟩, w.encode⟩] } }
  | refused {p : Placement} (now : Timestamp) {post : Post} (at_slot : o.posts[p.slot]? = some post)
      (stopped : post.listening = false) :
      Dispatched o job parent scope w
        (o.place job parent scope p now (.responded (.failed (.unreachable p.worker))))

/-- The evaluations after deliveries were dropped by a worker. -/
def dropAll (worker : WorkerId) (ds : List Delivery) (t : Table EvaluationId Evaluation) :
    Table EvaluationId Evaluation :=
  ds.foldl (fun t d =>
    match t.get? d.evaluation with
    | some e => t.insert d.evaluation { e with phase := .responded (.failed (.dropped worker)) }
    | none => t) t

end Outline

/-- What an evaluation does next in each phase. -/
inductive Cluster.Turn.Follows (scopes : ScopeTree) (e : Evaluation) : Turn → Prop
  | started {payload : String} {w : Workflow} (accepted : e.phase = .accepted payload)
      (decoded : Workflow.decode payload = .ok w) : Follows scopes e (.start w)
  | undecoded {payload : String} {err : WorkflowError} (accepted : e.phase = .accepted payload)
      (decoded : Workflow.decode payload = .error err) :
      Follows scopes e (.reply (.error (.error err)))
  | stopped {m : Machine} (running : e.phase = .running m)
      (cancelled : scopes.isCancelled e.scope = true) :
      Follows scopes e (.reply (.error .cancelled))
  | steps {m : Machine} (running : e.phase = .running m)
      (free : scopes.isCancelled e.scope = false) : Follows scopes e (.step m)
  | interrupted {p : Program (Reply Value)} {due : Option Nat} {stack : List Frame}
      (operating : e.phase = .operating p due stack)
      (cancelled : scopes.isCancelled e.scope = true) :
      Follows scopes e (.resume stack (.error .cancelled))
  | returned {v : Value} {due : Option Nat} {stack : List Frame}
      (operating : e.phase = .operating (.done (.ok v)) due stack)
      (free : scopes.isCancelled e.scope = false) : Follows scopes e (.resume stack (.ok v))
  | failed {err : WorkflowError} {due : Option Nat} {stack : List Frame}
      (operating : e.phase = .operating (.done (.failed err)) due stack)
      (free : scopes.isCancelled e.scope = false) :
      Follows scopes e (.resume stack (.error (.error err)))
  | aborted {message : Option String} {due : Option Nat} {stack : List Frame}
      (operating : e.phase = .operating (.done (.aborted message)) due stack)
      (free : scopes.isCancelled e.scope = false) :
      Follows scopes e (.reply (.error (.error (abortError message))))
  | asks {r : Request} {next : r.Answer → Program (Reply Value)} {due : Option Nat}
      {stack : List Frame} (operating : e.phase = .operating (.ask r next) due stack)
      (free : scopes.isCancelled e.scope = false) : Follows scopes e (.ask r next due stack)
  | places {w : Workflow} {rest : List Workflow} {f : Fork} {stack : List Frame}
      (joining : e.phase = .joining f stack) (waiting : f.waiting = w :: rest) :
      Follows scopes e (.place w rest f stack)
  | joined {f : Fork} {stack : List Frame} (joining : e.phase = .joining f stack)
      (placed : f.waiting = []) (arrived : f.missing = 0) :
      Follows scopes e (.resume stack (f.join.outcome (scopes.isCancelled e.scope)))

/-- The phases that a turn may lead to, other than by opening a fork or placing a child. -/
inductive Cluster.Turn.Leads (s : Surroundings) : Turn → Phase → Prop
  | next {m m' : Machine} (h : m.step s.registry = .next m') : Leads s (.step m) (.running m')
  | finished {m : Machine} {o : Outcome} (h : m.step s.registry = .finished o) :
      Leads s (.step m) (.responded (.reply o.encode))
  | aborted {m : Machine} {message : Option String} (h : m.step s.registry = .aborted message) :
      Leads s (.step m)
        (.responded (.reply (Outcome.encode (.error (.error (abortError message))))))
  | childless {m : Machine} {kind : ForkKind} {stack : List Frame}
      (h : m.step s.registry = .fork kind [] stack) :
      Leads s (.step m) (.running ⟨stack, .resume ((Join.start kind 0).outcome false)⟩)
  | immediate {m : Machine} {op : Operation} {stack : List Frame}
      {r : Except WorkflowError Value} (h : m.step s.registry = .operate op stack)
      (he : op.effect s = .immediate r) :
      Leads s (.step m) (.running ⟨stack, .resume (r.mapError .error)⟩)
  | guarded {m : Machine} {op : Operation} {stack : List Frame} {p : Program (Reply Value)}
      (h : m.step s.registry = .operate op stack) (he : op.effect s = .guarded p) :
      Leads s (.step m) (.operating p none stack)
  | paused {micros due' : Nat} {next : (Request.pause micros).Answer → Program (Reply Value)}
      {due : Option Nat} {stack : List Frame} :
      Leads s (.ask (.pause micros) next due stack)
        (.operating (.ask (.pause micros) next) (some due') stack)
  | answered {r : Request} {next : r.Answer → Program (Reply Value)} {due : Option Nat}
      {stack : List Frame} (answer : r.Answer) :
      Leads s (.ask r next due stack) (.operating (next answer) none stack)
  | resumed {stack : List Frame} {o : Outcome} :
      Leads s (.resume stack o) (.running ⟨stack, .resume o⟩)
  | started {w : Workflow} : Leads s (.start w) (.running (.start w))
  | replied {o : Outcome} : Leads s (.reply o) (.responded (.reply o.encode))

namespace Outline

/-- How an outline changes when something happens. -/
inductive Step (o : Outline) : Event → Outline → Prop
  | elapse {time : Nat} : Step o (.elapse time) o
  | arrange {ready : List Thread} : Step o (.arrange ready) o
  | submit {name : String} {w : Workflow} (now : Timestamp) :
      Step o (.submit name w)
        { o with
          jobs := o.jobs.insert ⟨o.newId⟩
            ⟨⟨⟨o.newId⟩, name, .running, now, none, none⟩, (o.scopes.child .root).1⟩
          threads := o.threads.insert ⟨o.newId⟩ (.submitted w (o.scopes.child .root).1)
          scopes := (o.scopes.child .root).2
          nextId := o.nextId + 1 }
  | cancel {job : JobId} {entry : JobEntry} (known : o.jobs.get? job = some entry)
      (running : entry.job.status.isTerminal = false) :
      Step o (.cancel job) { o with scopes := o.scopes.cancel entry.scope }
  | forget {job : JobId} {entry : JobEntry} (known : o.jobs.get? job = some entry)
      (ended : entry.job.status.isTerminal = true) :
      Step o (.forget job)
        { o with jobs := o.jobs.erase job, ledger := (o.ledger.prune job).2 }
  | shutdown : Step o .shutdown { o with scopes := o.scopes.cancel .root }
  | begin {job : JobId} {w : Workflow} {scope : Scope} {o' : Outline}
      (thread : o.threads.get? job = some (.submitted w scope))
      (sent : Dispatched { o with threads := o.threads.insert job .waiting } job none scope w o') :
      Step o (.move (.begin job)) o'
  | receive {i : Nat} {post : Post} {d : Delivery} {rest : List Delivery} {e : Evaluation}
      (at_slot : o.posts[i]? = some post) (inbox : post.inbox = d :: rest)
      (live : o.evaluations.get? d.evaluation = some e) :
      Step o (.move (.receive i))
        { o with
          posts := o.posts.modify i fun q => { q with inbox := rest }
          evaluations := o.evaluations.insert d.evaluation
            { e with phase := .accepted d.payload } }
  | close {i : Nat} {post : Post} {worker : WorkerId} (at_slot : o.posts[i]? = some post)
      (stopped : o.scopes.isCancelled .root = true) :
      Step o (.move (.close i))
        { o with
          posts := o.posts.modify i fun _ => ⟨false, []⟩
          evaluations := dropAll worker post.inbox o.evaluations }
  | shift {id : EvaluationId} {e : Evaluation} {t : Cluster.Turn} (steps : Nat) {n : Nat}
      {phase : Phase} (live : o.evaluations.get? id = some e) (turn : t.Follows o.scopes e)
      (leads : t.Leads (o.surroundings e) phase) (later : o.nextId ≤ n ∧ n ≤ o.nextId + 1) :
      Step o (.move (.advance id))
        { o with evaluations := o.evaluations.insert id { e with steps, phase }, nextId := n }
  | fork {id : EvaluationId} {e : Evaluation} {m : Machine} {kind : ForkKind} {first : Workflow}
      {rest : List Workflow} {stack : List Frame} (steps : Nat)
      (live : o.evaluations.get? id = some e) (running : e.phase = .running m)
      (free : o.scopes.isCancelled e.scope = false)
      (forks : m.step o.registry = .fork kind (first :: rest) stack) :
      Step o (.move (.advance id))
        { o with
          evaluations := o.evaluations.insert id
            { e with
              steps
              phase := .joining ⟨Join.start kind (rest.length + 1), (o.scopes.child e.scope).1, 0,
                first :: rest, rest.length + 1⟩ stack }
          scopes := (o.scopes.child e.scope).2 }
  | place {id : EvaluationId} {e : Evaluation} {f : Fork} {w : Workflow} {rest : List Workflow}
      {stack : List Frame} {o' : Outline} (live : o.evaluations.get? id = some e)
      (joining : e.phase = .joining f stack) (waiting : f.waiting = w :: rest)
      (sent : Dispatched
        { o with
          evaluations := o.evaluations.insert id
            { e with phase := .joining { f with placed := f.placed + 1, waiting := rest } stack }
          scopes := (o.scopes.child f.scope).2 }
        e.job (some ⟨id, f.placed⟩) (o.scopes.child f.scope).1 w o') :
      Step o (.move (.advance id)) o'
  | collectRoot {id : EvaluationId} {e : Evaluation} {r : Response} {entry : JobEntry}
      (now : Timestamp) (live : o.evaluations.get? id = some e) (responded : e.phase = .responded r)
      (root : e.parent = none) (known : o.jobs.get? e.job = some entry) :
      Step o (.move (.collect id))
        { o with
          evaluations := o.evaluations.erase id
          ledger := o.ledger.finish id r.outcome.status now
          threads := o.threads.insert e.job (.ended r.outcome)
          jobs := o.jobs.insert e.job (Cluster.endedEntry entry r.outcome now) }
  | collectChild {id : EvaluationId} {e : Evaluation} {r : Response} (now : Timestamp)
      {parent : Parent} {pe : Evaluation} {f : Fork} {stack : List Frame}
      (live : o.evaluations.get? id = some e) (responded : e.phase = .responded r)
      (child : e.parent = some parent) (above : o.evaluations.get? parent.id = some pe)
      (joining : pe.phase = .joining f stack) :
      Step o (.move (.collect id))
        { o with
          evaluations := (o.evaluations.erase id).insert parent.id
            { pe with
              phase := .joining
                { f with
                  join := (f.join.receive parent.index r.outcome).2
                  missing := f.missing - 1 } stack }
          ledger := o.ledger.finish id r.outcome.status now
          scopes := if (f.join.receive parent.index r.outcome).1 then o.scopes.cancel f.scope
            else o.scopes }

end Outline

namespace Cluster

theorem follows_of_turn {scopes : ScopeTree} {e : Evaluation} {t : Turn}
    (h : turn scopes e = some t) : t.Follows scopes e := by
  unfold turn at h
  split at h
  · cases h
  · cases h
  · next payload hp =>
    split at h <;> cases h
    · exact .started hp ‹_›
    · exact .undecoded hp ‹_›
  · next m hp =>
    split at h <;> cases h
    · exact .stopped hp ‹_›
    · exact .steps hp (eq_false_of_ne_true ‹_›)
  · next p due stack hp =>
    split at h
    · cases h
      exact .interrupted hp ‹_›
    · next hc =>
      have free := eq_false_of_ne_true hc
      split at h
      · next reply =>
        cases h
        cases reply with
        | ok v => exact .returned hp free
        | failed err => exact .failed hp free
        | aborted message => exact .aborted hp free
      · cases h
        exact .asks hp free
  · next f stack hp =>
    split at h
    · cases h
      exact .places hp ‹_›
    · split at h <;> cases h
      exact .joined hp ‹_› ‹_›

theorem turn_of_follows {scopes : ScopeTree} {e : Evaluation} {t : Turn}
    (h : t.Follows scopes e) : turn scopes e = some t := by
  cases h with
  | started accepted decoded => simp only [turn, accepted, decoded]
  | undecoded accepted decoded => simp only [turn, accepted, decoded]
  | stopped running cancelled => simp only [turn, running, cancelled, if_true]
  | steps running free => simp [turn, running, free]
  | interrupted operating cancelled => simp only [turn, operating, cancelled, if_true]
  | returned operating free => simp [turn, operating, free, endOperation]
  | failed operating free => simp [turn, operating, free, endOperation]
  | aborted operating free => simp [turn, operating, free, endOperation]
  | asks operating free => simp [turn, operating, free]
  | places joining waiting => simp only [turn, joining, waiting]
  | joined joining placed arrived => simp only [turn, joining, placed, arrived, if_true]

@[simp] theorem outline_wake (c : Cluster) (t : Thread) : (c.wake t).outline = c.outline := by
  unfold wake
  split <;> rfl

theorem outline_foldl_wake {α : Type} (f : α → Thread) (l : List α) (c : Cluster) :
    (l.foldl (fun c a => c.wake (f a)) c).outline = c.outline := by
  induction l generalizing c with
  | nil => rfl
  | cons a rest ih => simp [ih]

@[simp] theorem outline_setPhase (c : Cluster) (id : EvaluationId) (e : Evaluation) (p : Phase) :
    (c.setPhase id e p).outline =
      { c.outline with evaluations := c.evaluations.insert id { e with phase := p } } := rfl

@[simp] theorem outline_respond (c : Cluster) (id : EvaluationId) (e : Evaluation) (r : Response) :
    (c.respond id e r).outline =
      { c.outline with
        evaluations := c.evaluations.insert id { e with phase := .responded r } } := by
  unfold respond
  rw [outline_wake]
  rfl

@[simp] theorem outline_cancelScope (c : Cluster) (s : Scope) :
    (c.cancelScope s).outline = { c.outline with scopes := c.scopes.cancel s } := by
  unfold cancelScope
  rw [outline_foldl_wake fun entry : EvaluationId × Evaluation => Thread.evaluation entry.1]
  rfl

theorem map_modify_post {f : Worker → Worker} {g : Post → Post}
    (h : ∀ w, (f w).post = g w.post) (workers : List Worker) (i : Nat) :
    (workers.modify i f).map Worker.post = (workers.map Worker.post).modify i g := by
  apply List.ext_getElem?
  intro j
  simp only [List.getElem?_map, List.getElem?_modify]
  by_cases hij : i = j
  · cases workers[j]? <;> simp [hij, h]
  · simp [hij]

theorem outline_modifyWorker {f : Worker → Worker} {g : Post → Post}
    (h : ∀ w, (f w).post = g w.post) (c : Cluster) (i : Nat) :
    (c.modifyWorker i f).outline = { c.outline with posts := c.outline.posts.modify i g } := by
  unfold modifyWorker outline
  simp only [map_modify_post h]

@[simp] theorem outline_remember (c : Cluster) (e : Evaluation) (key : Key) (data : Bytes) :
    (c.remember e key data).outline = c.outline := by
  unfold remember
  split
  · rw [outline_modifyWorker (f := fun w => { w with cache := w.cache.insert key data }) (g := id)
      (fun _ => rfl), List.modify_id]
  · rfl

/-- Requests that are served touch nothing but the numbering of identifiers. -/
theorem outline_serve (c : Cluster) (e : Evaluation) (r : Request) :
    ∃ n, (c.nextId ≤ n ∧ n ≤ c.nextId + 1) ∧
      (c.serve e r).2.outline = { c.outline with nextId := n } := by
  cases r with
  | freshId => exact ⟨c.nextId + 1, by omega, rfl⟩
  | remember key data => exact ⟨c.nextId, by omega, outline_remember c e key data⟩
  | _ => exact ⟨c.nextId, by omega, rfl⟩

theorem outline_foldl_dropDelivery (worker : WorkerId) (ds : List Delivery) (c : Cluster) :
    (ds.foldl (dropDelivery worker) c).outline =
      { c.outline with evaluations := Outline.dropAll worker ds c.evaluations } := by
  induction ds generalizing c with
  | nil => rfl
  | cons d rest ih =>
    have hd : (dropDelivery worker c d).outline =
        { c.outline with evaluations := Outline.dropAll worker [d] c.evaluations } := by
      simp only [dropDelivery, Outline.dropAll, List.foldl_cons, List.foldl_nil]
      cases c.evaluations.get? d.evaluation with
      | none => rfl
      | some e => exact outline_respond _ _ _ _
    rw [List.foldl_cons, ih, hd]
    have he : (dropDelivery worker c d).evaluations = Outline.dropAll worker [d] c.evaluations :=
      congrArg Outline.evaluations hd
    rw [he]
    rfl

theorem outline_arrive {c : Cluster} {parent : Parent} {pe : Evaluation} {f : Fork}
    {stack : List Frame} (above : c.evaluations.get? parent.id = some pe)
    (joining : pe.phase = .joining f stack) (o : Outcome) :
    (c.arrive parent o).outline =
      { c.outline with
        evaluations := c.evaluations.insert parent.id
          { pe with
            phase := .joining
              { f with
                join := (f.join.receive parent.index o).2
                missing := f.missing - 1 } stack }
        scopes := if (f.join.receive parent.index o).1 then c.scopes.cancel f.scope
          else c.scopes } := by
  simp only [arrive, above, joining]
  split
  · rw [outline_cancelScope]
    rfl
  · rfl

theorem outline_endJob {c : Cluster} {job : JobId} (entry : JobEntry) (o : Outcome)
    (known : c.jobs.get? job = some entry) :
    (c.endJob job o).outline =
      { c.outline with
        threads := c.threads.insert job (.ended o)
        jobs := c.jobs.insert job (endedEntry entry o c.time) } := by
  simp only [endJob, known]
  rfl

theorem dispatched {c : Cluster} (hs : 0 < c.outline.size)
    (hp : c.outline.posts.length = c.outline.size) (job : JobId) (parent : Option Parent)
    (scope : Scope) (w : Workflow) :
    c.outline.Dispatched job parent scope w (c.dispatch job parent scope w).outline := by
  obtain ⟨i, name, q, hq, hi, hsize⟩ := Pool.exists_acquire (p := c.dispatcher.pool) hs
  have hlen : i < c.workers.length := by
    simp only [outline, List.length_map] at hp
    omega
  have hat : c.workers[i]? = some c.workers[i] := List.getElem?_eq_getElem hlen
  have hpost : c.outline.posts[i]? = some c.workers[i].post := by
    simp [outline, hat]
  unfold dispatch
  simp only [freshId, Dispatcher.place, hq, send, hat]
  by_cases hl : c.workers[i].listening = true
  · rw [if_pos hl, outline_wake, outline_modifyWorker
      (g := fun p => { p with inbox := p.inbox ++ [⟨⟨Uuid.fresh c.nextId⟩, w.encode⟩] })
      (fun _ => rfl)]
    refine (congrArg (c.outline.Dispatched job parent scope w) ?_).mp
      (.sent (p := ⟨i, name⟩) c.time hpost hl)
    exact Outline.ext rfl rfl rfl hsize.symm rfl rfl rfl rfl rfl rfl rfl
  · rw [if_neg hl, outline_respond]
    refine (congrArg (c.outline.Dispatched job parent scope w) ?_).mp
      (.refused (p := ⟨i, name⟩) c.time hpost (eq_false_of_ne_true hl))
    exact Outline.ext rfl rfl rfl hsize.symm rfl rfl rfl rfl rfl rfl rfl

end Cluster

end WorkflowEngine
