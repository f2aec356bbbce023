import WorkflowEngine.Proofs.Outline
import Mathlib.Data.Finset.Card
/-!
Consistent outlines: deliveries belong to queued evaluations, children to forks that wait for them,
evaluations to jobs whose threads wait. Events keep an outline consistent as long as fresh
identifiers differ, and change a consistent one in no other way than `Outline.Step` tells.
-/
set_option autoImplicit false

namespace WorkflowEngine

namespace Outline

/-- An identifier that was given before. -/
def Known (o : Outline) (u : Uuid) : Prop := ∃ n, n < o.nextId ∧ u = Uuid.fresh n

/-- Whether a queued evaluation was placed on the worker with an index. -/
def QueuedAt (o : Outline) (id : EvaluationId) (i : Nat) : Prop :=
  ∃ e p, o.evaluations.get? id = some e ∧ e.phase = .queued ∧ e.placement = some p ∧ p.slot = i

/-- Whether an evaluation is the child of another one with an index. -/
def Child (o : Outline) (id : EvaluationId) (i : Nat) (child : EvaluationId) : Prop :=
  ∃ e, o.evaluations.get? child = some e ∧ e.parent = some ⟨id, i⟩

/-- Every queued evaluation has one delivery, in the inbox of its worker, and workers stop only
after a shutdown. -/
structure Mailed (o : Outline) : Prop where
  staffed : 0 < o.size
  posted : o.posts.length = o.size
  placed : ∀ {id e}, o.evaluations.get? id = some e →
    ∃ p, e.placement = some p ∧ p.slot < o.size
  queued : ∀ {i : Nat} {post : Post} {id}, o.posts[i]? = some post →
    (o.QueuedAt id i ↔ id ∈ post.inbox.map Delivery.evaluation)
  inbox_distinct : ∀ {i : Nat} {post : Post}, o.posts[i]? = some post →
    (post.inbox.map Delivery.evaluation).Nodup
  stopped : ∀ {i : Nat} {post : Post}, o.posts[i]? = some post → post.listening = false →
    post.inbox = [] ∧ o.scopes.isCancelled .root = true

/-- Every job has a thread, which waits as long as the job has evaluations. -/
structure Threaded (o : Outline) : Prop where
  thread_known : ∀ {job t}, o.threads.get? job = some t → o.Known job.uuid
  thread_of_job : ∀ {job entry}, o.jobs.get? job = some entry →
    ∃ t, o.threads.get? job = some t ∧ (entry.job.status.isTerminal = true ↔ t.HasEnded)
  job_of_thread : ∀ {job t}, o.threads.get? job = some t → ¬ t.HasEnded →
    ∃ entry, o.jobs.get? job = some entry
  submitted_scope : ∀ {job w s}, o.threads.get? job = some (.submitted w s) →
    s.around = Scope.root.path
  thread_of_evaluation : ∀ {id e}, o.evaluations.get? id = some e →
    o.threads.get? e.job = some .waiting
  root_unique : ∀ {id₁ e₁ id₂ e₂}, o.evaluations.get? id₁ = some e₁ →
    o.evaluations.get? id₂ = some e₂ → e₁.parent = none → e₂.parent = none → e₁.job = e₂.job →
    id₁ = id₂
  root_scope : ∀ {id e}, o.evaluations.get? id = some e → e.parent = none →
    e.scope.around = Scope.root.path

/-- Every child has a parent whose fork waits for it, and for no other with that index. -/
structure Forked (o : Outline) : Prop where
  evaluation_known : ∀ {id e}, o.evaluations.get? id = some e → o.Known id.uuid
  above : ∀ {id e parent}, o.evaluations.get? id = some e → e.parent = some parent →
    ∃ pe f stack, o.evaluations.get? parent.id = some pe ∧ pe.phase = .joining f stack ∧
      pe.job = e.job ∧ parent.index < f.placed ∧ e.scope.around = f.scope.path
  sibling_unique : ∀ {id i c₁ c₂}, o.Child id i c₁ → o.Child id i c₂ → c₁ = c₂
  fork_scope : ∀ {id e f stack}, o.evaluations.get? id = some e → e.phase = .joining f stack →
    f.scope.around = e.scope.path
  missing : ∀ {id e f stack}, o.evaluations.get? id = some e → e.phase = .joining f stack →
    ∃ live : Finset Nat, (∀ i, i ∈ live ↔ ∃ c, o.Child id i c) ∧
      live.card + f.waiting.length = f.missing

structure Consistent (o : Outline) : Prop extends Mailed o, Threaded o, Forked o

variable {o o' : Outline}

/-- Whether all evaluations were there before, in whatever phase. -/
def StemsFrom (o' o : Outline) : Prop :=
  ∀ id e', o'.evaluations.get? id = some e' →
    ∃ e, o.evaluations.get? id = some e ∧ e'.job = e.job ∧ e'.parent = e.parent ∧
      e'.scope = e.scope ∧ e'.placement = e.placement

theorem StemsFrom.of_eq (he : o'.evaluations = o.evaluations) : o'.StemsFrom o := by
  intro id e live
  exact ⟨e, he ▸ live, rfl, rfl, rfl, rfl⟩

theorem StemsFrom.update {id : EvaluationId} {e : Evaluation} {steps : Nat} {phase : Phase}
    (live : o.evaluations.get? id = some e)
    (he : o'.evaluations = o.evaluations.insert id { e with steps, phase }) : o'.StemsFrom o := by
  intro id' e' live'
  rw [he, Table.get?_insert] at live'
  split at live'
  · next hid =>
    cases live'
    exact ⟨e, hid ▸ live, rfl, rfl, rfl, rfl⟩
  · exact ⟨e', live', rfl, rfl, rfl, rfl⟩

theorem StemsFrom.erase {id : EvaluationId} (he : o'.evaluations = o.evaluations.erase id) :
    o'.StemsFrom o := by
  intro id' e' live'
  rw [he, Table.get?_erase] at live'
  split at live'
  · cases live'
  · exact ⟨e', live', rfl, rfl, rfl, rfl⟩

theorem StemsFrom.trans {o'' : Outline} (h : o''.StemsFrom o') (h' : o'.StemsFrom o) :
    o''.StemsFrom o := by
  intro id e live
  obtain ⟨e₁, live₁, hj₁, hp₁, hs₁, hq₁⟩ := h id e live
  obtain ⟨e₂, live₂, hj₂, hp₂, hs₂, hq₂⟩ := h' id e₁ live₁
  exact ⟨e₂, live₂, hj₁.trans hj₂, hp₁.trans hp₂, hs₁.trans hs₂, hq₁.trans hq₂⟩

/-- Evaluations with deliveries that wait are queued. -/
theorem Mailed.queued_of_mem (h : o.Mailed) {i : Nat} {post : Post} {id : EvaluationId}
    {e : Evaluation} (at_slot : o.posts[i]? = some post)
    (hm : id ∈ post.inbox.map Delivery.evaluation) (live : o.evaluations.get? id = some e) :
    e.phase = .queued := by
  obtain ⟨e', -, live', queued, -⟩ := (h.queued at_slot).2 hm
  cases live'.symm.trans live
  exact queued

theorem get?_dropAll (worker : WorkerId) (ds : List Delivery) (t : Table EvaluationId Evaluation)
    (id : EvaluationId) :
    (dropAll worker ds t).get? id =
      if id ∈ ds.map Delivery.evaluation then
        (t.get? id).map fun e => { e with phase := .responded (.failed (.dropped worker)) }
      else t.get? id := by
  induction ds generalizing t with
  | nil => simp [dropAll]
  | cons d rest ih =>
    have hcons : dropAll worker (d :: rest) t =
        dropAll worker rest (dropAll worker [d] t) := rfl
    have hone : (dropAll worker [d] t).get? id =
        if id = d.evaluation then
          (t.get? id).map fun e => { e with phase := .responded (.failed (.dropped worker)) }
        else t.get? id := by
      simp only [dropAll, List.foldl_cons, List.foldl_nil]
      by_cases hid : id = d.evaluation
      · subst hid
        cases ht : t.get? d.evaluation <;> simp [ht]
      · cases ht : t.get? d.evaluation with
        | none => simp [hid]
        | some e => simp [hid, Ne.symm hid]
    rw [hcons, ih, hone, List.map_cons]
    by_cases hid : id = d.evaluation
    · simp [hid, Function.comp_def]
    · simp [hid]

theorem StemsFrom.dropAll {worker : WorkerId} {ds : List Delivery}
    (he : o'.evaluations = dropAll worker ds o.evaluations) : o'.StemsFrom o := by
  intro id e' live'
  rw [he, get?_dropAll] at live'
  split at live'
  · obtain ⟨e, live, rfl⟩ := Option.map_eq_some_iff.1 live'
    exact ⟨e, live, rfl, rfl, rfl, rfl⟩
  · exact ⟨e', live', rfl, rfl, rfl, rfl⟩

/-- Placing changes nothing but the evaluation that is new, which waits or has failed. -/
theorem Dispatched.get? {job : JobId} {parent : Option Parent} {scope : Scope} {w : Workflow}
    (sent : o.Dispatched job parent scope w o') :
    ∃ p phase, (∀ id, o'.evaluations.get? id =
        if ⟨o.newId⟩ = id then some ⟨job, parent, some p, scope, 0, phase⟩
        else o.evaluations.get? id) ∧
      (phase = .queued ∨ phase = .responded (.failed (.unreachable p.worker))) := by
  cases sent with
  | @sent p => exact ⟨p, .queued, fun id => Table.get?_insert _ _ _ _, .inl rfl⟩
  | @refused p => exact ⟨p, _, fun id => Table.get?_insert _ _ _ _, .inr rfl⟩

/-- The record of a placed evaluation. -/
theorem Dispatched.ledger {job : JobId} {parent : Option Parent} {scope : Scope} {w : Workflow}
    (sent : o.Dispatched job parent scope w o') :
    ∃ worker now, o'.ledger =
      o.ledger.add ⟨⟨o.newId⟩, job, parent.map Parent.id, worker, .running, now, none⟩ := by
  cases sent with
  | @sent p now => exact ⟨p.worker, now, rfl⟩
  | @refused p now => exact ⟨p.worker, now, rfl⟩

theorem Dispatched.unchanged {job : JobId} {parent : Option Parent} {scope : Scope}
    {w : Workflow} (sent : o.Dispatched job parent scope w o') :
    o'.size = o.size ∧ o'.jobs = o.jobs ∧ o'.threads = o.threads ∧ o'.scopes = o.scopes ∧
      o'.nextId = o.nextId + 1 := by
  cases sent <;> exact ⟨rfl, rfl, rfl, rfl, rfl⟩

theorem Known.mono {u : Uuid} (h : o.Known u) (hn : o.nextId ≤ o'.nextId) : o'.Known u := by
  obtain ⟨n, hlt, hu⟩ := h
  exact ⟨n, by omega, hu⟩

theorem known_newId (hn : o.nextId < o'.nextId) : o'.Known o.newId := ⟨o.nextId, hn, rfl⟩

/-- As long as identifiers last, the next one is fresh. -/
theorem Known.ne_newId {u : Uuid} (h : o.Known u) (hn : o.nextId < Uuid.supply) : u ≠ o.newId := by
  obtain ⟨n, hlt, rfl⟩ := h
  intro he
  have := Uuid.fresh_injective (by omega) hn he
  omega

theorem Consistent.fresh (hc : o.Consistent) (hn : o.nextId < Uuid.supply) :
    o.evaluations.get? ⟨o.newId⟩ = none := by
  cases hget : o.evaluations.get? ⟨o.newId⟩ with
  | none => rfl
  | some e => exact absurd rfl ((hc.evaluation_known hget).ne_newId hn)

end Outline

namespace Cluster

theorem step_shift {c c' : Cluster} {id : EvaluationId} {e : Evaluation} {t : Turn}
    {phase : Phase} (steps : Nat) {n : Nat} (live : c.evaluations.get? id = some e)
    (turn : t.Follows c.scopes e) (leads : t.Leads (c.outline.surroundings e) phase)
    (later : c.nextId ≤ n ∧ n ≤ c.nextId + 1)
    (h : c'.outline = { c.outline with
      evaluations := c.evaluations.insert id { e with steps, phase }, nextId := n }) :
    c.outline.Step (.move (.advance id)) c'.outline := by
  rw [h]
  exact .shift (o := c.outline) steps live turn leads later

theorem step_of_machine {c : Cluster} {id : EvaluationId} {e : Evaluation} {m : Machine}
    (live : c.evaluations.get? id = some e) (ht : Turn.Follows c.scopes e (.step m)) :
    c.outline.Step (.move (.advance id))
      (c.runMachine id { e with steps := e.steps + 1 } m).outline := by
  unfold runMachine
  split
  · next m' hm => exact step_shift _ live ht (.next hm) ⟨Nat.le_refl _, Nat.le_succ _⟩ rfl
  · next o hm =>
    exact step_shift _ live ht (.finished hm) ⟨Nat.le_refl _, Nat.le_succ _⟩
      (outline_respond _ _ _ _)
  · next message hm =>
    exact step_shift _ live ht (.aborted hm) ⟨Nat.le_refl _, Nat.le_succ _⟩
      (outline_respond _ _ _ _)
  · next kind children stack hm =>
    cases children with
    | nil => exact step_shift _ live ht (.childless hm) ⟨Nat.le_refl _, Nat.le_succ _⟩ rfl
    | cons first rest =>
      cases ht with
      | steps running free => exact .fork (o := c.outline) (e := e) _ live running free hm
  · next op stack hm =>
    split
    · next r he => exact step_shift _ live ht (.immediate hm he) ⟨Nat.le_refl _, Nat.le_succ _⟩ rfl
    · next p he => exact step_shift _ live ht (.guarded hm he) ⟨Nat.le_refl _, Nat.le_succ _⟩ rfl

theorem step_of_request {c c' : Cluster} {id : EvaluationId} {e : Evaluation} {due : Option Nat}
    {stack : List Frame} {r : Request} {next : r.Answer → Program (Reply Value)}
    (live : c.evaluations.get? id = some e)
    (ht : Turn.Follows c.scopes e (.ask r next due stack))
    (h : c.request id e due stack r next = some c') :
    c.outline.Step (.move (.advance id)) c'.outline := by
  unfold request at h
  split at h
  · split at h
    · cases h
      exact step_shift _ live ht .paused ⟨Nat.le_refl _, Nat.le_succ _⟩ rfl
    · split at h
      · cases h
        exact step_shift _ live ht (.answered (r := .pause _) ()) ⟨Nat.le_refl _, Nat.le_succ _⟩ rfl
      · cases h
  · obtain ⟨n, hn, hserve⟩ := outline_serve c e r
    change some ((c.serve e r).2.setPhase id e (.operating (next (c.serve e r).1) none stack)) =
      some c' at h
    have hevaluations : (c.serve e r).2.evaluations = c.evaluations :=
      congrArg Outline.evaluations hserve
    refine step_shift e.steps live ht (.answered (c.serve e r).1) hn ?_
    rw [← Option.some.inj h, outline_setPhase, hserve, hevaluations]

theorem outline_advance {c c' : Cluster} {id : EvaluationId} (hm : c.outline.Mailed)
    (h : c.advance id = some c') : c.outline.Step (.move (.advance id)) c'.outline := by
  obtain ⟨e, t, live, ht, h⟩ := advance_cases h
  replace ht := follows_of_turn ht
  cases t with
  | step m =>
    cases h
    exact step_of_machine live ht
  | ask r next due stack => exact step_of_request live ht h
  | place w rest f stack =>
    cases h
    cases ht with
    | places joining waiting =>
      refine .place (o := c.outline) live joining waiting ?_
      exact dispatched (c := ({ c with scopes := (c.scopes.child f.scope).2 }.setPhase id e
        (.joining { f with placed := f.placed + 1, waiting := rest } stack))) hm.staffed hm.posted
        e.job _ _ w
  | resume stack o =>
    cases h
    exact step_shift _ live ht .resumed ⟨Nat.le_refl _, Nat.le_succ _⟩ rfl
  | start w =>
    cases h
    exact step_shift _ live ht .started ⟨Nat.le_refl _, Nat.le_succ _⟩ rfl
  | reply o =>
    cases h
    exact step_shift _ live ht .replied ⟨Nat.le_refl _, Nat.le_succ _⟩ (outline_respond _ _ _ _)

theorem outline_collect {c c' : Cluster} {id : EvaluationId} (hm : c.outline.Mailed)
    (hf : c.outline.Forked)
    (known : ∀ {id e}, c.evaluations.get? id = some e → ∃ entry, c.jobs.get? e.job = some entry)
    (h : c.collect id = some c') : c.outline.Step (.move (.collect id)) c'.outline := by
  obtain ⟨e, r, o, dispatcher, live, hr, settled, h⟩ := collect_cases h
  obtain ⟨p, hp, -⟩ := hm.placed live
  simp only [hp, Dispatcher.settle] at settled
  cases settled
  rcases h with ⟨parent, hparent, rfl⟩ | ⟨hroot, rfl⟩
  · obtain ⟨pe, f, stack, hpe, hj, -, -, -⟩ := hf.above live hparent
    have hne : id ≠ parent.id := by
      rintro rfl
      cases hpe.symm.trans live
      cases hj.symm.trans hr
    have habove : (c.evaluations.erase id).get? parent.id = some pe := by
      rw [Table.get?_erase, if_neg hne]
      exact hpe
    rw [outline_arrive habove hj]
    refine (congrArg (c.outline.Step (.move (.collect id))) ?_).mp
      (.collectChild (o := c.outline) c.time live hr hparent hpe hj)
    exact Outline.ext rfl rfl rfl (Pool.size_modifyLoad _ _ _).symm rfl rfl rfl rfl rfl rfl rfl
  · obtain ⟨entry, hentry⟩ := known live
    rw [outline_endJob entry]
    · refine (congrArg (c.outline.Step (.move (.collect id))) ?_).mp
        (.collectRoot (o := c.outline) c.time live hr hroot hentry)
      exact Outline.ext rfl rfl rfl (Pool.size_modifyLoad _ _ _).symm rfl rfl rfl rfl rfl rfl rfl
    · exact hentry

theorem outline_receive {c c' : Cluster} {i : Nat} (hm : c.outline.Mailed)
    (h : c.receive i = some c') : c.outline.Step (.move (.receive i)) c'.outline := by
  obtain ⟨worker, d, rest, hw, hl, hi, h⟩ := receive_cases h
  have hpost : c.outline.posts[i]? = some worker.post := by simp [outline, hw]
  obtain ⟨e, p, live, -⟩ : c.outline.QueuedAt d.evaluation i :=
    (hm.queued hpost).2 (by simp [Worker.post, hi])
  have hmodify : (c.modifyWorker i fun w => { w with inbox := rest }).outline =
      { c.outline with posts := c.outline.posts.modify i fun q => { q with inbox := rest } } :=
    outline_modifyWorker (fun _ => rfl) c i
  rcases h with ⟨e', live', rfl⟩ | ⟨absent, -⟩
  · cases live'.symm.trans live
    rw [outline_wake, outline_setPhase, hmodify]
    exact .receive (o := c.outline) hpost hi live
  · cases absent.symm.trans live

theorem step_of_close {c c' : Cluster} {i : Nat} (h : c.close i = some c') :
    c.outline.Step (.move (.close i)) c'.outline := by
  obtain ⟨worker, hw, -, stopped, rfl⟩ := close_cases h
  have hpost : c.outline.posts[i]? = some worker.post := by simp [outline, hw]
  have hmodify : (c.modifyWorker i fun w => { w with listening := false, inbox := [] }).outline =
      { c.outline with posts := c.outline.posts.modify i fun _ => ⟨false, []⟩ } :=
    outline_modifyWorker (fun _ => rfl) c i
  rw [outline_foldl_dropDelivery, hmodify]
  exact .close (o := c.outline) hpost stopped

theorem outline_begin {c c' : Cluster} {job : JobId} (hm : c.outline.Mailed)
    (h : c.beginJob job = some c') : c.outline.Step (.move (.begin job)) c'.outline := by
  obtain ⟨w, scope, ht, rfl⟩ := begin_cases h
  exact .begin (o := c.outline) ht
    (dispatched (c := { c with threads := c.threads.insert job .waiting }) hm.staffed hm.posted
      job none scope w)

theorem step_of_cancel {c c' : Cluster} {job : JobId} (h : c.after (.cancel job) = some c') :
    c.outline.Step (.cancel job) c'.outline := by
  obtain ⟨entry, hj, running, rfl⟩ := cancel_cases h
  rw [outline_cancelScope]
  exact .cancel (o := c.outline) hj running

theorem step_of_forget {c c' : Cluster} {job : JobId} (h : c.after (.forget job) = some c') :
    c.outline.Step (.forget job) c'.outline := by
  obtain ⟨entry, hj, terminal, rfl⟩ := forget_cases h
  exact .forget (o := c.outline) hj terminal

theorem outline_shutdown (c : Cluster) :
    c.shutdown.outline = { c.outline with scopes := c.scopes.cancel .root } := by
  unfold shutdown
  rw [outline_foldl_wake (fun i => Thread.worker i), outline_cancelScope]

theorem outline_elapseTo (c : Cluster) (time : Nat) : (c.elapseTo time).outline = c.outline := by
  unfold elapseTo
  exact outline_foldl_wake (fun due : EvaluationId × Nat => Thread.evaluation due.1) _ _

theorem outline_submit (c : Cluster) (name : String) (w : Workflow) :
    c.outline.Step (.submit name w) (c.submit name w).2.outline := by
  unfold submit
  simp only [outline_wake]
  exact .submit (o := c.outline) c.time

/-- Events change the outline of an engine only in the ways that are listed, if deliveries and
children are where they belong and every evaluation belongs to a job that is known. -/
theorem outline_after {c c' : Cluster} {ev : Event} (hm : c.outline.Mailed) (hf : c.outline.Forked)
    (known : ∀ {id e}, c.evaluations.get? id = some e → ∃ entry, c.jobs.get? e.job = some entry)
    (h : c.after ev = some c') : c.outline.Step ev c'.outline := by
  cases ev with
  | submit name w =>
    cases h
    exact outline_submit c name w
  | cancel job => exact step_of_cancel h
  | forget job => exact step_of_forget h
  | shutdown =>
    cases h
    rw [outline_shutdown]
    exact .shutdown (o := c.outline)
  | elapse time =>
    cases h
    rw [outline_elapseTo]
    exact .elapse
  | arrange ready =>
    cases h
    exact .arrange (o := c.outline)
  | move m =>
    cases m with
    | begin job => exact outline_begin hm h
    | receive i => exact outline_receive hm h
    | close i => exact step_of_close h
    | advance id => exact outline_advance hm h
    | collect id => exact outline_collect hm hf known h

variable {c c' : Cluster}

theorem exists_entry (hc : c.outline.Consistent) {id : EvaluationId} {e : Evaluation}
    (live : c.evaluations.get? id = some e) : ∃ entry, c.jobs.get? e.job = some entry :=
  hc.job_of_thread (hc.thread_of_evaluation live) (by simp [JobThread.HasEnded])

theorem step_of_after {ev : Event} (hc : c.outline.Consistent) (h : c.after ev = some c') :
    c.outline.Step ev c'.outline :=
  outline_after hc.toMailed hc.toForked (exists_entry hc) h

theorem step_of_advance {id : EvaluationId} (hc : c.outline.Consistent)
    (h : c.advance id = some c') : c.outline.Step (.move (.advance id)) c'.outline :=
  outline_advance hc.toMailed h

theorem step_of_receive {i : Nat} (hc : c.outline.Consistent) (h : c.receive i = some c') :
    c.outline.Step (.move (.receive i)) c'.outline :=
  outline_receive hc.toMailed h

theorem step_of_collect {id : EvaluationId} (hc : c.outline.Consistent)
    (h : c.collect id = some c') : c.outline.Step (.move (.collect id)) c'.outline :=
  outline_collect hc.toMailed hc.toForked (exists_entry hc) h

end Cluster

end WorkflowEngine
