import WorkflowEngine.Proofs.Accounts
import WorkflowEngine.Proofs.Halting
import WorkflowEngine.Proofs.OutcomeCodec
/-!
How jobs end when the engine is shut down. A job whose root evaluation was accepted before is
cancelled; one whose root evaluation is not sent yet, or still waits for its worker, may be refused
by the worker, which stops.
-/
set_option autoImplicit false

namespace WorkflowEngine

theorem Workflow.ofDecode_of_decode {payload : String} {err : WorkflowError}
    (garbled : decode payload = .error err) : ∃ cause, err = .ofDecode cause := by
  unfold decode at garbled
  cases hd : decoder.ofText payload with
  | error cause =>
    rw [hd] at garbled
    exact ⟨cause, (Except.error.inj garbled).symm⟩
  | ok w =>
    rw [hd] at garbled
    cases garbled

/-- The error for a text that is no workflow crosses as itself. -/
theorem Outcome.decode_undecodable {payload : String} {err : WorkflowError}
    (garbled : Workflow.decode payload = .error err) :
    decode (encode (.error (.error err))) = .error (.error err) := by
  obtain ⟨cause, rfl⟩ := Workflow.ofDecode_of_decode garbled
  have exact : (toJson (.error (.error (.ofDecode cause)))).Exact := by
    simp [toJson, Fault.toJson, WorkflowError.toJson, WorkflowError.ofDecode,
      WorkflowError.serialization, ErrorKind.toJson, Json.Exact, Json.EntriesExact]
  have shallow : (toJson (.error (.error (.ofDecode cause)))).depth ≤ Json.depthLimit := by
    rw [depth_refused]
    decide
  exact (decode_text _ exact).trans (if_pos shallow)

namespace Outline

variable {o₀ o o' : Outline} {job job' : JobId} {payload : String} {id : EvaluationId}
  {e : Evaluation} {t : JobThread}

/-- A text that the root evaluation of a job is sent with, before a worker accepts it. -/
inductive Outgoing (o : Outline) (job : JobId) : String → Prop
  | unsent {w : Workflow} {scope : Scope}
      (thread : o.threads.get? job = some (.submitted w scope)) : Outgoing o job w.encode
  | sent {i : Nat} {post : Post} {d : Delivery} {e : Evaluation} (at_slot : o.posts[i]? = some post)
      (mem : d ∈ post.inbox) (live : o.evaluations.get? d.evaluation = some e) (own : e.job = job)
      (root : e.parent = none) : Outgoing o job d.payload

/-- A text that the root evaluation of a job starts from, before it does. -/
inductive RootText (o : Outline) (job : JobId) : String → Prop
  | outgoing {payload : String} (waits : o.Outgoing job payload) : RootText o job payload
  | accepted {id : EvaluationId} {e : Evaluation} {payload : String}
      (live : o.evaluations.get? id = some e) (own : e.job = job) (root : e.parent = none)
      (accepted : e.phase = .accepted payload) : RootText o job payload

/-- How a job ends when the engine is shut down in a state: cancelled, unless its root evaluation
had responded, its workflow cannot be decoded, or no worker had accepted it. -/
inductive HaltsAs (o : Outline) (job : JobId) : Outcome → Prop
  | cancelled : HaltsAs o job (.error .cancelled)
  | responded {id : EvaluationId} {e : Evaluation} {r : Response}
      (live : o.evaluations.get? id = some e) (own : e.job = job) (root : e.parent = none)
      (responded : e.phase = .responded r) : HaltsAs o job r.outcome
  | undecodable {payload : String} {err : WorkflowError} (text : o.RootText job payload)
      (garbled : Workflow.decode payload = .error err) : HaltsAs o job (.error (.error err))
  | unaccepted {payload : String} (f : TransportError) (waits : o.Outgoing job payload) :
      HaltsAs o job (.error (.error (.transport f.message)))

theorem HaltsAs.of_reply {text : String} {outcome : Outcome}
    (decoded : Outcome.decode text = outcome) (h : o.HaltsAs job outcome) :
    o.HaltsAs job (Response.outcome (.reply text)) := by
  subst decoded
  exact h

/-! ## What waits was there before -/

theorem Outgoing.congr (h : o'.Outgoing job payload)
    (ht : ∀ {w scope}, o'.threads.get? job = some (.submitted w scope) →
      o.threads.get? job = some (.submitted w scope))
    (hp : ∀ {i : Nat} {post' : Post} {d : Delivery}, o'.posts[i]? = some post' →
      d ∈ post'.inbox → ∃ post, o.posts[i]? = some post ∧ d ∈ post.inbox)
    (he : o'.StemsFrom o) : o.Outgoing job payload := by
  cases h with
  | unsent thread => exact .unsent (ht thread)
  | sent at_slot mem live own root =>
    obtain ⟨post, at_slot', mem'⟩ := hp at_slot mem
    obtain ⟨e, live', hjob, hparent, -⟩ := he _ _ live
    exact .sent at_slot' mem' live' (hjob ▸ own) (hparent ▸ root)

theorem Dispatched.outgoing {parent : Option Parent} {scope : Scope} {w : Workflow}
    (sent : o.Dispatched job' parent scope w o') (hm : o.Mailed)
    (fresh : o.evaluations.get? ⟨o.newId⟩ = none) (h : o'.Outgoing job payload) :
    o.Outgoing job payload ∨ (parent = none ∧ job' = job ∧ payload = w.encode) := by
  have known : ∀ {i : Nat} {post : Post} {d : Delivery}, o.posts[i]? = some post →
      d ∈ post.inbox → d.evaluation ≠ ⟨o.newId⟩ := by
    intro i post d at_slot mem hid
    obtain ⟨e, -, live, -⟩ := (hm.queued at_slot).2 (List.mem_map_of_mem mem)
    rw [hid, fresh] at live
    cases live
  obtain ⟨-, -, hthreads, -⟩ := sent.unchanged
  cases h with
  | unsent thread => exact .inl (.unsent (hthreads ▸ thread))
  | @sent i post d e at_slot mem live own root =>
    have before : ∀ {post : Post}, o.posts[i]? = some post → d ∈ post.inbox →
        o.Outgoing job d.payload := by
      intro post at_slot mem
      obtain ⟨p, phase, hget, -⟩ := sent.get?
      rw [hget, if_neg (known at_slot mem).symm] at live
      exact .sent at_slot mem live own root
    cases sent with
    | @sent p now post' at_slot' listens =>
      rcases modify_cases at_slot with ⟨rfl, q, hq, rfl⟩ | ⟨-, hpost⟩
      · rcases List.mem_append.1 mem with mem | mem
        · exact .inl (before hq mem)
        · obtain rfl := List.mem_singleton.1 mem
          cases (Table.get?_insert _ _ _ _).symm.trans live |>.symm.trans (if_pos rfl)
          exact .inr ⟨root, own, rfl⟩
      · exact .inl (before hpost mem)
    | refused now at_slot' stopped => exact .inl (before at_slot mem)

/-- A text that waits for a job that is there already has waited before. -/
theorem Step.outgoing {ev : Event} (s : o.Step ev o') (hc : o.Consistent)
    (hn : o.nextId < Uuid.supply) (thread : o.threads.get? job = some t)
    (h : o'.Outgoing job payload) : o.Outgoing job payload := by
  have fresh := hc.fresh hn
  have same : ∀ {i : Nat} {post : Post} {d : Delivery}, o.posts[i]? = some post →
      d ∈ post.inbox → ∃ post, o.posts[i]? = some post ∧ d ∈ post.inbox :=
    fun at_slot mem => ⟨_, at_slot, mem⟩
  cases s with
  | submit now =>
    refine h.congr (fun h => ?_) same (.of_eq rfl)
    rw [Table.get?_insert, if_neg] at h
    · exact h
    · rintro rfl
      exact (hc.thread_known thread).ne_newId hn rfl
  | @begin started w scope _ submitted sent =>
    have mailed : Mailed { o with threads := o.threads.insert started .waiting } :=
      hc.toMailed.frame rfl rfl rfl fun h => h
    rcases sent.outgoing mailed fresh h with h | ⟨-, rfl, rfl⟩
    · refine h.congr (fun h => ?_) same (.of_eq rfl)
      rw [Table.get?_insert] at h
      split at h
      · cases h
      · exact h
    · exact .unsent submitted
  | @receive i post d rest e at_slot inbox live =>
    refine h.congr (fun h => h) (fun at_slot' mem => ?_) (.update live rfl)
    rcases modify_cases at_slot' with ⟨rfl, before, hb, rfl⟩ | ⟨-, hpost⟩
    · cases hb.symm.trans at_slot
      exact ⟨post, at_slot, inbox ▸ List.mem_cons_of_mem d mem⟩
    · exact ⟨_, hpost, mem⟩
  | close at_slot stopped =>
    refine h.congr (fun h => h) (fun at_slot' mem => ?_) (.dropAll rfl)
    rcases modify_cases at_slot' with ⟨rfl, before, hb, rfl⟩ | ⟨-, hpost⟩
    · cases mem
    · exact ⟨_, hpost, mem⟩
  | shift steps live turn leads later => exact h.congr (fun h => h) same (.update live rfl)
  | fork steps live running free forks => exact h.congr (fun h => h) same (.update live rfl)
  | @place id e f w rest stack _ live joining waiting sent =>
    rcases sent.outgoing (hc.toMailed.places live joining rest) (fresh_insert live fresh) h with
      h | ⟨⟨⟩, -⟩
    exact h.congr (fun h => h) same (.update live rfl)
  | collectRoot now live responded root known =>
    refine h.congr (fun h => ?_) same (.erase rfl)
    rw [Table.get?_insert] at h
    split at h
    · cases h
    · exact h
  | @collectChild id e r now parent pe f stack live responded child above joining =>
    have hne : id ≠ parent.id := by
      rintro rfl
      cases live.symm.trans above
      cases responded.symm.trans joining
    exact h.congr (fun h => h) same (child_collect hne above rfl).1
  | _ => exact h.congr (fun h => h) same (.of_eq rfl)

/-- A new phase other than accepted is none of an evaluation that is accepted. -/
theorem get?_of_accepted {table : Table EvaluationId Evaluation} {id₁ : EvaluationId}
    {e₁ e' : Evaluation} (live' : (table.insert id₁ e₁).get? id = some e')
    (accepted : e'.phase = .accepted payload) (other : ∀ payload, e₁.phase ≠ .accepted payload) :
    table.get? id = some e' := by
  rw [Table.get?_insert] at live'
  split at live'
  · cases live'
    exact absurd accepted (other _)
  · exact live'

theorem Dispatched.accepted {parent : Option Parent} {scope : Scope} {w : Workflow}
    {e' : Evaluation} (sent : o.Dispatched job parent scope w o')
    (live' : o'.evaluations.get? id = some e') (accepted : e'.phase = .accepted payload) :
    o.evaluations.get? id = some e' := by
  cases sent with
  | sent now at_slot listens => exact get?_of_accepted live' accepted (by simp)
  | refused now at_slot stopped => exact get?_of_accepted live' accepted (by simp)

/-- An evaluation was accepted before, unless it has just been received. -/
theorem Step.accepted {ev : Event} (s : o.Step ev o') {e' : Evaluation}
    (live' : o'.evaluations.get? id = some e') (accepted : e'.phase = .accepted payload) :
    o.evaluations.get? id = some e' ∨
      ∃ (i : Nat) (post : Post) (d : Delivery) (e : Evaluation), o.posts[i]? = some post ∧
        d ∈ post.inbox ∧ d.evaluation = id ∧ d.payload = payload ∧
        o.evaluations.get? id = some e ∧ e'.job = e.job ∧ e'.parent = e.parent := by
  cases s with
  | begin thread sent => exact .inl (sent.accepted live' accepted)
  | @receive i post d rest e at_slot inbox live =>
    rw [Table.get?_insert] at live'
    split at live'
    · next hid =>
      cases live'
      cases accepted
      exact .inr ⟨i, post, d, e, at_slot, inbox ▸ List.mem_cons_self, hid, rfl, hid ▸ live, rfl,
        rfl⟩
    · exact .inl live'
  | close at_slot stopped =>
    rw [get?_dropAll] at live'
    split at live'
    · obtain ⟨e, -, rfl⟩ := Option.map_eq_some_iff.1 live'
      cases accepted
    · exact .inl live'
  | shift steps live turn leads later =>
    refine .inl (get?_of_accepted live' accepted fun payload h => ?_)
    obtain rfl : _ = Phase.accepted payload := h
    cases leads
  | fork steps live running free forks => exact .inl (get?_of_accepted live' accepted (by simp))
  | place live joining waiting sent =>
    exact .inl (get?_of_accepted (sent.accepted live' accepted) accepted (by simp))
  | collectRoot now live responded root known =>
    rw [Table.get?_erase] at live'
    split at live'
    · cases live'
    · exact .inl live'
  | collectChild now live responded child above joining =>
    have live' := get?_of_accepted live' accepted (by simp)
    rw [Table.get?_erase] at live'
    split at live'
    · cases live'
    · exact .inl live'
  | _ => exact .inl live'

/-- A text that the root evaluation of a job starts from is none that it gets later. -/
theorem Step.rootText {ev : Event} (s : o.Step ev o') (hc : o.Consistent)
    (hn : o.nextId < Uuid.supply) (thread : o.threads.get? job = some t)
    (h : o'.RootText job payload) : o.RootText job payload := by
  cases h with
  | outgoing waits => exact .outgoing (s.outgoing hc hn thread waits)
  | accepted live' own root accepted =>
    rcases s.accepted live' accepted with live | ⟨i, post, d, e, at_slot, mem, rfl, rfl, live,
      hjob, hparent⟩
    · exact .accepted live own root accepted
    · exact .outgoing (.sent at_slot mem live (hjob ▸ own) (hparent ▸ root))

/-! ## What follows a shutdown -/

/-- A root evaluation that is placed is that of a job whose thread has just begun. -/
theorem Step.placed_root {ev : Event} (s : o.Step ev o') (hc : o.Consistent)
    (hn : o.nextId < Uuid.supply) (live : o'.evaluations.get? ⟨o.newId⟩ = some e)
    (root : e.parent = none) :
    ∃ w scope, o.threads.get? e.job = some (.submitted w scope) := by
  have fresh := hc.fresh hn
  have absent : ¬ o'.StemsFrom o := by
    intro stems
    obtain ⟨e₀, live₀, -⟩ := stems _ _ live
    cases live₀.symm.trans fresh
  cases s with
  | begin thread sent =>
    obtain ⟨p, phase, hget, -⟩ := sent.get?
    cases live.symm.trans ((hget _).trans (if_pos rfl))
    exact ⟨_, _, thread⟩
  | receive at_slot inbox live' => exact absurd (.update live' rfl) absent
  | close at_slot stopped => exact absurd (.dropAll rfl) absent
  | shift steps live' turn leads later => exact absurd (.update live' rfl) absent
  | fork steps live' running free forks => exact absurd (.update live' rfl) absent
  | place live' joining waiting sent =>
    obtain ⟨p, phase, hget, -⟩ := sent.get?
    cases live.symm.trans ((hget _).trans (if_pos rfl))
    cases root
  | collectRoot now live' responded root' known => exact absurd (.erase rfl) absent
  | @collectChild id e₁ r now parent pe f stack live' responded child above joining =>
    have hne : id ≠ parent.id := by
      rintro rfl
      cases live'.symm.trans above
      cases responded.symm.trans joining
    exact absurd (child_collect hne above rfl).1 absent
  | _ => exact absurd (.of_eq rfl) absent

/-- A queued root evaluation waits in an inbox. -/
theorem Consistent.outgoing_of_queued (hc : o.Consistent) (live : o.evaluations.get? id = some e)
    (own : e.job = job) (root : e.parent = none) (queued : e.phase = .queued) :
    ∃ payload, o.Outgoing job payload := by
  obtain ⟨p, hp, hslot⟩ := hc.placed live
  have at_slot : o.posts[p.slot]? = some (o.posts.get ⟨p.slot, hc.posted ▸ hslot⟩) :=
    List.getElem?_eq_getElem _
  obtain ⟨d, mem, rfl⟩ := List.mem_map.1 ((hc.queued at_slot).1 ⟨e, p, live, queued, hp, rfl⟩)
  exact ⟨d.payload, .sent at_slot mem live own root⟩

/-- What is left of a job in a state after the engine was shut down, and how it ends. -/
structure Fate (o₀ o : Outline) (job : JobId) : Prop where
  outgoing : ∀ {payload}, o.Outgoing job payload → o₀.Outgoing job payload
  text : ∀ {payload}, o.RootText job payload → o₀.RootText job payload
  responded : ∀ {id e r}, o.evaluations.get? id = some e → e.job = job → e.parent = none →
    e.phase = .responded r → o₀.HaltsAs job r.outcome
  ended : ∀ {outcome}, o.threads.get? job = some (.ended outcome) → o₀.HaltsAs job outcome
  entered : ∀ {outcome entry}, o.threads.get? job = some (.ended outcome) →
    o.jobs.get? job = some entry → entry.job.status = outcome.status

/-- Jobs keep their threads. -/
theorem Step.exists_thread {ev : Event} (s : o.Step ev o')
    (h : ∃ t, o.threads.get? job = some t) : ∃ t, o'.threads.get? job = some t := by
  have kept : ∀ {job' : JobId} (t' : JobThread),
      ∃ t, (o.threads.insert job' t').get? job = some t := by
    intro job' t'
    rw [Table.get?_insert]
    split
    · exact ⟨_, rfl⟩
    · exact h
  cases s with
  | submit now => exact kept _
  | begin thread sent =>
    obtain ⟨-, -, hthreads, -⟩ := sent.unchanged
    exact hthreads ▸ kept _
  | place live joining waiting sent =>
    obtain ⟨-, -, hthreads, -⟩ := sent.unchanged
    exact hthreads ▸ h
  | collectRoot now live responded root known => exact kept _
  | _ => exact h

/-- A job ends with the response of its root evaluation. -/
theorem Step.ended {ev : Event} (s : o.Step ev o') {outcome : Outcome}
    (h : o'.threads.get? job = some (.ended outcome)) :
    o.threads.get? job = some (.ended outcome) ∨
      ∃ (id : EvaluationId) (e : Evaluation) (r : Response), o.evaluations.get? id = some e ∧
        e.job = job ∧ e.parent = none ∧ e.phase = .responded r ∧ outcome = r.outcome := by
  cases s with
  | submit now =>
    rw [Table.get?_insert] at h
    split at h
    · cases h
    · exact .inl h
  | begin submitted sent =>
    obtain ⟨-, -, hthreads, -⟩ := sent.unchanged
    rw [hthreads, Table.get?_insert] at h
    split at h
    · cases h
    · exact .inl h
  | place live joining waiting sent =>
    obtain ⟨-, -, hthreads, -⟩ := sent.unchanged
    exact .inl (hthreads ▸ h)
  | collectRoot now live responded root known =>
    rw [Table.get?_insert] at h
    split at h
    · next own =>
      cases h
      exact .inr ⟨_, _, _, live, own, root, responded, rfl⟩
    · exact .inl h
  | _ => exact .inl h

theorem Fate.response {ev : Event} (h : o₀.Fate o job) (s : o.Step ev o') (hc : o.Consistent)
    (hn : o.nextId < Uuid.supply) (stopped : o.scopes.isCancelled .root = true) {r : Response}
    (live' : o'.evaluations.get? id = some e) (own : e.job = job) (root : e.parent = none)
    (responded : e.phase = .responded r) : o₀.HaltsAs job r.outcome := by
  rcases s.evaluation hc live' with ⟨e₁, live, hjob, hparent, -, passes⟩ | ⟨rfl, placed⟩
  · have own₁ : e₁.job = job := hjob ▸ own
    have root₁ : e₁.parent = none := hparent ▸ root
    have inside := hc.inside_root live
    generalize e.phase = phase at passes responded
    cases passes with
    | rests => exact h.responded live own₁ root₁ responded
    | dropped queued stopped =>
      cases responded
      obtain ⟨payload, waits⟩ := hc.outgoing_of_queued live own₁ root₁ queued
      exact .unaccepted _ (h.outgoing waits)
    | shifts turn leads =>
      subst responded
      rcases turn.responds (ScopeTree.isCancelled_of_suffix inside stopped) leads with rfl |
        ⟨payload, err, accepted, garbled, rfl⟩
      · exact .of_reply Cluster.decode_cancelled .cancelled
      · exact .of_reply (Outcome.decode_undecodable garbled)
          (.undecodable (h.text (.accepted live own₁ root₁ accepted)) garbled)
    | _ => cases responded
  · rcases placed with queued | ⟨f, failed, -⟩
    · cases queued.symm.trans responded
    · cases failed.symm.trans responded
      obtain ⟨w, scope, thread⟩ := s.placed_root hc hn live' root
      exact .unaccepted f (h.outgoing (.unsent (own ▸ thread)))

/-- What happens after a shutdown seals no fate but one that was possible. -/
theorem Fate.step {ev : Event} (h : o₀.Fate o job) (s : o.Step ev o') (hc : o.Consistent)
    (hn : o.nextId < Uuid.supply) (stopped : o.scopes.isCancelled .root = true)
    (thread : o.threads.get? job = some t) : o₀.Fate o' job where
  outgoing waits := h.outgoing (s.outgoing hc hn thread waits)
  text := fun text => h.text (s.rootText hc hn thread text)
  responded := h.response s hc hn stopped
  ended := by
    intro outcome ended
    rcases s.ended ended with before | ⟨id, e, r, live, own, root, responded, rfl⟩
    · exact h.ended before
    · exact h.responded live own root responded
  entered := by
    intro outcome entry ended known
    cases s with
    | submit now =>
      have hne : ⟨o.newId⟩ ≠ job := by
        rintro rfl
        exact (hc.thread_known thread).ne_newId hn rfl
      rw [Table.get?_insert, if_neg hne] at ended known
      exact h.entered ended known
    | forget known' ended' =>
      rw [Table.get?_erase] at known
      split at known
      · cases known
      · exact h.entered ended known
    | begin submitted sent =>
      obtain ⟨-, hjobs, hthreads, -⟩ := sent.unchanged
      rw [hthreads, Table.get?_insert] at ended
      split at ended
      · cases ended
      · exact h.entered ended (hjobs ▸ known)
    | place live joining waiting sent =>
      obtain ⟨-, hjobs, hthreads, -⟩ := sent.unchanged
      exact h.entered (hthreads ▸ ended) (hjobs ▸ known)
    | collectRoot now live responded root known' =>
      rw [Table.get?_insert] at ended known
      split at ended
      · next own =>
        cases ended
        rw [if_pos own] at known
        cases known
        rfl
      · next other =>
        rw [if_neg other] at known
        exact h.entered ended known
    | _ => exact h.entered ended known

/-- Nothing is on its way for a job whose root evaluation was accepted. -/
theorem Consistent.not_outgoing (hc : o.Consistent) (live : o.evaluations.get? id = some e)
    (own : e.job = job) (root : e.parent = none) (received : e.phase ≠ .queued) :
    ¬ o.Outgoing job payload := by
  rintro (thread | ⟨at_slot, mem, live', own', root'⟩)
  · cases thread.symm.trans (own ▸ hc.thread_of_evaluation live)
  · have queued := hc.queued_of_mem at_slot (List.mem_map_of_mem mem) live'
    obtain rfl := hc.root_unique live live' root root' (own.trans own'.symm)
    cases live.symm.trans live'
    exact received queued

/-- A job whose workflow has been accepted, and can be decoded, is cancelled. -/
theorem HaltsAs.eq_cancelled {outcome : Outcome} (h : o.HaltsAs job outcome) (hc : o.Consistent)
    (live : o.evaluations.get? id = some e) (own : e.job = job) (root : e.parent = none)
    (received : e.phase ≠ .queued) (silent : ∀ r, e.phase ≠ .responded r)
    (decodes : ∀ payload, e.phase = .accepted payload → ∃ w, Workflow.decode payload = .ok w) :
    outcome = .error .cancelled := by
  have only : ∀ {id' e'}, o.evaluations.get? id' = some e' → e'.job = job → e'.parent = none →
      e' = e := by
    intro id' e' live' own' root'
    obtain rfl := hc.root_unique live live' root root' (own.trans own'.symm)
    exact Option.some.inj (live'.symm.trans live)
  cases h with
  | cancelled => rfl
  | responded live' own' root' responded =>
    cases only live' own' root'
    exact absurd responded (silent _)
  | undecodable text garbled =>
    cases text with
    | outgoing waits => exact absurd waits (hc.not_outgoing live own root received)
    | accepted live' own' root' accepted =>
      cases only live' own' root'
      obtain ⟨w, decoded⟩ := decodes _ accepted
      cases decoded.symm.trans garbled
  | unaccepted f waits => exact absurd waits (hc.not_outgoing live own root received)

end Outline

namespace Cluster

variable {c₀ c : Cluster} {job : JobId} {t : JobThread}

theorem fate_shutdown (thread : c₀.threads.get? job = some t) (unended : ¬ t.HasEnded) :
    c₀.outline.Fate c₀.shutdown.outline job := by
  have waits : ∀ {payload}, c₀.shutdown.outline.Outgoing job payload →
      c₀.outline.Outgoing job payload := by
    rw [outline_shutdown]
    exact fun h => h.congr (fun h => h) (fun at_slot mem => ⟨_, at_slot, mem⟩) (.of_eq rfl)
  have still : ∀ {outcome}, c₀.shutdown.outline.threads.get? job ≠ some (.ended outcome) := by
    rw [outline_shutdown]
    rintro outcome ended
    cases thread.symm.trans ended
    exact unended trivial
  refine ⟨waits, fun text => ?_, ?_, fun ended => absurd ended still,
    fun ended => absurd ended still⟩
  · cases text with
    | outgoing h => exact .outgoing (waits h)
    | accepted live own root accepted =>
      rw [outline_shutdown] at live
      exact .accepted live own root accepted
  · rw [outline_shutdown]
    exact fun live own root responded => .responded live own root responded

/-- What holds of an engine that is shut down and of a job that had not ended before. -/
structure Halting (c₀ c : Cluster) (job : JobId) : Prop where
  stopped : c.scopes.isCancelled .root = true
  attended : c.outline.Attended
  thread : ∃ t, c.threads.get? job = some t
  fate : c₀.outline.Fate c.outline job

theorem Run.halting {P : Cluster → Event → Prop} {c₁ : Cluster} (run : Run P c₁ c)
    (hc : c₁.outline.Consistent) (hn : c.nextId < Uuid.supply) (h : Halting c₀ c₁ job) :
    Halting c₀ c job :=
  run.invariant (I := fun c => Halting c₀ c job) hc hn h fun hc hn _ s h =>
    let ⟨_, thread⟩ := h.thread
    ⟨s.isCancelled h.stopped, h.attended.step hc hn s, s.exists_thread h.thread,
      h.fate.step s hc hn h.stopped thread⟩

/-- In every state after a shutdown, a job that had not ended has ended in one of the possible ways,
if it has at all. If a worker had accepted its root evaluation, and that had not responded, then it
is cancelled. The threads make only so many moves in any order, and when none is left the job has
ended. -/
theorem shutdown_ends_jobs {registry : Registry} {config : EngineConfig} {backend : Backend}
    {sink : LogSink} (begun : Reaches (start registry config backend sink) c₀)
    {entry : JobEntry} (known : c₀.jobs.get? job = some entry)
    (running : entry.job.status.isTerminal = false) (run : Reaches c₀.shutdown c)
    (ids : c.nextId + c.outline.effort < Uuid.supply) :
    (∀ o, c.outcome? job = some o → c₀.outline.HaltsAs job o ∧
      ∀ entry', c.jobs.get? job = some entry' → entry'.job.status = o.status) ∧
    (∀ id e, c₀.evaluations.get? id = some e → e.job = job → e.parent = none →
      e.phase ≠ .queued → (∀ r, e.phase ≠ .responded r) →
      (∀ payload, e.phase = .accepted payload → ∃ w, Workflow.decode payload = .ok w) →
      ∀ o, c.outcome? job = some o → o = .error .cancelled ∧
        EngineError.ofOutcome job o = .error (.cancelled job)) ∧
    ∀ (ms : List Move) (c' : Cluster), ms.foldlM step c = some c' →
      ms.length ≤ c.outline.effort ∧
        (c'.Rests → ∃ o, c'.outcome? job = some o ∧ c₀.outline.HaltsAs job o) := by
  have ids₁ : c.nextId < Uuid.supply := by omega
  have shut : c₀.after .shutdown = some c₀.shutdown := rfl
  have ids₀ : c₀.nextId < Uuid.supply :=
    Nat.lt_of_le_of_lt ((nextId_after shut).trans run.nextId_le) ids₁
  have hstart := consistent_start registry config backend sink
  have hc₀ := begun.consistent hstart ids₀
  have hs : c₀.outline.Step .shutdown c₀.shutdown.outline := step_of_after hc₀ shut
  have hc₁ := hc₀.step ids₀ hs
  obtain ⟨t, thread, ends⟩ := hc₀.thread_of_job known
  have unended : ¬ t.HasEnded := fun h => absurd (ends.2 h) (by simp [running])
  have attended := attended_of_reaches begun ids₀
  have stopped : c₀.shutdown.scopes.isCancelled .root = true := by
    have hscopes : c₀.shutdown.scopes = c₀.scopes.cancel .root :=
      congrArg Outline.scopes (outline_shutdown c₀)
    rw [hscopes]
    exact ScopeTree.isCancelled_cancel_self _ _
  have begins : Halting c₀ c₀.shutdown job :=
    ⟨stopped, attended.step hc₀ ids₀ hs, hs.exists_thread ⟨t, thread⟩,
      fate_shutdown thread unended⟩
  have hc := run.consistent hc₁ ids₁
  have halting := run.halting hc₁ ids₁ begins
  refine ⟨fun o ended => ?_, fun id e live own root received silent decodes o ended => ?_,
    fun ms c' moves => ?_⟩
  · have ended := outcome?_eq_some.1 ended
    exact ⟨halting.fate.ended ended, fun entry' known' => halting.fate.entered ended known'⟩
  · obtain rfl := (halting.fate.ended (outcome?_eq_some.1 ended)).eq_cancelled hc₀ live own root
      received silent decodes
    exact ⟨rfl, rfl⟩
  · obtain ⟨bound, ids', drains⟩ := length_le_effort hc ids halting.stopped moves
    refine ⟨by omega, fun rests => ?_⟩
    have halting' := drains.halting hc ids' halting
    obtain ⟨t', thread'⟩ := halting'.thread
    have ended := ended_of_rests (drains.consistent hc ids') halting'.attended ids' halting'.stopped
      rests thread'
    cases t' with
    | ended o => exact ⟨o, outcome?_eq_some.2 thread', halting'.fate.ended thread'⟩
    | submitted w scope => cases ended
    | waiting => cases ended

/-- The engine is shut down while the root evaluation of a job runs. The job is cancelled, and the
engine comes to rest. -/
theorem shutdown_ends_jobs_running :
    ∃ c₀ c job o, Reaches (start {} { workers := 1 } (.memory .empty) (.memory .empty)) c₀ ∧
      c₀.outcome? job = none ∧ Reaches c₀.shutdown c ∧ c.outcome? job = some o ∧
      o = .error .cancelled ∧ EngineError.ofOutcome job o = .error (.cancelled job) ∧
      ∀ (ms : List Move) (c' : Cluster), ms.foldlM step c₀.shutdown = some c' →
        ms.length ≤ c₀.shutdown.outline.effort ∧
          (c'.Rests → ∃ o, c'.outcome? job = some o ∧ c₀.outline.HaltsAs job o) := by
  have decoded : Workflow.decode (Workflow.ret .null).encode = .ok (.ret .null) := by cbv
  obtain ⟨c₀, c, entry, e, m, o, begun, known, running, unended, live, own, root, hm, run, ended,
      ids, ids₁⟩ :
      ∃ c₀ c entry e m o,
        Reaches (start {} { workers := 1 } (.memory .empty) (.memory .empty)) c₀ ∧
        c₀.jobs.get? ⟨Uuid.fresh 0⟩ = some entry ∧ entry.job.status.isTerminal = false ∧
        c₀.outcome? ⟨Uuid.fresh 0⟩ = none ∧ c₀.evaluations.get? ⟨Uuid.fresh 1⟩ = some e ∧
        e.job = ⟨Uuid.fresh 0⟩ ∧ e.parent = none ∧ e.phase = .running m ∧
        Reaches c₀.shutdown c ∧ c.outcome? ⟨Uuid.fresh 0⟩ = some o ∧
        c.nextId + c.outline.effort < Uuid.supply ∧
        c₀.shutdown.nextId + c₀.shutdown.outline.effort < Uuid.supply := by
    have submitted : Reaches _ _ := .step (.refl _) trivial
      (rfl : (start {} { workers := 1 } (.memory .empty) (.memory .empty)).after
        (.submit "job" (.ret .null)) = _)
    have placed : Reaches _ _ := .step submitted trivial
      (rfl : Cluster.after _ (.move (.begin ⟨Uuid.fresh 0⟩)) = some _)
    have received : Reaches _ _ := .step placed trivial
      (rfl : Cluster.after _ (.move (.receive 0)) = some _)
    have started : Reaches _ _ := .step received trivial
      (after_accepted ⟨Uuid.fresh 1⟩ rfl rfl decoded)
    exact ⟨_, _, _, _, _, _, started, rfl, rfl, rfl, rfl, rfl, rfl, rfl,
      .step (.step (.refl _) trivial
      (rfl : Cluster.after _ (.move (.advance ⟨Uuid.fresh 1⟩)) = some _)) trivial
      (rfl : Cluster.after _ (.move (.collect ⟨Uuid.fresh 1⟩)) = some _), rfl, by decide,
      by decide⟩
  obtain ⟨-, -, halts⟩ := shutdown_ends_jobs begun known running (.refl _) ids₁
  obtain ⟨-, cancels, -⟩ := shutdown_ends_jobs begun known running run ids
  obtain ⟨cancelled, joined⟩ := cancels _ e live own root (by simp [hm]) (by simp [hm])
    (by simp [hm]) o ended
  exact ⟨c₀, c, _, o, begun, unended, run, ended, cancelled, joined, halts⟩

/-- A job whose root evaluation waits in the inbox of the only worker fails when the worker stops
before it takes it. -/
theorem shutdown_drops_job :
    ∃ c₀ c job entry err, Reaches (start {} { workers := 1 } (.memory .empty) (.memory .empty)) c₀ ∧
      c₀.jobs.get? job = some entry ∧ entry.job.status.isTerminal = false ∧
      Workflow.decode (Workflow.ret .null).encode = .ok (.ret .null) ∧
      Reaches c₀.shutdown c ∧ c.outcome? job = some (.error (.error err)) ∧
      err.kind = .transport := by
  have submitted : Reaches _ _ := .step (.refl _) trivial
    (rfl : (start {} { workers := 1 } (.memory .empty) (.memory .empty)).after
      (.submit "job" (.ret .null)) = _)
  have placed : Reaches _ _ := .step submitted trivial
    (rfl : Cluster.after _ (.move (.begin ⟨Uuid.fresh 0⟩)) = some _)
  exact ⟨_, _, ⟨Uuid.fresh 0⟩, _, _, placed, rfl, rfl, by cbv, .step (.step (.refl _) trivial
    (rfl : Cluster.after _ (.move (.close 0)) = some _)) trivial
    (rfl : Cluster.after _ (.move (.collect ⟨Uuid.fresh 1⟩)) = some _), rfl, rfl⟩

end Cluster

end WorkflowEngine
