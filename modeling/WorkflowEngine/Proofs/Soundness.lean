import WorkflowEngine.Proofs.Explanation
import WorkflowEngine.Proofs.Tracing
import WorkflowEngine.Proofs.Transitions
/-!
A job that nobody disturbs ends with a result that its workflow permits, on however many workers
and in whatever order its evaluations settle.
-/
set_option autoImplicit false

namespace WorkflowEngine

namespace Outline

/-- Evaluations of the job that are not cancelled are explained by their workflows. -/
structure Sound (o : Outline) (s : Surroundings) (w : Workflow)
    (source : EvaluationId → Workflow) : Prop extends Traced o s w source where
  explained : ∀ {id e}, o.evaluations.get? id = some e → e.job = s.job →
    o.scopes.isCancelled e.scope = false → o.Explains s source id e.phase

variable {o o' : Outline} {s : Surroundings} {w : Workflow} {source : EvaluationId → Workflow}

/-- A new phase of one evaluation is explained in the same way before and after. -/
theorem Sound.update (h : o.Sound s w source) {id : EvaluationId} {e : Evaluation} {steps : Nat}
    {phase : Phase} (live : o.evaluations.get? id = some e)
    (he : o'.evaluations = o.evaluations.insert id { e with steps, phase })
    (traced : o'.Traced s w source)
    (hf : ∀ {scope}, o'.scopes.isCancelled scope = false → o.scopes.isCancelled scope = false)
    (explained : e.job = s.job → o.scopes.isCancelled e.scope = false →
      o.Explains s source id phase) : o'.Sound s w source where
  toTraced := traced
  explained := by
    intro id' e' live' hjob free
    rw [he, Table.get?_insert] at live'
    split at live'
    · next hid =>
      subst hid
      cases live'
      exact (explained hjob (hf free)).congr rfl (child_update live he) fun _ => rfl
    · exact (h.explained live' hjob (hf free)).congr rfl (child_update live he) fun _ => rfl

theorem Sound.frame (h : o.Sound s w source) (he : o'.evaluations = o.evaluations)
    (traced : o'.Traced s w source)
    (hf : ∀ {scope}, o'.scopes.isCancelled scope = false → o.scopes.isCancelled scope = false) :
    o'.Sound s w source where
  toTraced := traced
  explained := by
    intro id e live hjob free
    refine (h.explained (he ▸ live) hjob (hf free)).congr rfl
      (child_congr (.of_eq he) fun live => ?_) fun _ => rfl
    exact ⟨_, he.symm ▸ live⟩

theorem Sound.begin (h : o.Sound s w source) (hc : o.Consistent)
    (fresh : o.evaluations.get? ⟨o.newId⟩ = none) {job : JobId} {v : Workflow} {scope : Scope}
    (thread : o.threads.get? job = some (.submitted v scope))
    (sent : Dispatched { o with threads := o.threads.insert job .waiting } job none scope v o')
    (stays : o.scopes.isCancelled .root = false)
    (survives : job = s.job → Workflow.decode v.encode = .ok v) :
    o'.Sound s w (Function.update source ⟨o.newId⟩ v) := by
  have mailed : Mailed { o with threads := o.threads.insert job .waiting } :=
    hc.toMailed.frame rfl rfl rfl fun h => h
  have traced : Traced { o with threads := o.threads.insert job .waiting } s w source := by
    refine h.toTraced.congr rfl (Nat.le_refl _) (fun at_slot hd => ⟨_, at_slot, hd⟩) (.of_eq rfl)
      (fun hs => ?_) fun he => ?_
    · rw [Table.get?_insert] at hs
      split at hs
      · cases hs
      · exact h.submitted hs
    · rw [Table.get?_insert] at he
      split at he
      · cases he
      · exact h.ended he
  refine
    { sent.traced traced mailed fresh survives fun hj _ => h.submitted (hj ▸ thread) with
      explained := ?_ }
  intro id e live hjob free
  obtain ⟨-, -, -, hscopes, -⟩ := sent.unchanged
  rw [hscopes] at free
  rcases sent.cases mailed live with before | ⟨-, p, phase, rfl, rfl | ⟨f, -, stopped⟩⟩
  · have explains : Explains { o with threads := o.threads.insert job .waiting } s source id
        e.phase := (h.explained before hjob free).congr rfl Iff.rfl fun _ => rfl
    refine sent.explains fresh explains ?_ (by simp)
    rintro rfl
    cases before.symm.trans fresh
  · exact .queued
  · exact absurd (stopped.symm.trans stays) (by simp)

theorem Sound.place (h : o.Sound s w source) (hc : o.Consistent)
    (fresh : o.evaluations.get? ⟨o.newId⟩ = none) {id : EvaluationId} {e : Evaluation} {f : Fork}
    {v : Workflow} {rest : List Workflow} {stack : List Frame}
    (live : o.evaluations.get? id = some e) (joining : e.phase = .joining f stack)
    (waiting : f.waiting = v :: rest)
    (sent : Dispatched
      { o with
        evaluations := o.evaluations.insert id
          { e with phase := .joining { f with placed := f.placed + 1, waiting := rest } stack }
        scopes := (o.scopes.child f.scope).2 }
      e.job (some ⟨id, f.placed⟩) (o.scopes.child f.scope).1 v o')
    (stays : o.scopes.isCancelled .root = false)
    (survives : e.job = s.job → Workflow.decode v.encode = .ok v) :
    o'.Sound s w (Function.update source ⟨o.newId⟩ v) := by
  have mailed := hc.toMailed.places live joining rest
  have stems : StemsFrom
      { o with
        evaluations := o.evaluations.insert id
          { e with phase := .joining { f with placed := f.placed + 1, waiting := rest } stack }
        scopes := (o.scopes.child f.scope).2 } o := .update live rfl
  have new : ∀ {id' e'}, o.evaluations.get? id' = some e' → id' ≠ ⟨o.newId⟩ := by
    rintro id' e' live' rfl
    cases live'.symm.trans fresh
  have absent : (o.evaluations.insert id
      { e with
        phase := .joining { f with placed := f.placed + 1, waiting := rest } stack }).get?
          ⟨o.newId⟩ = none := fresh_insert live fresh
  have hchild : ∀ {x c i}, o'.Child x i c ↔
      o.Child x i c ∨ (x = id ∧ i = f.placed ∧ c = ⟨o.newId⟩) := sent.child_placed live fresh
  refine
    { sent.traced (h.toTraced.frame rfl (Nat.le_refl _) rfl rfl stems) mailed absent survives
        (by simp) with
      explained := ?_ }
  intro id' e' live' hjob free
  obtain ⟨-, -, -, hscopes, -⟩ := sent.unchanged
  rw [hscopes] at free
  rcases sent.cases mailed live' with before | ⟨-, p, phase, rfl, rfl | ⟨_, -, stopped⟩⟩
  · rw [Table.get?_insert] at before
    split at before
    · next hid =>
      subst hid
      cases before
      refine (joining ▸ h.explained live hjob free).placed waiting fresh (new live) fun {i c} => ?_
      simp [hchild]
    · next hid =>
      refine (h.explained before hjob free).congr (Function.update_of_ne (new before) _ _) ?_ ?_
      · simp [hchild, Ne.symm hid]
      · rintro i c ⟨ce, hce, -⟩
        exact Function.update_of_ne (new hce) _ _
  · exact .queued
  · exact absurd (stopped.symm.trans stays) (by simp)

variable {role : Nat → ScopeRole}

theorem Sound.collectRoot (h : o.Sound s w source) {id : EvaluationId} {e : Evaluation}
    {r : Response} {jobs : Table JobId JobEntry} {ledger : Ledger}
    (live : o.evaluations.get? id = some e) (responded : e.phase = .responded r)
    (root : e.parent = none) (free : e.job = s.job → o.scopes.isCancelled e.scope = false) :
    Sound
      { o with
        evaluations := o.evaluations.erase id
        ledger
        threads := o.threads.insert e.job (.ended r.outcome)
        jobs } s w source where
  toTraced := by
    refine h.toTraced.congr rfl (Nat.le_refl _) (fun at_slot hd => ⟨_, at_slot, hd⟩) (.erase rfl)
      (fun hs => ?_) fun he => ?_
    · rw [Table.get?_insert] at hs
      split at hs
      · cases hs
      · exact h.submitted hs
    · rw [Table.get?_insert] at he
      split at he
      · next hjob =>
        cases he
        have explains := responded ▸ h.explained live hjob (free hjob)
        cases explains with
        | @responded _ result permits outcome =>
          exact ⟨result, h.root live hjob root ▸ permits, outcome⟩
      · exact h.ended he
  explained := by
    intro id' e' live' hjob free'
    rw [Table.get?_erase] at live'
    split at live'
    · cases live'
    · refine (h.explained live' hjob free').congr rfl ?_ fun _ => rfl
      intro i c
      rw [child_erase id (.erase rfl) (by simp) fun hne hlive =>
        ⟨_, by simpa [Ne.symm hne] using hlive⟩, and_iff_left_iff_imp]
      rintro ⟨ce, hce, hparent⟩ rfl
      cases hce.symm.trans live
      cases hparent.symm.trans root

theorem Sound.collectChild (h : o.Sound s w source) (hf : o.Forked) {spared : Option JobId}
    (hr : o.Numbered spared role) {id : EvaluationId} {e : Evaluation} {r : Response}
    {parent : Parent} {pe : Evaluation} {f : Fork} {stack : List Frame}
    (live : o.evaluations.get? id = some e) (responded : e.phase = .responded r)
    (child : e.parent = some parent) (above : o.evaluations.get? parent.id = some pe)
    (joining : pe.phase = .joining f stack)
    (he : o'.evaluations = (o.evaluations.erase id).insert parent.id
      { pe with
        phase := .joining
          { f with
            join := (f.join.receive parent.index r.outcome).2
            missing := f.missing - 1 } stack })
    (hb : o'.surroundings = o.surroundings) (hn : o.nextId ≤ o'.nextId) (hp : o'.posts = o.posts)
    (ht : o'.threads = o.threads)
    (hs : ∀ {scope}, o'.scopes.isCancelled scope = false → o.scopes.isCancelled scope = false) :
    o'.Sound s w source := by
  have hne : id ≠ parent.id := by
    rintro rfl
    cases live.symm.trans above
    cases responded.symm.trans joining
  obtain ⟨stems, hchild⟩ := child_collect hne above he
  refine { h.toTraced.frame hb hn hp ht stems with explained := ?_ }
  intro id' e' live' hjob free
  have free := hs free
  rw [he, Table.get?_insert] at live'
  split at live'
  · next hid =>
    subst hid
    cases live'
    refine (joining ▸ h.explained above hjob free).received ⟨e, live, child⟩ hchild ?_ ?_
    · rintro k ⟨e₀, live₀, hparent⟩
      cases live.symm.trans live₀
      exact congrArg Parent.index (Option.some.inj (hparent.symm.trans child))
    · by_cases hfork : f.scope.number ∈ o.scopes.cancelled
      · exact .inl (hr.decided above joining hfork)
      · obtain ⟨pe', -, -, hpe, -, same, -⟩ := hf.above live child
        cases hpe.symm.trans above
        have explains := responded ▸ h.explained live (same ▸ hjob)
          (hr.free_child hf live child above joining free hfork)
        cases explains with
        | @responded _ result permits outcome => exact .inr ⟨result, permits, outcome⟩
  · next hid =>
    rw [Table.get?_erase] at live'
    split at live'
    · cases live'
    · refine (h.explained live' hjob free).congr rfl ?_ fun _ => rfl
      intro i c
      rw [hchild, and_iff_left_iff_imp]
      rintro ⟨ce, hce, hparent⟩ rfl
      cases hce.symm.trans live
      cases hparent.symm.trans child
      exact hid rfl

theorem Sound.receive (h : o.Sound s w source) {i : Nat} {post : Post} {d : Delivery}
    {rest : List Delivery} {e : Evaluation} (at_slot : o.posts[i]? = some post)
    (inbox : post.inbox = d :: rest) (live : o.evaluations.get? d.evaluation = some e) :
    Sound
      { o with
        posts := o.posts.modify i fun q => { q with inbox := rest }
        evaluations := o.evaluations.insert d.evaluation
          { e with phase := .accepted d.payload } } s w source := by
  refine h.update live rfl (h.toTraced.congr rfl (Nat.le_refl _) ?_ (.update live rfl) h.submitted
    h.ended) (fun hs => hs) fun hjob _ => ?_
  · intro j post' d' at_slot' hd
    rcases modify_cases at_slot' with ⟨rfl, before, hb, rfl⟩ | ⟨-, hpost⟩
    · cases hb.symm.trans at_slot
      exact ⟨post, at_slot, inbox ▸ List.mem_cons_of_mem d hd⟩
    · exact ⟨post', hpost, hd⟩
  · exact .accepted (h.mail at_slot (inbox ▸ List.mem_cons_self) live hjob)

theorem Sound.fork (h : o.Sound s w source) (calm : s.registry.Calm) {id : EvaluationId}
    {e : Evaluation} {m : Machine} {kind : ForkKind} {children : List Workflow}
    {stack : List Frame} (steps : Nat) (live : o.evaluations.get? id = some e)
    (running : e.phase = .running m) (childless : o.Childless id)
    (forks : m.step o.registry = .fork kind children stack) (scope : Scope) :
    Sound
      { o with
        evaluations := o.evaluations.insert id
          { e with
            steps
            phase := .joining ⟨Join.start kind children.length, scope, 0, children,
              children.length⟩ stack }
        scopes := (o.scopes.child e.scope).2 } s w source := by
  refine h.update live rfl (h.toTraced.frame rfl (Nat.le_refl _) rfl rfl (.update live rfl))
    (fun hs => hs) fun hjob free => ?_
  have explains := running ▸ h.explained live hjob free
  cases explains with
  | running pursues =>
    have within := pursues.step calm
    rw [← h.registry hjob, forks] at within
    refine .joining within rfl (fun hchild => absurd hchild (childless _ _)) ?_
    exact (Join.explained_start s kind children).mono fun i hi => absurd hi.1 (Nat.not_lt_zero i)

/-- Only a joining evaluation sends, and its turn places a child. -/
theorem not_sends_of_leads {job : JobId} {id : EvaluationId} {e : Evaluation} {t : Cluster.Turn}
    {u : Surroundings} {phase : Phase} (live : o.evaluations.get? id = some e)
    (turn : t.Follows o.scopes e) (leads : t.Leads u phase) (v : Workflow) :
    ¬ o.Sends job (.move (.advance id)) v := by
  rintro (_ | ⟨live', -, joining, waiting⟩)
  cases live.symm.trans live'
  cases turn with
  | places joining' waiting' => cases leads
  | joined joining' placed arrived =>
    cases joining.symm.trans joining'
    cases waiting.symm.trans placed
  | started accepted decoded => cases joining.symm.trans accepted
  | undecoded accepted decoded => cases joining.symm.trans accepted
  | stopped running cancelled => cases joining.symm.trans running
  | steps running free => cases joining.symm.trans running
  | interrupted operating cancelled => cases joining.symm.trans operating
  | returned operating free => cases joining.symm.trans operating
  | failed operating free => cases joining.symm.trans operating
  | aborted operating free => cases joining.symm.trans operating
  | asks operating free => cases joining.symm.trans operating

/-- Every event keeps the job sound that does not disturb it. The evaluations that are there keep
their workflows, and a new one of the job gets what is sent. -/
theorem Sound.exists_source {ev : Event} (h : o.Sound s w source) (calm : s.registry.Calm)
    (hr : o.Numbered (some s.job) role) (hc : o.Consistent) (hn : o.nextId < Uuid.supply)
    (may : o.Undisturbed s.job ev) (st : o.Step ev o') :
    ∃ source', o'.Sound s w source' ∧
      (∀ {id e}, o.evaluations.get? id = some e → source' id = source id) ∧
      ∀ {v}, o.Sends s.job ev v → source' ⟨o.newId⟩ = v := by
  have fresh := hc.fresh hn
  have stays := hr.free_engine
  have hs : ∀ {scope}, o'.scopes.isCancelled scope = false →
      o.scopes.isCancelled scope = false := st.free
  have old : ∀ {v : Workflow} {id : EvaluationId} {e : Evaluation},
      o.evaluations.get? id = some e → Function.update source ⟨o.newId⟩ v id = source id := by
    intro v id e live
    refine Function.update_of_ne ?_ _ _
    rintro rfl
    cases live.symm.trans fresh
  cases st with
  | elapse => exact ⟨source, h, fun _ => rfl, by rintro v ⟨⟩⟩
  | arrange => exact ⟨source, h, fun _ => rfl, by rintro v ⟨⟩⟩
  | submit now =>
    have hne : ⟨o.newId⟩ ≠ s.job := by
      rintro hid
      exact h.known.ne_newId hn (congrArg JobId.uuid hid).symm
    refine ⟨source, h.frame rfl (h.toTraced.congr rfl (Nat.le_succ _)
      (fun at_slot hd => ⟨_, at_slot, hd⟩) (.of_eq rfl) (fun hv => ?_) fun he => ?_) hs,
      fun _ => rfl, by rintro v ⟨⟩⟩
    · rw [Table.get?_insert, if_neg hne] at hv
      exact h.submitted hv
    · rw [Table.get?_insert, if_neg hne] at he
      exact h.ended he
  | cancel known running =>
    exact ⟨source, h.frame rfl (h.toTraced.frame rfl (Nat.le_refl _) rfl rfl (.of_eq rfl)) hs,
      fun _ => rfl, by rintro v ⟨⟩⟩
  | forget known ended =>
    exact ⟨source, h.frame rfl (h.toTraced.frame rfl (Nat.le_refl _) rfl rfl (.of_eq rfl)) hs,
      fun _ => rfl, by rintro v ⟨⟩⟩
  | shutdown => cases may.spares
  | begin thread sent =>
    refine ⟨_, h.begin hc fresh thread sent stays fun hj => ?_, old, fun sends => ?_⟩
    · subst hj
      exact may.sends (.root thread)
    · rw [Function.update_self]
      cases sends with
      | root thread' =>
        cases thread.symm.trans thread'
        rfl
  | receive at_slot inbox live =>
    exact ⟨source, h.receive at_slot inbox live, fun _ => rfl, by rintro v ⟨⟩⟩
  | close at_slot stopped => exact absurd (stopped.symm.trans stays) (by simp)
  | @shift id e t steps n phase live turn leads later =>
    refine ⟨source, h.update live rfl (h.toTraced.frame rfl later.1 rfl rfl (.update live rfl)) hs
      fun hjob free => ?_, fun _ => rfl,
      fun sends => absurd sends (not_sends_of_leads live turn leads _)⟩
    obtain ⟨worker, hb⟩ := h.base hjob
    refine (h.explained live hjob free).turn calm free turn (hb ▸ leads)
      (hc.childless_of_turn live turn leads) fun running finished => ?_
    rw [← h.registry hjob] at finished
    exact may.replies (.finished live hjob running free finished)
  | fork steps live running free forks =>
    refine ⟨source, h.fork calm steps live running (hc.childless live (by simp [running])) forks _,
      fun _ => rfl, ?_⟩
    rintro v (_ | ⟨live', -, joining, -⟩)
    cases live.symm.trans live'
    cases joining.symm.trans running
  | place live joining waiting sent =>
    refine ⟨_, h.place hc fresh live joining waiting sent stays fun hj =>
      may.sends (.child live hj joining waiting), old, ?_⟩
    rintro v (_ | ⟨live', -, joining', waiting'⟩)
    cases live.symm.trans live'
    cases joining.symm.trans joining'
    cases waiting.symm.trans waiting'
    exact Function.update_self _ _ _
  | collectRoot now live responded root known =>
    exact ⟨source, h.collectRoot live responded root fun hj =>
      hr.free_root hc.toThreaded live root hj, fun _ => rfl, by rintro v ⟨⟩⟩
  | collectChild now live responded child above joining =>
    exact ⟨source, h.collectChild hc.toForked hr live responded child above joining rfl rfl
      (Nat.le_refl _) rfl rfl hs, fun _ => rfl, by rintro v ⟨⟩⟩

theorem Sound.step {ev : Event} (h : o.Sound s w source) (calm : s.registry.Calm)
    (hr : o.Numbered (some s.job) role) (hc : o.Consistent) (hn : o.nextId < Uuid.supply)
    (may : o.Undisturbed s.job ev) (st : o.Step ev o') : ∃ source', o'.Sound s w source' := by
  obtain ⟨source', sound, -⟩ := h.exists_source calm hr hc hn may st
  exact ⟨source', sound⟩

end Outline

namespace Cluster

/-- Where the operations of a job are performed. They may be on any worker. -/
def surroundingsOf (c : Cluster) (job : JobId) : Surroundings where
  job := job
  worker := ⟨""⟩
  workerCount := c.dispatcher.pool.size
  registry := c.registry
  settings := c.settings
  policy := c.policy

/-- A job begins soundly. -/
theorem sound_submit {c : Cluster} (hc : c.outline.Consistent) (hn : c.nextId < Uuid.supply)
    (name : String) (w : Workflow) :
    (c.submit name w).2.outline.Sound (c.surroundingsOf (c.submit name w).1) w fun _ => w := by
  have thread := thread_submit c name w
  refine
    { base := fun {e} hjob => ⟨(e.placement.map Placement.worker).getD ⟨""⟩, ?_⟩
      known := ?_
      mail := fun _ _ live hjob => absurd hjob (absent_submit hc hn name w live)
      root := fun _ _ _ => rfl
      submitted := fun submitted => ?_
      ended := fun ended => ?_
      explained := fun live hjob _ => absurd hjob (absent_submit hc hn name w live) }
  · rw [(outline_submit c name w).surroundings]
    unfold Outline.surroundings
    rw [hjob]
    rfl
  · unfold submit
    rw [outline_wake]
    exact Outline.known_newId (o := c.outline) (Nat.lt_succ_self _)
  · cases thread.symm.trans submitted
    rfl
  · cases thread.symm.trans ended

/-- A job that nobody disturbs is sound after every run. -/
theorem exists_sound {registry : Registry} {config : EngineConfig} {backend : Backend}
    {sink : LogSink} (calm : registry.Calm) {c₀ c : Cluster}
    (before : Reaches (start registry config backend sink) c₀)
    (serving : c₀.scopes.isCancelled .root = false) {name : String} {w : Workflow}
    (run : Run (fun b ev => b.outline.Undisturbed (c₀.submit name w).1 ev)
      (c₀.submit name w).2 c)
    (ids : c.nextId < Uuid.supply) :
    ∃ source, c.outline.Sound (c₀.surroundingsOf (c₀.submit name w).1) w source := by
  have ids₀ := run.ids_submit ids
  have hstart := consistent_start registry config backend sink
  have hc₀ := before.consistent hstart ids₀
  have hc₁ := hc₀.step ids₀ (outline_submit c₀ name w)
  have calm₀ : c₀.registry.Calm := by
    rw [before.registry hstart ids₀]
    exact calm
  obtain ⟨role₁, numbered₁⟩ := numbered_submit before ids₀ serving name w
  have kept : ∃ role source, c.outline.Numbered (some (c₀.submit name w).1) role ∧
      c.outline.Sound (c₀.surroundingsOf (c₀.submit name w).1) w source := by
    refine run.invariant (I := fun b => ∃ role source,
      b.outline.Numbered (some (c₀.submit name w).1) role ∧
        b.outline.Sound (c₀.surroundingsOf (c₀.submit name w).1) w source) hc₁ ids
      ⟨role₁, _, numbered₁, sound_submit hc₀ ids₀ name w⟩ ?_
    rintro b ev b' hb idsb may s ⟨role, source, numbered, sound⟩
    obtain ⟨role', numbered'⟩ := numbered.step s may.spares
    obtain ⟨source', sound'⟩ := sound.step calm₀ numbered hb idsb may s
    exact ⟨role', source', numbered', sound'⟩
  obtain ⟨role, source, -, sound⟩ := kept
  exact ⟨source, sound⟩

/-- The whole of a run: if nobody cancels the job or shuts the engine down, and what the job sends
arrives as it was, then the job ends only with a result that its workflow permits. -/
theorem outcome_permitted {registry : Registry} {config : EngineConfig} {backend : Backend}
    {sink : LogSink} (calm : registry.Calm) {c₀ c : Cluster}
    (before : Reaches (start registry config backend sink) c₀)
    (serving : c₀.scopes.isCancelled .root = false) {name : String} {w : Workflow}
    (run : Run (fun b ev => b.outline.Undisturbed (c₀.submit name w).1 ev)
      (c₀.submit name w).2 c)
    (ids : c.nextId < Uuid.supply) {o : Outcome}
    (ended : c.outcome? (c₀.submit name w).1 = some o) :
    ∃ r, Permits (c₀.surroundingsOf (c₀.submit name w).1) w r ∧ o = r.mapError .error ∧
      EngineError.ofOutcome (c₀.submit name w).1 o = r.mapError .workflow := by
  obtain ⟨source, sound⟩ := exists_sound calm before serving run ids
  unfold outcome? at ended
  split at ended
  · next outcome hthread =>
    cases ended
    obtain ⟨r, permits, rfl⟩ := sound.ended hthread
    refine ⟨r, permits, rfl, ?_⟩
    cases r <;> rfl
  · cases ended

/-- A job that returns a value ends with a result that it permits. -/
theorem outcome_permitted_returned :
    ∃ c o, Run (fun b ev => b.outline.Undisturbed ⟨Uuid.fresh 0⟩ ev)
        ((start {} {} (.memory .empty) (.memory .empty)).submit "job" (.ret .null)).2 c ∧
      c.outcome? ⟨Uuid.fresh 0⟩ = some o ∧
      ∃ r, Permits ((start {} {} (.memory .empty) (.memory .empty)).surroundingsOf
        ⟨Uuid.fresh 0⟩) (.ret .null) r ∧ o = r.mapError .error := by
  have calm : ({} : Registry).Calm := by
    constructor
    · rintro f v message ⟨⟩
    · rintro f e message ⟨⟩
    · rintro f u v message ⟨⟩
    · rintro name arg a message ⟨⟩
  have sent : Workflow.decode (Workflow.ret .null).encode = .ok (.ret .null) := by cbv
  have begun := Run.step (P := fun b ev => b.outline.Undisturbed ⟨Uuid.fresh 0⟩ ev)
    (.refl ((start {} {} (.memory .empty) (.memory .empty)).submit "job" (.ret .null)).2)
    (Outline.undisturbed_begin rfl sent)
    (rfl : Cluster.after _ (.move (.begin ⟨Uuid.fresh 0⟩)) = some _)
  have received := begun.step
    (Outline.undisturbed_of_quiet (.move (.receive 0)) trivial (by simp) (by simp)) rfl
  have started := received.starts ⟨Uuid.fresh 1⟩ rfl rfl sent
  have stepped := started.moves ⟨Uuid.fresh 1⟩ rfl rfl rfl rfl
  have replied := stepped.replies ⟨Uuid.fresh 1⟩ rfl rfl rfl rfl (by cbv)
  have collected := replied.step
    (Outline.undisturbed_of_quiet (.move (.collect ⟨Uuid.fresh 1⟩)) trivial (by simp) (by simp)) rfl
  obtain ⟨r, permits, ho, -⟩ := outcome_permitted calm (.refl _) rfl collected (by decide) rfl
  exact ⟨_, _, collected, rfl, r, permits, ho⟩

end Cluster

end WorkflowEngine
