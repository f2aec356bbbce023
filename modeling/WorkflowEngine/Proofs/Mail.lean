import WorkflowEngine.Proofs.Consistency
/-!
Inboxes and queued evaluations belong together in every state of an engine.
-/
set_option autoImplicit false

namespace WorkflowEngine

namespace Cluster

theorem Turn.Follows.not_queued {scopes : ScopeTree} {e : Evaluation} {t : Turn}
    (h : t.Follows scopes e) : e.phase ≠ .queued := by
  intro hq
  cases h <;> simp_all

theorem Turn.Leads.not_queued {s : Surroundings} {t : Turn} {phase : Phase}
    (h : t.Leads s phase) : phase ≠ .queued := by
  cases h <;> simp

end Cluster

namespace Outline

variable {o o' : Outline}

theorem Mailed.placed_of_stemsFrom (h : o.Mailed) (hk : o'.StemsFrom o) {id : EvaluationId}
    {e : Evaluation} (live : o'.evaluations.get? id = some e) :
    ∃ p, e.placement = some p ∧ p.slot < o.size := by
  obtain ⟨e₀, live₀, -, -, -, hp⟩ := hk id e live
  rw [hp]
  exact h.placed live₀

/-- What is not queued can be changed or dropped. -/
theorem Mailed.congr (h : o.Mailed) (hs : o'.size = o.size) (hp : o'.posts = o.posts)
    (placed : ∀ {id e}, o'.evaluations.get? id = some e →
      ∃ p, e.placement = some p ∧ p.slot < o.size)
    (hq : ∀ {id i}, o'.QueuedAt id i ↔ o.QueuedAt id i)
    (hr : o.scopes.isCancelled .root = true → o'.scopes.isCancelled .root = true) :
    o'.Mailed where
  staffed := hs ▸ h.staffed
  posted := by rw [hs, hp]; exact h.posted
  placed := hs ▸ placed
  queued := by
    intro i post id at_slot
    exact hq.trans (h.queued (hp ▸ at_slot))
  inbox_distinct := by
    intro i post at_slot
    exact h.inbox_distinct (hp ▸ at_slot)
  stopped := by
    intro i post at_slot hl
    obtain ⟨empty, cancelled⟩ := h.stopped (hp ▸ at_slot) hl
    exact ⟨empty, hr cancelled⟩

theorem queuedAt_congr (he : o'.evaluations = o.evaluations) {id : EvaluationId} {i : Nat} :
    o'.QueuedAt id i ↔ o.QueuedAt id i := by
  rw [QueuedAt, QueuedAt, he]

theorem queuedAt_update {id : EvaluationId} {e : Evaluation} {steps : Nat} {phase : Phase}
    (live : o.evaluations.get? id = some e) (hq : e.phase ≠ .queued) (hq' : phase ≠ .queued)
    (he : o'.evaluations = o.evaluations.insert id { e with steps, phase }) {id' : EvaluationId}
    {i : Nat} : o'.QueuedAt id' i ↔ o.QueuedAt id' i := by
  unfold QueuedAt
  rw [he]
  by_cases hid : id = id'
  · subst hid
    simp [live, hq, hq']
  · simp [hid]

theorem queuedAt_erase {id : EvaluationId} {e : Evaluation}
    (live : o.evaluations.get? id = some e) (hq : e.phase ≠ .queued)
    (he : o'.evaluations = o.evaluations.erase id) {id' : EvaluationId} {i : Nat} :
    o'.QueuedAt id' i ↔ o.QueuedAt id' i := by
  unfold QueuedAt
  rw [he]
  by_cases hid : id = id'
  · subst hid
    simp [live, hq]
  · simp [hid]

theorem Mailed.frame (h : o.Mailed) (hs : o'.size = o.size) (hp : o'.posts = o.posts)
    (he : o'.evaluations = o.evaluations)
    (hr : o.scopes.isCancelled .root = true → o'.scopes.isCancelled .root = true) : o'.Mailed :=
  h.congr hs hp (he ▸ h.placed) (queuedAt_congr he) hr

theorem Mailed.update (h : o.Mailed) {id : EvaluationId} {e : Evaluation} {steps : Nat}
    {phase : Phase} (live : o.evaluations.get? id = some e) (hq : e.phase ≠ .queued)
    (hq' : phase ≠ .queued) (hs : o'.size = o.size) (hp : o'.posts = o.posts)
    (he : o'.evaluations = o.evaluations.insert id { e with steps, phase })
    (hr : o.scopes.isCancelled .root = true → o'.scopes.isCancelled .root = true) :
    o'.Mailed :=
  h.congr hs hp (h.placed_of_stemsFrom (.update live he)) (queuedAt_update live hq hq' he) hr

theorem Mailed.erase (h : o.Mailed) {id : EvaluationId} {e : Evaluation}
    (live : o.evaluations.get? id = some e) (hq : e.phase ≠ .queued) (hs : o'.size = o.size)
    (hp : o'.posts = o.posts) (he : o'.evaluations = o.evaluations.erase id)
    (hr : o.scopes.isCancelled .root = true → o'.scopes.isCancelled .root = true) :
    o'.Mailed :=
  h.congr hs hp (h.placed_of_stemsFrom (.erase he)) (queuedAt_erase live hq he) hr

/-- A fork takes a child that waits to be placed. -/
theorem Mailed.places (h : o.Mailed) {id : EvaluationId} {e : Evaluation} {f : Fork}
    {stack : List Frame} (live : o.evaluations.get? id = some e)
    (joining : e.phase = .joining f stack) (rest : List Workflow) :
    Mailed
      { o with
        evaluations := o.evaluations.insert id
          { e with phase := .joining { f with placed := f.placed + 1, waiting := rest } stack }
        scopes := (o.scopes.child f.scope).2 } :=
  h.update live (by simp [joining]) (by simp) rfl rfl rfl fun h => h

/-- A new phase of an evaluation leaves the next identifier free. -/
theorem fresh_insert {id : EvaluationId} {e e' : Evaluation}
    (live : o.evaluations.get? id = some e) (fresh : o.evaluations.get? ⟨o.newId⟩ = none) :
    (o.evaluations.insert id e').get? ⟨o.newId⟩ = none := by
  rw [Table.get?_insert, if_neg]
  · exact fresh
  · rintro rfl
    cases live.symm.trans fresh

theorem Mailed.slot_lt (h : o.Mailed) {i : Nat} {post : Post}
    (at_slot : o.posts[i]? = some post) : i < o.size := by
  rw [← h.posted]
  exact (List.getElem?_eq_some_iff.1 at_slot).1

theorem modify_cases {posts : List Post} {i j : Nat} {f : Post → Post} {post : Post}
    (h : (posts.modify i f)[j]? = some post) :
    (i = j ∧ ∃ before, posts[i]? = some before ∧ post = f before) ∨
      (i ≠ j ∧ posts[j]? = some post) := by
  rw [List.getElem?_modify] at h
  by_cases hij : i = j
  · subst hij
    cases hb : posts[i]? with
    | none => simp [hb] at h
    | some before =>
      refine .inl ⟨rfl, before, rfl, ?_⟩
      simpa [hb] using h.symm
  · exact .inr ⟨hij, by simpa [hij] using h⟩

/-- One inbox can change together with what is queued there. -/
theorem Mailed.modify (h : o.Mailed) {i : Nat} {post : Post} {f : Post → Post}
    (at_slot : o.posts[i]? = some post) (hs : o'.size = o.size)
    (hp : o'.posts = o.posts.modify i f) (hr : o'.scopes = o.scopes)
    (placed : ∀ {id e}, o'.evaluations.get? id = some e →
      ∃ p, e.placement = some p ∧ p.slot < o.size)
    (others : ∀ {id j}, j ≠ i → (o'.QueuedAt id j ↔ o.QueuedAt id j))
    (here : ∀ {id}, o'.QueuedAt id i ↔ id ∈ (f post).inbox.map Delivery.evaluation)
    (distinct : ((f post).inbox.map Delivery.evaluation).Nodup)
    (stopped : (f post).listening = false →
      (f post).inbox = [] ∧ o.scopes.isCancelled .root = true) : o'.Mailed where
  staffed := hs ▸ h.staffed
  posted := by
    rw [hs, hp, List.length_modify]
    exact h.posted
  placed := hs ▸ placed
  queued := by
    intro j post' id at_slot'
    rcases modify_cases (hp ▸ at_slot') with ⟨rfl, before, hb, rfl⟩ | ⟨hij, hpost⟩
    · cases hb.symm.trans at_slot
      exact here
    · exact (others (Ne.symm hij)).trans (h.queued hpost)
  inbox_distinct := by
    intro j post' at_slot'
    rcases modify_cases (hp ▸ at_slot') with ⟨rfl, before, hb, rfl⟩ | ⟨-, hpost⟩
    · cases hb.symm.trans at_slot
      exact distinct
    · exact h.inbox_distinct hpost
  stopped := by
    intro j post' at_slot' hl
    rw [hr]
    rcases modify_cases (hp ▸ at_slot') with ⟨rfl, before, hb, rfl⟩ | ⟨-, hpost⟩
    · cases hb.symm.trans at_slot
      exact stopped hl
    · exact h.stopped hpost hl

theorem QueuedAt.unique {id : EvaluationId} {i j : Nat} (hi : o.QueuedAt id i)
    (hj : o.QueuedAt id j) : i = j := by
  obtain ⟨e₁, p₁, live₁, -, hp₁, rfl⟩ := hi
  obtain ⟨e₂, p₂, live₂, -, hp₂, rfl⟩ := hj
  cases live₁.symm.trans live₂
  cases hp₁.symm.trans hp₂
  rfl

/-- A queued evaluation that is delivered leaves the inbox. -/
theorem Mailed.receive (h : o.Mailed) {i : Nat} {post : Post} {d : Delivery}
    {rest : List Delivery} {e : Evaluation} (at_slot : o.posts[i]? = some post)
    (inbox : post.inbox = d :: rest) (live : o.evaluations.get? d.evaluation = some e) :
    Mailed
      { o with
        posts := o.posts.modify i fun q => { q with inbox := rest }
        evaluations := o.evaluations.insert d.evaluation
          { e with phase := .accepted d.payload } } := by
  have distinct := h.inbox_distinct at_slot
  rw [inbox, List.map_cons, List.nodup_cons] at distinct
  have hq : ∀ {id j}, Outline.QueuedAt { o with
        posts := o.posts.modify i fun q => { q with inbox := rest }
        evaluations := o.evaluations.insert d.evaluation
          { e with phase := .accepted d.payload } } id j ↔
      o.QueuedAt id j ∧ id ≠ d.evaluation := by
    intro id j
    unfold QueuedAt
    by_cases hid : d.evaluation = id
    · simp [hid]
    · simp [hid, Ne.symm hid]
  have head : o.QueuedAt d.evaluation i := (h.queued at_slot).2 (by simp [inbox])
  refine h.modify at_slot rfl rfl rfl (h.placed_of_stemsFrom (.update live rfl)) ?_ ?_ distinct.2 ?_
  · intro id j hij
    rw [hq, and_iff_left_iff_imp]
    rintro hj rfl
    exact hij (hj.unique head)
  · intro id
    rw [hq, h.queued at_slot, inbox, List.map_cons, List.mem_cons]
    constructor
    · rintro ⟨rfl | hm, hne⟩
      · exact absurd rfl hne
      · exact hm
    · intro hm
      refine ⟨.inr hm, ?_⟩
      rintro rfl
      exact distinct.1 hm
  · intro hl
    obtain ⟨empty, -⟩ := h.stopped at_slot hl
    simp [inbox] at empty

/-- A worker that stops drops all that was queued there. -/
theorem Mailed.close (h : o.Mailed) {i : Nat} {post : Post} (worker : WorkerId)
    (at_slot : o.posts[i]? = some post) (stopped : o.scopes.isCancelled .root = true) :
    Mailed
      { o with
        posts := o.posts.modify i fun _ => ⟨false, []⟩
        evaluations := dropAll worker post.inbox o.evaluations } := by
  have hq : ∀ {id j}, Outline.QueuedAt { o with
        posts := o.posts.modify i fun _ => ⟨false, []⟩
        evaluations := dropAll worker post.inbox o.evaluations } id j ↔
      o.QueuedAt id j ∧ ¬ o.QueuedAt id i := by
    intro id j
    rw [h.queued at_slot]
    unfold QueuedAt
    rw [get?_dropAll]
    split
    · next hm => simp [hm]
    · next hm => simp [hm]
  refine h.modify at_slot rfl rfl rfl (h.placed_of_stemsFrom (.dropAll rfl)) ?_ ?_ List.nodup_nil
    fun _ => ⟨rfl, stopped⟩
  · intro id j hij
    rw [hq, and_iff_left_iff_imp]
    intro hj hi
    exact hij (hj.unique hi)
  · intro id
    simp [hq]

/-- A placed evaluation is queued where its delivery waits, or has failed. -/
theorem Dispatched.mailed {job : JobId} {parent : Option Parent} {scope : Scope} {w : Workflow}
    (sent : o.Dispatched job parent scope w o') (h : o.Mailed)
    (fresh : o.evaluations.get? ⟨o.newId⟩ = none) : o'.Mailed := by
  cases sent with
  | @sent p now post at_slot listens =>
    have absent : ⟨o.newId⟩ ∉ post.inbox.map Delivery.evaluation := by
      rw [← h.queued at_slot]
      rintro ⟨e, -, live, -⟩
      cases live.symm.trans fresh
    refine h.modify at_slot rfl rfl rfl ?_ ?_ ?_ ?_ ?_
    · intro id e live
      simp only [place, Table.get?_insert] at live
      split at live
      · cases live
        exact ⟨p, rfl, h.slot_lt at_slot⟩
      · exact h.placed live
    · intro id j hj
      unfold QueuedAt
      by_cases hid : ⟨o.newId⟩ = id
      · subst hid
        simp [place, fresh, Ne.symm hj]
      · simp [place, hid]
    · intro id
      rw [List.map_append, List.mem_append, ← h.queued at_slot]
      unfold QueuedAt
      by_cases hid : ⟨o.newId⟩ = id
      · subst hid
        simp [place]
      · simp [place, hid, Ne.symm hid]
    · rw [List.map_append, List.nodup_append]
      refine ⟨h.inbox_distinct at_slot, by simp, ?_⟩
      intro id hm id' hm'
      simp only [List.map_cons, List.map_nil, List.mem_singleton] at hm'
      rintro rfl
      exact absent (hm' ▸ hm)
    · intro hl
      simp [listens] at hl
  | @refused p now post at_slot stopped =>
    refine h.congr rfl rfl ?_ ?_ id
    · intro id e live
      simp only [place, Table.get?_insert] at live
      split at live
      · cases live
        exact ⟨p, rfl, h.slot_lt at_slot⟩
      · exact h.placed live
    · intro id i
      unfold QueuedAt
      by_cases hid : ⟨o.newId⟩ = id
      · subst hid
        simp [place, fresh]
      · simp [place, hid]

theorem Mailed.step {ev : Event} (h : o.Mailed) (fresh : o.evaluations.get? ⟨o.newId⟩ = none)
    (s : o.Step ev o') : o'.Mailed := by
  cases s with
  | elapse => exact h
  | arrange => exact h
  | submit now => exact h.frame rfl rfl rfl id
  | cancel => exact h.frame rfl rfl rfl (ScopeTree.isCancelled_cancel _)
  | forget => exact h.frame rfl rfl rfl id
  | shutdown => exact h.frame rfl rfl rfl (ScopeTree.isCancelled_cancel _)
  | begin thread sent => exact sent.mailed (h.frame rfl rfl rfl id) fresh
  | receive at_slot inbox live => exact h.receive at_slot inbox live
  | close at_slot stopped => exact h.close _ at_slot stopped
  | shift steps live turn leads later =>
    exact h.update live turn.not_queued leads.not_queued rfl rfl rfl id
  | fork steps live running free forks =>
    exact h.update live (by simp [running]) (by simp) rfl rfl rfl id
  | @place id e f w rest stack _ live joining waiting sent =>
    exact sent.mailed (h.places live joining rest) (fresh_insert live fresh)
  | collectRoot now live responded root known =>
    exact h.erase live (by simp [responded]) rfl rfl rfl id
  | @collectChild id e r now parent pe f stack live responded child above joining =>
    have erased : Mailed { o with evaluations := o.evaluations.erase id } :=
      h.erase live (by simp [responded]) rfl rfl rfl fun h => h
    have hne : id ≠ parent.id := by
      rintro rfl
      cases live.symm.trans above
      cases responded.symm.trans joining
    refine erased.update (e := pe) (by simp [hne, above]) (by simp [joining]) (by simp) rfl rfl
      rfl ?_
    split
    · exact ScopeTree.isCancelled_cancel _
    · exact fun h => h

end Outline

end WorkflowEngine
