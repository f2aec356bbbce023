import WorkflowEngine.Proofs.Joins
import WorkflowEngine.Proofs.Reachable
import Mathlib.Logic.Function.Basic
/-!
Which scopes can be cancelled. Those of children never are, except as part of the fork around
them; a fork is cancelled only by its own join, a job only by a request, the engine by its end.
-/
set_option autoImplicit false

namespace WorkflowEngine

/-- What a scope was opened for. -/
inductive ScopeRole where
  | unused
  | engine
  | job (id : JobId)
  | fork (id : EvaluationId)
  | child

/-- Whether a scope may be cancelled by itself. If a job is spared then so is the engine. -/
def ScopeRole.Exposed (spared : Option JobId) : ScopeRole → Prop
  | .unused | .child => False
  | .engine => spared = none
  | .job id => spared ≠ some id
  | .fork _ => True

/-- An event that cancels nothing from outside that is spared. -/
def Event.Spares (spared : Option JobId) : Event → Prop
  | .shutdown => spared = none
  | .cancel id => spared ≠ some id
  | _ => True

namespace Outline

/-- The numbers of scopes are used once. A cancelled fork has been decided. -/
structure Numbered (o : Outline) (spared : Option JobId) (role : Nat → ScopeRole) : Prop where
  unused : ∀ {n}, o.scopes.next ≤ n → role n = .unused
  engine : ∀ {n}, role n = .engine ↔ n = 0
  known : ∀ {n id}, role n = .job id → o.Known id.uuid
  entry : ∀ {id entry}, o.jobs.get? id = some entry → role entry.scope.number = .job id
  submitted : ∀ {id w s}, o.threads.get? id = some (.submitted w s) → role s.number = .job id
  top : ∀ {id e}, o.evaluations.get? id = some e → e.parent = none →
    role e.scope.number = .job e.job
  inner : ∀ {id e parent}, o.evaluations.get? id = some e → e.parent = some parent →
    role e.scope.number = .child
  fork : ∀ {id e f stack}, o.evaluations.get? id = some e → e.phase = .joining f stack →
    role f.scope.number = .fork id
  exposed : ∀ {n}, n ∈ o.scopes.cancelled → (role n).Exposed spared
  decided : ∀ {id e f stack}, o.evaluations.get? id = some e → e.phase = .joining f stack →
    f.scope.number ∈ o.scopes.cancelled → f.join.Decided

variable {o o' : Outline} {spared : Option JobId} {role : Nat → ScopeRole}

/-- Forks stay in their scopes, and decided ones stay decided. -/
def ForksOn (o' o : Outline) : Prop :=
  ∀ id e' f' stack', o'.evaluations.get? id = some e' → e'.phase = .joining f' stack' →
    ∃ e f stack, o.evaluations.get? id = some e ∧ e.phase = .joining f stack ∧
      f'.scope = f.scope ∧ (f.join.Decided → f'.join.Decided)

theorem ForksOn.of_eq (he : o'.evaluations = o.evaluations) : o'.ForksOn o := by
  intro id e f stack live joining
  exact ⟨e, f, stack, he ▸ live, joining, rfl, fun h => h⟩

theorem ForksOn.update {id : EvaluationId} {e : Evaluation} {steps : Nat} {phase : Phase}
    (he : o'.evaluations = o.evaluations.insert id { e with steps, phase })
    (hp : ∀ {f' stack'}, phase = .joining f' stack' →
      ∃ e f stack, o.evaluations.get? id = some e ∧ e.phase = .joining f stack ∧
        f'.scope = f.scope ∧ (f.join.Decided → f'.join.Decided)) : o'.ForksOn o := by
  intro id' e' f' stack' live' joining'
  rw [he, Table.get?_insert] at live'
  split at live'
  · next hid =>
    subst hid
    cases live'
    exact hp joining'
  · exact ⟨e', f', stack', live', joining', rfl, fun h => h⟩

theorem ForksOn.erase {id : EvaluationId} (he : o'.evaluations = o.evaluations.erase id) :
    o'.ForksOn o := by
  intro id' e' f' stack' live' joining'
  rw [he, Table.get?_erase] at live'
  split at live'
  · cases live'
  · exact ⟨e', f', stack', live', joining', rfl, fun h => h⟩

theorem ForksOn.dropAll {worker : WorkerId} {ds : List Delivery}
    (he : o'.evaluations = dropAll worker ds o.evaluations) : o'.ForksOn o := by
  intro id' e' f' stack' live' joining'
  rw [he, get?_dropAll] at live'
  split at live'
  · obtain ⟨e, live, rfl⟩ := Option.map_eq_some_iff.1 live'
    cases joining'
  · exact ⟨e', f', stack', live', joining', rfl, fun h => h⟩

theorem Numbered.congr (h : o.Numbered spared role) (hs : o'.scopes = o.scopes)
    (hn : o.nextId ≤ o'.nextId)
    (hj : ∀ {id entry'}, o'.jobs.get? id = some entry' →
      ∃ entry, o.jobs.get? id = some entry ∧ entry'.scope = entry.scope)
    (ht : ∀ {id w s}, o'.threads.get? id = some (.submitted w s) →
      o.threads.get? id = some (.submitted w s))
    (hk : o'.StemsFrom o) (hf : o'.ForksOn o) : o'.Numbered spared role where
  unused := by
    rw [hs]
    exact h.unused
  engine := h.engine
  known := fun hr => (h.known hr).mono hn
  entry := by
    intro id entry' hentry'
    obtain ⟨entry, hentry, hscope⟩ := hj hentry'
    exact hscope ▸ h.entry hentry
  submitted := fun hthread => h.submitted (ht hthread)
  top := by
    intro id e' live' hnone
    obtain ⟨e, live, hjob, hparent, hscope, -⟩ := hk id e' live'
    rw [hscope, hjob]
    exact h.top live (hparent ▸ hnone)
  inner := by
    intro id e' parent live' hsome
    obtain ⟨e, live, -, hparent, hscope, -⟩ := hk id e' live'
    exact hscope ▸ h.inner live (hparent ▸ hsome)
  fork := by
    intro id e' f' stack' live' joining'
    obtain ⟨e, f, stack, live, joining, hscope, -⟩ := hf id e' f' stack' live' joining'
    exact hscope ▸ h.fork live joining
  exposed := by
    rw [hs]
    exact h.exposed
  decided := by
    intro id e' f' stack' live' joining' hc
    obtain ⟨e, f, stack, live, joining, hscope, hd⟩ := hf id e' f' stack' live' joining'
    exact hd (h.decided live joining (hs ▸ hscope ▸ hc))

/-- Only evaluations have changed. -/
theorem Numbered.frame (h : o.Numbered spared role) (hs : o'.scopes = o.scopes)
    (hn : o.nextId ≤ o'.nextId) (hj : o'.jobs = o.jobs) (ht : o'.threads = o.threads)
    (hk : o'.StemsFrom o) (hf : o'.ForksOn o) : o'.Numbered spared role :=
  h.congr hs hn (fun hentry => ⟨_, hj ▸ hentry, rfl⟩) (fun hthread => ht ▸ hthread) hk hf

theorem Numbered.ne_next (h : o.Numbered spared role) {n : Nat} (hr : role n ≠ .unused) :
    n ≠ o.scopes.next := by
  rintro rfl
  exact hr (h.unused (Nat.le_refl _))

/-- A new scope has a role that no scope had before. -/
theorem Numbered.open (h : o.Numbered spared role) (s : Scope) {x : ScopeRole}
    (hx : x ≠ .engine) (hk : ∀ {id}, x = .job id → o.Known id.uuid) :
    Numbered { o with scopes := (o.scopes.child s).2 } spared
      (Function.update role o.scopes.next x) := by
  have hu : role o.scopes.next = .unused := h.unused (Nat.le_refl _)
  have kept : ∀ {n y}, role n = y → y ≠ .unused → Function.update role o.scopes.next x n = y := by
    intro n y hr hy
    rw [Function.update_of_ne (h.ne_next (hr ▸ hy)), hr]
  refine
    { unused := ?_
      engine := ?_
      known := ?_
      entry := fun hentry => kept (h.entry hentry) (by simp)
      submitted := fun hthread => kept (h.submitted hthread) (by simp)
      top := fun live hnone => kept (h.top live hnone) (by simp)
      inner := fun live hsome => kept (h.inner live hsome) (by simp)
      fork := fun live joining => kept (h.fork live joining) (by simp)
      exposed := ?_
      decided := fun live joining hc => h.decided live joining hc }
  · intro n hn
    have hlt : o.scopes.next < n := hn
    rw [Function.update_of_ne (by omega)]
    exact h.unused (by omega)
  · intro n
    by_cases hn : n = o.scopes.next
    · subst hn
      have hzero : o.scopes.next ≠ 0 := by
        intro hzero
        simp [h.engine.2 hzero] at hu
      simp [hx, hzero]
    · rw [Function.update_of_ne hn]
      exact h.engine
  · intro n id hr
    by_cases hn : n = o.scopes.next
    · subst hn
      rw [Function.update_self] at hr
      exact hk hr
    · rw [Function.update_of_ne hn] at hr
      exact h.known hr
  · intro n hc
    have he := h.exposed hc
    rw [Function.update_of_ne]
    · exact he
    · rintro rfl
      simp [hu, ScopeRole.Exposed] at he

/-- A scope can be cancelled if the forks that were opened in it have been decided. -/
theorem Numbered.cancel (h : o.Numbered spared role) {s : Scope}
    (he : (role s.number).Exposed spared)
    (hd : ∀ {id e f stack}, o.evaluations.get? id = some e → e.phase = .joining f stack →
      f.scope.number = s.number → f.join.Decided) :
    Numbered { o with scopes := o.scopes.cancel s } spared role := by
  have hnext : (o.scopes.cancel s).next = o.scopes.next := by
    unfold ScopeTree.cancel
    split <;> rfl
  refine { h with unused := ?_, exposed := ?_, decided := ?_ }
  · rw [hnext]
    exact h.unused
  · intro n hc
    rcases ScopeTree.mem_cancel.1 hc with rfl | hc
    · exact he
    · exact h.exposed hc
  · intro id e f stack live joining hc
    rcases ScopeTree.mem_cancel.1 hc with hs | hc
    · exact hd live joining hs
    · exact h.decided live joining hc

theorem Dispatched.numbered {job : JobId} {parent : Option Parent} {scope : Scope} {w : Workflow}
    (sent : o.Dispatched job parent scope w o') (h : o.Numbered spared role)
    (top : parent = none → role scope.number = .job job)
    (inner : ∀ {p}, parent = some p → role scope.number = .child) : o'.Numbered spared role := by
  obtain ⟨p, phase, hget, hphase⟩ := sent.get?
  obtain ⟨-, hjobs, hthreads, hscopes, hnext⟩ := sent.unchanged
  have before : ∀ {id e f stack}, o'.evaluations.get? id = some e → e.phase = .joining f stack →
      o.evaluations.get? id = some e := by
    intro id e f stack live joining
    rw [hget] at live
    split at live
    · cases live
      rcases hphase with rfl | rfl <;> cases joining
    · exact live
  refine
    { unused := ?_
      engine := h.engine
      known := fun hr => (h.known hr).mono (by omega)
      entry := fun hentry => h.entry (hjobs ▸ hentry)
      submitted := fun hthread => h.submitted (hthreads ▸ hthread)
      top := ?_
      inner := ?_
      fork := fun live joining => h.fork (before live joining) joining
      exposed := fun hc => h.exposed (hscopes ▸ hc)
      decided := fun live joining hc => h.decided (before live joining) joining (hscopes ▸ hc) }
  · rw [hscopes]
    exact h.unused
  · intro id e live hnone
    rw [hget] at live
    split at live
    · cases live
      exact top hnone
    · exact h.top live hnone
  · intro id e parent' live hsome
    rw [hget] at live
    split at live
    · cases live
      exact inner hsome
    · exact h.inner live hsome

theorem Numbered.submit (h : o.Numbered spared role) (name : String) (w : Workflow)
    (now : Timestamp) :
    Numbered
      { o with
        jobs := o.jobs.insert ⟨o.newId⟩
          ⟨⟨⟨o.newId⟩, name, .running, now, none, none⟩, (o.scopes.child .root).1⟩
        threads := o.threads.insert ⟨o.newId⟩ (.submitted w (o.scopes.child .root).1)
        scopes := (o.scopes.child .root).2
        nextId := o.nextId + 1 } spared
      (Function.update role o.scopes.next (.job ⟨o.newId⟩)) := by
  have later : Numbered { o with nextId := o.nextId + 1 } spared role :=
    h.frame rfl (Nat.le_succ _) rfl rfl (.of_eq rfl) (.of_eq rfl)
  have opened := later.open .root (x := .job ⟨o.newId⟩) (by simp) fun hid => by
    cases hid
    exact known_newId (Nat.lt_succ_self _)
  refine { opened with entry := ?_, submitted := ?_ }
  · intro id entry hentry
    rw [Table.get?_insert] at hentry
    split at hentry
    · next hid =>
      subst hid
      cases hentry
      exact Function.update_self _ _ _
    · exact opened.entry hentry
  · intro id w' s hthread
    rw [Table.get?_insert] at hthread
    split at hthread
    · next hid =>
      subst hid
      cases hthread
      exact Function.update_self _ _ _
    · exact opened.submitted hthread

theorem Numbered.fork_opened (h : o.Numbered spared role) {id : EvaluationId} {e : Evaluation}
    {f : Fork} (steps : Nat) (stack : List Frame) (live : o.evaluations.get? id = some e)
    (new : f.scope = (o.scopes.child e.scope).1) :
    Numbered
      { o with
        evaluations := o.evaluations.insert id { e with steps, phase := .joining f stack }
        scopes := (o.scopes.child e.scope).2 } spared
      (Function.update role o.scopes.next (.fork id)) := by
  have number : f.scope.number = o.scopes.next := congrArg Scope.number new
  have opened := h.open e.scope (x := .fork id) (by simp) (by simp)
  have stems : StemsFrom
      { o with
        evaluations := o.evaluations.insert id { e with steps, phase := .joining f stack }
        scopes := (o.scopes.child e.scope).2 }
      { o with scopes := (o.scopes.child e.scope).2 } := .update live rfl
  refine { opened with top := ?_, inner := ?_, fork := ?_, decided := ?_ }
  · intro id' e' live' hnone
    obtain ⟨e₀, live₀, hjob, hparent, hscope, -⟩ := stems id' e' live'
    rw [hscope, hjob]
    exact opened.top live₀ (hparent ▸ hnone)
  · intro id' e' parent live' hsome
    obtain ⟨e₀, live₀, -, hparent, hscope, -⟩ := stems id' e' live'
    exact hscope ▸ opened.inner live₀ (hparent ▸ hsome)
  · intro id' e' f' stack' live' joining
    rw [Table.get?_insert] at live'
    split at live'
    · next hid =>
      subst hid
      cases live'
      cases joining
      rw [number]
      exact Function.update_self _ _ _
    · exact opened.fork live' joining
  · intro id' e' f' stack' live' joining hc
    rw [Table.get?_insert] at live'
    split at live'
    · cases live'
      cases joining
      have he := h.exposed (number ▸ hc)
      simp [h.unused (Nat.le_refl _), ScopeRole.Exposed] at he
    · exact opened.decided live' joining hc

theorem Numbered.place (h : o.Numbered spared role) {id : EvaluationId} {e : Evaluation} {f : Fork}
    {w : Workflow} {rest : List Workflow} {stack : List Frame}
    (live : o.evaluations.get? id = some e) (joining : e.phase = .joining f stack)
    (sent : Dispatched
      { o with
        evaluations := o.evaluations.insert id
          { e with phase := .joining { f with placed := f.placed + 1, waiting := rest } stack }
        scopes := (o.scopes.child f.scope).2 }
      e.job (some ⟨id, f.placed⟩) (o.scopes.child f.scope).1 w o') :
    o'.Numbered spared (Function.update role o.scopes.next .child) := by
  have opened := h.open f.scope (x := .child) (by simp) (by simp)
  refine sent.numbered (opened.frame rfl (Nat.le_refl _) rfl rfl (.update live rfl)
    (.update rfl fun hf => ?_)) (by simp) fun _ => Function.update_self _ _ _
  cases hf
  exact ⟨e, f, stack, live, joining, rfl, fun hd => hd⟩

theorem Numbered.collectRoot (h : o.Numbered spared role) {id : EvaluationId} {e : Evaluation}
    {entry : JobEntry} {outcome : Outcome} (now : Timestamp) (ledger : Ledger)
    (known : o.jobs.get? e.job = some entry) :
    Numbered
      { o with
        evaluations := o.evaluations.erase id
        ledger
        threads := o.threads.insert e.job (.ended outcome)
        jobs := o.jobs.insert e.job (Cluster.endedEntry entry outcome now) } spared role := by
  refine h.congr rfl (Nat.le_refl _) ?_ ?_ (.erase rfl) (.erase rfl)
  · intro job entry' hentry
    rw [Table.get?_insert] at hentry
    split at hentry
    · next hjob =>
      cases hentry
      exact ⟨entry, hjob ▸ known, rfl⟩
    · exact ⟨entry', hentry, rfl⟩
  · intro job w s hthread
    rw [Table.get?_insert] at hthread
    split at hthread
    · cases hthread
    · exact hthread

theorem Numbered.collectChild (h : o.Numbered spared role) {id : EvaluationId} {parent : Parent}
    {pe : Evaluation} {f : Fork} {stack : List Frame} (i : Nat) (outcome : Outcome)
    (ledger : Ledger) (above : o.evaluations.get? parent.id = some pe)
    (joining : pe.phase = .joining f stack) (hne : id ≠ parent.id) :
    Numbered
      { o with
        evaluations := (o.evaluations.erase id).insert parent.id
          { pe with
            phase := .joining
              { f with
                join := (f.join.receive i outcome).2
                missing := f.missing - 1 } stack }
        ledger
        scopes := if (f.join.receive i outcome).1 then o.scopes.cancel f.scope else o.scopes }
      spared role := by
  have erased : Numbered { o with evaluations := o.evaluations.erase id, ledger } spared role :=
    h.frame rfl (Nat.le_refl _) rfl rfl (.erase rfl) (.erase rfl)
  have live : (o.evaluations.erase id).get? parent.id = some pe := by simp [hne, above]
  have received : Numbered
      { o with
        evaluations := (o.evaluations.erase id).insert parent.id
          { pe with
            phase := .joining
              { f with
                join := (f.join.receive i outcome).2
                missing := f.missing - 1 } stack }
        ledger } spared role := by
    refine erased.frame rfl (Nat.le_refl _) rfl rfl (.update live rfl) (.update rfl fun hf => ?_)
    cases hf
    exact ⟨pe, f, stack, live, joining, rfl, fun hd => (Join.decided_receive _ _ _).2 (.inl hd)⟩
  split
  · next decides =>
    have hr := h.fork above joining
    refine received.cancel (by rw [hr]; trivial) fun {id' e' f' stack'} live' joining' hs => ?_
    -- no other evaluation has opened the scope of this fork
    have hid : id' = parent.id := by
      have hr' := received.fork live' joining'
      rw [hs, hr] at hr'
      cases hr'
      rfl
    subst hid
    rw [Table.get?_insert, if_pos rfl] at live'
    cases live'
    cases joining'
    exact (Join.decided_receive _ _ _).2 (.inr decides)
  · exact received

theorem Numbered.step {ev : Event} (h : o.Numbered spared role) (s : o.Step ev o')
    (spares : ev.Spares spared) : ∃ role', o'.Numbered spared role' := by
  cases s with
  | elapse => exact ⟨role, h⟩
  | arrange => exact ⟨role, h⟩
  | submit now => exact ⟨_, h.submit _ _ now⟩
  | cancel known running =>
    have hr := h.entry known
    refine ⟨role, h.cancel (by rw [hr]; exact spares) fun live joining hs => ?_⟩
    have hf := h.fork live joining
    rw [hs, hr] at hf
    cases hf
  | forget known ended =>
    refine ⟨role, h.congr rfl (Nat.le_refl _) (fun hentry => ⟨_, ?_, rfl⟩) (fun ht => ht)
      (.of_eq rfl) (.of_eq rfl)⟩
    rw [Table.get?_erase] at hentry
    split at hentry
    · cases hentry
    · exact hentry
  | shutdown =>
    have hr : role Scope.root.number = .engine := h.engine.2 rfl
    refine ⟨role, h.cancel (by rw [hr]; exact spares) fun live joining hs => ?_⟩
    have hf := h.fork live joining
    rw [hs, hr] at hf
    cases hf
  | begin thread sent =>
    refine ⟨role, sent.numbered (h.congr rfl (Nat.le_refl _) (fun hentry => ⟨_, hentry, rfl⟩) ?_
      (.of_eq rfl) (.of_eq rfl)) (fun _ => h.submitted thread) (by simp)⟩
    intro id w' s' hthread
    rw [Table.get?_insert] at hthread
    split at hthread
    · cases hthread
    · exact hthread
  | receive at_slot inbox live =>
    exact ⟨role, h.frame rfl (Nat.le_refl _) rfl rfl (.update live rfl) (.update rfl (by simp))⟩
  | close at_slot stopped =>
    exact ⟨role, h.frame rfl (Nat.le_refl _) rfl rfl (.dropAll rfl) (.dropAll rfl)⟩
  | shift steps live turn leads later =>
    refine ⟨role, h.frame rfl later.1 rfl rfl (.update live rfl) (.update rfl fun hf => ?_)⟩
    exact absurd hf (leads.not_joining _ _)
  | fork steps live running free forks => exact ⟨_, h.fork_opened steps _ live rfl⟩
  | place live joining waiting sent => exact ⟨_, h.place live joining sent⟩
  | collectRoot now live responded root known => exact ⟨role, h.collectRoot now _ known⟩
  | @collectChild id e r now parent pe f stack live responded child above joining =>
    refine ⟨role, h.collectChild parent.index r.outcome _ above joining ?_⟩
    rintro rfl
    cases live.symm.trans above
    cases responded.symm.trans joining

theorem Numbered.free_engine {job : JobId} (h : o.Numbered (some job) role) :
    o.scopes.isCancelled .root = false := by
  apply eq_false_of_ne_true
  intro hc
  obtain ⟨n, hn, hcan⟩ := ScopeTree.isCancelled_iff.1 hc
  cases List.mem_singleton.1 hn
  have he := h.exposed hcan
  have hrole : role Scope.root.number = .engine := h.engine.2 rfl
  rw [hrole] at he
  cases he

/-- The root evaluation of a job that nobody cancels is not cancelled. -/
theorem Numbered.free_root {job : JobId} (h : o.Numbered (some job) role) (ht : o.Threaded)
    {id : EvaluationId} {e : Evaluation} (live : o.evaluations.get? id = some e)
    (root : e.parent = none) (same : e.job = job) : o.scopes.isCancelled e.scope = false := by
  apply eq_false_of_ne_true
  intro hc
  obtain ⟨n, hn, hcan⟩ := ScopeTree.isCancelled_iff.1 hc
  have he := h.exposed hcan
  simp only [Scope.path, ht.root_scope live root, Scope.root, List.mem_cons, List.not_mem_nil,
    or_false] at hn
  rcases hn with rfl | rfl
  · rw [h.top live root] at he
    exact he (same ▸ rfl)
  · rw [h.engine.2 rfl] at he
    cases he

/-- A child is cancelled only together with its fork. -/
theorem Numbered.free_child {spared : Option JobId} (h : o.Numbered spared role) (hf : o.Forked)
    {id : EvaluationId} {e pe : Evaluation} {parent : Parent} {f : Fork} {stack : List Frame}
    (live : o.evaluations.get? id = some e) (child : e.parent = some parent)
    (above : o.evaluations.get? parent.id = some pe) (joining : pe.phase = .joining f stack)
    (free : o.scopes.isCancelled pe.scope = false) (hfork : f.scope.number ∉ o.scopes.cancelled) :
    o.scopes.isCancelled e.scope = false := by
  apply eq_false_of_ne_true
  intro hc
  obtain ⟨n, hn, hcan⟩ := ScopeTree.isCancelled_iff.1 hc
  obtain ⟨pe', f', stack', above', joining', -, -, hscope⟩ := hf.above live child
  cases above'.symm.trans above
  cases joining'.symm.trans joining
  simp only [Scope.path, hscope, hf.fork_scope above joining, List.mem_cons] at hn
  rcases hn with rfl | rfl | hn
  · have he := h.exposed hcan
    rw [h.inner live child] at he
    exact he
  · exact hfork hcan
  · exact absurd (ScopeTree.isCancelled_iff.2 ⟨n, List.mem_cons.2 hn, hcan⟩) (by simp [free])

/-- A job that is yet to be submitted can be spared, and the engine with it. -/
theorem Numbered.spare (h : o.Numbered none role)
    (stays : o.scopes.isCancelled .root = false) {job : JobId} (new : ¬ o.Known job.uuid) :
    o.Numbered (some job) role := by
  refine { h with exposed := fun {n} hc => ?_ }
  have he := h.exposed hc
  cases hrole : role n with
  | engine =>
    cases h.engine.1 hrole
    have hroot : o.scopes.isCancelled .root = true :=
      ScopeTree.isCancelled_iff.2 ⟨0, List.mem_singleton.2 rfl, hc⟩
    simp [stays] at hroot
  | job id =>
    rintro ⟨⟩
    exact new (h.known hrole)
  | fork id => trivial
  | _ => simp [hrole, ScopeRole.Exposed] at he

end Outline

namespace Cluster

theorem numbered_start (registry : Registry) (config : EngineConfig) (backend : Backend)
    (sink : LogSink) : ∃ role, (start registry config backend sink).outline.Numbered none role := by
  refine ⟨fun n => if n = 0 then .engine else .unused, ?_⟩
  refine
    { unused := fun {n} hn => if_neg (Nat.pos_iff_ne_zero.1 hn)
      engine := fun {n} => by by_cases hn : n = 0 <;> simp [hn]
      known := fun {n id} hrole => ?_
      entry := by rintro id entry ⟨⟩
      submitted := by rintro id w s ⟨⟩
      top := by rintro id e ⟨⟩
      inner := by rintro id e parent ⟨⟩
      fork := by rintro id e f stack ⟨⟩
      exposed := by rintro n ⟨⟩
      decided := by rintro id e f stack ⟨⟩ }
  by_cases hn : n = 0 <;> simp [hn] at hrole

theorem Run.numbered {P : Cluster → Event → Prop} {a b : Cluster} (run : Run P a b)
    (hc : a.outline.Consistent) (hn : b.nextId < Uuid.supply)
    (h : ∃ role, a.outline.Numbered none role) : ∃ role, b.outline.Numbered none role := by
  refine run.invariant (I := fun c => ∃ role, c.outline.Numbered none role) hc hn h ?_
  rintro c ev c' - - - s ⟨role, hr⟩
  refine hr.step s ?_
  cases ev <;> simp [Event.Spares]

/-- A job can be spared once it is submitted, and the engine with it. -/
theorem numbered_submit {registry : Registry} {config : EngineConfig} {backend : Backend}
    {sink : LogSink} {c : Cluster} (begun : Reaches (start registry config backend sink) c)
    (ids : c.nextId < Uuid.supply) (serving : c.scopes.isCancelled .root = false) (name : String)
    (w : Workflow) :
    ∃ role, (c.submit name w).2.outline.Numbered (some (c.submit name w).1) role := by
  have hstart := consistent_start registry config backend sink
  have hc := begun.consistent hstart ids
  have next : c.after (.submit name w) = some (c.submit name w).2 := rfl
  have new : ¬ c.outline.Known (c.submit name w).1.uuid := fun hk => hk.ne_newId ids rfl
  obtain ⟨role, numbered⟩ := begun.numbered hstart ids
    (numbered_start registry config backend sink)
  exact (numbered.spare serving new).step (step_of_after hc next) trivial

end Cluster

end WorkflowEngine
