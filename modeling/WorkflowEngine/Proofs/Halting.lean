import WorkflowEngine.Proofs.VirtualTime
/-!
An engine that is shut down comes to rest, and only when all its jobs have ended. Whatever job,
worker or evaluation goes on leaves less to do, in whatever order they take turns.
-/
set_option autoImplicit false

namespace WorkflowEngine

/-- What is left to do for the thread of a job, its evaluations apart. -/
def JobThread.work : JobThread → Nat
  | .submitted _ _ => 6
  | _ => 0

theorem countP_modify_of_same {α : Type} {p : α → Bool} {f : α → α} (same : ∀ a, p (f a) = p a)
    (l : List α) (i : Nat) : (l.modify i f).countP p = l.countP p := by
  induction l generalizing i with
  | nil => simp
  | cons a l ih => cases i with
    | zero => simp [List.countP_cons, same]
    | succ i => simp [List.countP_cons, ih]

theorem countP_modify_lt {α : Type} {p : α → Bool} {f : α → α} {l : List α} {i : Nat} {a : α}
    (at_index : l[i]? = some a) (before : p a = true) (after : p (f a) = false) :
    (l.modify i f).countP p < l.countP p := by
  induction l generalizing i with
  | nil => simp at at_index
  | cons b l ih => cases i with
    | zero =>
      simp only [List.getElem?_cons_zero, Option.some.injEq] at at_index
      subst at_index
      simp [before, after]
    | succ i =>
      simp only [List.getElem?_cons_succ] at at_index
      simpa [List.countP_cons] using ih at_index

namespace Outline

variable {o o' : Outline} {id : EvaluationId} {e : Evaluation}

/-- What is left to do for an engine that is shut down. -/
def effort (o : Outline) : Nat :=
  o.work .root + o.threads.sum JobThread.work + o.posts.countP Post.listening

/-- All evaluations are inside the scope of the engine. -/
theorem Consistent.inside_root (hc : o.Consistent) (live : o.evaluations.get? id = some e) :
    Scope.root.path <:+ e.scope.path := by
  induction hk : e.scope.around.length using Nat.strongRecOn generalizing id e with
  | ind k ih =>
    cases hp : e.parent with
    | none =>
      have path : e.scope.path = e.scope.number :: Scope.root.path := by
        rw [Scope.path, hc.root_scope live hp]
      exact path ▸ List.suffix_cons _ _
    | some parent =>
      obtain ⟨pe, f, stack, above, joining, -, -, hscope⟩ := hc.above live hp
      have path : e.scope.around = f.scope.number :: pe.scope.path := by
        rw [hscope, Scope.path, hc.fork_scope above joining]
      have shorter : pe.scope.around.length < k := by
        rw [← hk, path, Scope.path]
        simp only [List.length_cons]
        omega
      have outer : pe.scope.path <:+ e.scope.path := by
        show _ <:+ e.scope.number :: e.scope.around
        rw [path]
        exact (List.suffix_cons _ _).trans (List.suffix_cons _ _)
      exact (ih _ shorter above rfl).trans outer

/-- A response leaves the least to do, so nothing that is dropped leaves more. -/
theorem work_dropAll (s : Scope) (worker : WorkerId) (ds : List Delivery)
    (t : Table EvaluationId Evaluation) :
    (dropAll worker ds t).sum (Evaluation.work s) ≤ t.sum (Evaluation.work s) := by
  induction ds generalizing t with
  | nil => exact Nat.le_refl _
  | cons d ds ih =>
    refine (ih _).trans ?_
    simp only
    split
    · next e live =>
      have less : Evaluation.work s { e with phase := .responded (.failed (.dropped worker)) } ≤
          e.work s := by
        unfold Evaluation.work
        split
        · cases e.phase <;> simp only <;> omega
        · exact Nat.zero_le _
      have := Table.sum_insert_of_some (Evaluation.work s)
        { e with phase := .responded (.failed (.dropped worker)) } live
      omega
    · exact Nat.le_refl _

theorem Dispatched.threads_posts {job : JobId} {parent : Option Parent} {scope : Scope}
    {w : Workflow} (sent : o.Dispatched job parent scope w o') :
    o'.threads = o.threads ∧ o'.posts.countP Post.listening = o.posts.countP Post.listening := by
  cases sent with
  | sent now at_slot listens =>
    exact ⟨rfl, countP_modify_of_same (p := Post.listening)
      (f := fun q : Post => { q with inbox := q.inbox ++ [⟨⟨o.newId⟩, w.encode⟩] })
      (fun _ => rfl) o.posts _⟩
  | refused now at_slot stopped => exact ⟨rfl, rfl⟩

/-- After a shutdown every move leaves less to do. -/
theorem Step.effort {m : Move} (s : o.Step (.move m) o') (hc : o.Consistent)
    (hn : o.nextId < Uuid.supply) (stopped : o.scopes.isCancelled .root = true)
    (closes : ∀ i, m = .close i → ∃ post, o.posts[i]? = some post ∧ post.listening = true) :
    o'.effort < o.effort := by
  unfold Outline.effort
  cases m with
  | begin job =>
    cases s with
    | begin thread sent =>
      have placed := work_dispatched (s := .root) sent (hc.fresh hn)
      obtain ⟨hthreads, hposts⟩ := sent.threads_posts
      have begun := Table.sum_insert_of_some JobThread.work .waiting thread
      simp only [work, JobThread.work, hthreads, hposts] at placed begun ⊢
      omega
  | receive i =>
    have less := s.work_receive (s := .root) hc
    cases s with
    | @receive _ post d rest e at_slot inbox live =>
      have posts := countP_modify_of_same (p := Post.listening)
        (f := fun q : Post => { q with inbox := rest }) (fun _ => rfl) o.posts i
      simp only [posts] at less ⊢
      omega
  | close i =>
    obtain ⟨post, at_slot, listens⟩ := closes i rfl
    cases s with
    | @close _ _ worker at_slot' stopped =>
      have fewer := countP_modify_lt (p := Post.listening) (f := fun _ : Post => ⟨false, []⟩)
        at_slot listens rfl
      have less := work_dropAll .root worker post.inbox o.evaluations
      cases at_slot.symm.trans at_slot'
      simp only [work] at less ⊢
      omega
  | advance id =>
    obtain ⟨e, live⟩ : ∃ e, o.evaluations.get? id = some e := by
      cases s with
      | shift steps live turn leads later => exact ⟨_, live⟩
      | fork steps live running free forks => exact ⟨_, live⟩
      | place live joining waiting sent => exact ⟨_, live⟩
    have inside := hc.inside_root live
    have less := s.work_advance hc hn live inside (ScopeTree.isCancelled_of_suffix inside stopped)
    have same : o'.threads = o.threads ∧
        o'.posts.countP Post.listening = o.posts.countP Post.listening := by
      cases s with
      | shift steps live turn leads later => exact ⟨rfl, rfl⟩
      | fork steps live running free forks => exact ⟨rfl, rfl⟩
      | place live joining waiting sent => exact sent.threads_posts
    rw [same.1, same.2]
    omega
  | collect id =>
    cases s with
    | @collectRoot _ e r entry now live responded root known =>
      have gone := Table.sum_erase_of_some (Evaluation.work .root) live
      have ended := Table.sum_insert_of_some JobThread.work (.ended r.outcome)
        (hc.thread_of_evaluation live)
      have one : e.work .root = 1 := by
        simp only [Evaluation.work, if_pos (hc.inside_root live), responded]
      simp only [work, JobThread.work] at gone ended ⊢
      omega
    | collectChild now live responded child above joining =>
      have less := Step.work_collect
        (.collectChild now live responded child above joining) live child (hc.inside_root live)
      simp only at less ⊢
      omega

end Outline

namespace Cluster

variable {c c' : Cluster}

theorem listening_of_close {i : Nat} (h : c.close i = some c') :
    ∃ post, c.outline.posts[i]? = some post ∧ post.listening = true := by
  obtain ⟨worker, hw, listens, -⟩ := close_cases h
  exact ⟨worker.post, by simp [outline, hw], listens⟩

theorem effort_step {m : Move} (hc : c.outline.Consistent) (hn : c.nextId < Uuid.supply)
    (stopped : c.scopes.isCancelled .root = true) (next : c.step m = some c') :
    c'.outline.effort < c.outline.effort := by
  have s : c.outline.Step (.move m) c'.outline := step_of_after hc next
  refine s.effort hc hn stopped fun i hm => ?_
  subst hm
  exact listening_of_close next

/-- An engine that is shut down makes no more moves than it has left to do. -/
theorem length_le_effort {ms : List Move} (hc : c.outline.Consistent)
    (hn : c.nextId + c.outline.effort < Uuid.supply) (stopped : c.scopes.isCancelled .root = true)
    (moves : ms.foldlM step c = some c') :
    ms.length + c'.outline.effort ≤ c.outline.effort ∧ c'.nextId < Uuid.supply ∧
      Run (fun _ ev => ∃ m, ev = .move m) c c' := by
  induction ms generalizing c with
  | nil =>
    cases moves
    exact ⟨by simp, by omega, .refl _⟩
  | cons m ms ih =>
    obtain ⟨c₁, next, moves⟩ := Option.bind_eq_some_iff.1 moves
    have s : c.outline.Step (.move m) c₁.outline := step_of_after hc next
    have ids : c.nextId < Uuid.supply := by omega
    have less := effort_step hc ids stopped next
    have more : c₁.nextId ≤ c.nextId + 1 := s.nextId_le_succ
    obtain ⟨bound, ids', run⟩ := ih (hc.step ids s) (by omega) (s.isCancelled stopped) moves
    have first : Run (fun _ ev => ∃ m, ev = .move m) c c₁ :=
      .single ⟨m, rfl⟩ (show c.after (.move m) = some c₁ from next)
    refine ⟨?_, ids', first.trans run⟩
    rw [List.length_cons]
    omega

/-- When an engine that is shut down rests, all jobs have ended. -/
theorem ended_of_rests (hc : c.outline.Consistent) (attended : c.outline.Attended)
    (hn : c.nextId < Uuid.supply) (stopped : c.scopes.isCancelled .root = true) (rests : c.Rests)
    {job : JobId} {t : JobThread} (thread : c.threads.get? job = some t) : t.HasEnded := by
  cases t with
  | submitted w scope =>
    have next : c.step (.begin job) ≠ none := by simp [step, beginJob, thread]
    exact absurd (rests _) next
  | waiting =>
    obtain ⟨id, e, live, -, -⟩ := attended job thread
    by_cases silent : ∀ r, e.phase ≠ .responded r
    · obtain ⟨m, c', -, next, -⟩ :=
        exists_move hc hn stopped live (hc.inside_root live) silent
      exact absurd ((rests m).symm.trans next) (by simp)
    · simp only [not_forall, not_not] at silent
      obtain ⟨r, responded⟩ := silent
      obtain ⟨c', next⟩ := exists_collect live responded
      exact absurd ((rests _).symm.trans next) (by simp)
  | ended o => trivial

end Cluster

end WorkflowEngine
