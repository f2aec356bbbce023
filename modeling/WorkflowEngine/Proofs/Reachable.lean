import WorkflowEngine.Proofs.Forks
import WorkflowEngine.Proofs.Mail
import WorkflowEngine.Proofs.Threads
/-!
Every state of an engine that has been started is consistent, as long as identifiers last.
-/
set_option autoImplicit false

namespace WorkflowEngine

namespace Outline

variable {o o' : Outline}

/-- A step gives at most one identifier. -/
theorem Step.gives {ev : Event} (s : o.Step ev o') :
    o.nextId ≤ o'.nextId ∧ o'.nextId ≤ o.nextId + 1 := by
  cases s with
  | begin thread sent =>
    obtain ⟨-, -, -, -, hnext⟩ := sent.unchanged
    simp [hnext]
  | place live joining waiting sent =>
    obtain ⟨-, -, -, -, hnext⟩ := sent.unchanged
    simp [hnext]
  | shift steps live turn leads later => exact later
  | submit now => exact ⟨Nat.le_succ _, Nat.le_refl _⟩
  | _ => exact ⟨Nat.le_refl _, Nat.le_succ _⟩

theorem Step.nextId_le {ev : Event} (s : o.Step ev o') : o.nextId ≤ o'.nextId := s.gives.1

theorem Step.nextId_le_succ {ev : Event} (s : o.Step ev o') : o'.nextId ≤ o.nextId + 1 :=
  s.gives.2

theorem Consistent.step {ev : Event} (h : o.Consistent) (hn : o.nextId < Uuid.supply)
    (s : o.Step ev o') : o'.Consistent := by
  have fresh : o.evaluations.get? ⟨o.newId⟩ = none := by
    cases hget : o.evaluations.get? ⟨o.newId⟩ with
    | none => rfl
    | some e => exact absurd rfl ((h.evaluation_known hget).ne_newId hn)
  exact ⟨h.toMailed.step fresh s, h.toThreaded.step h.toForked hn s,
    h.toForked.step h.toMailed hn s⟩

end Outline

namespace Cluster

variable {c c' : Cluster}

theorem nextId_wake (c : Cluster) (t : Thread) : (c.wake t).nextId = c.nextId :=
  congrArg Outline.nextId (outline_wake c t)

theorem nextId_respond (c : Cluster) (id : EvaluationId) (e : Evaluation) (r : Response) :
    (c.respond id e r).nextId = c.nextId :=
  congrArg Outline.nextId (outline_respond c id e r)

theorem nextId_dispatch (c : Cluster) (job : JobId) (parent : Option Parent) (scope : Scope)
    (w : Workflow) : (c.dispatch job parent scope w).nextId = c.nextId + 1 := by
  unfold dispatch
  simp only [freshId]
  split
  · rw [nextId_respond]
  · unfold send
    split
    · split
      · rw [nextId_wake]
        rfl
      · rw [nextId_respond]
    · rw [nextId_respond]

theorem nextId_take {id : EvaluationId} {e : Evaluation} {t : Turn}
    (h : c.take id e t = some c') : c.nextId ≤ c'.nextId := by
  cases t with
  | step m =>
    cases h
    unfold runMachine
    split
    · exact Nat.le_refl _
    · exact Nat.le_of_eq (nextId_respond _ _ _ _).symm
    · exact Nat.le_of_eq (nextId_respond _ _ _ _).symm
    · unfold fork
      split <;> exact Nat.le_refl _
    · split <;> exact Nat.le_refl _
  | ask r next due stack =>
    simp only [take, request] at h
    split at h
    · split at h
      · cases h
        exact Nat.le_refl _
      · split at h <;> cases h
        exact Nat.le_refl _
    · obtain ⟨n, hn, hserve⟩ := outline_serve c e r
      change some ((c.serve e r).2.setPhase id e (.operating (next (c.serve e r).1) none stack)) =
        some c' at h
      rw [← Option.some.inj h]
      have hid : (c.serve e r).2.nextId = n := congrArg Outline.nextId hserve
      exact hn.1.trans (Nat.le_of_eq hid.symm)
  | place w rest f stack =>
    cases h
    unfold placeChild
    rw [nextId_dispatch]
    exact Nat.le_succ _
  | resume stack o =>
    cases h
    exact Nat.le_refl _
  | start w =>
    cases h
    exact Nat.le_refl _
  | reply o =>
    cases h
    exact Nat.le_of_eq (nextId_respond _ _ _ _).symm

theorem nextId_arrive (c : Cluster) (parent : Parent) (o : Outcome) :
    (c.arrive parent o).nextId = c.nextId := by
  simp only [arrive]
  split
  · split
    · split
      · exact congrArg Outline.nextId (outline_cancelScope _ _)
      · rfl
    · rfl
  · rfl

theorem nextId_endJob (c : Cluster) (job : JobId) (o : Outcome) :
    (c.endJob job o).nextId = c.nextId := by
  simp only [endJob]
  split <;> rfl

theorem nextId_collect {id : EvaluationId} (h : c.collect id = some c') :
    c'.nextId = c.nextId := by
  obtain ⟨e, r, o, dispatcher, -, -, -, ⟨parent, -, rfl⟩ | ⟨-, rfl⟩⟩ := collect_cases h
  · rw [nextId_arrive]
  · rw [nextId_endJob]

theorem nextId_step {m : Move} (h : c.step m = some c') : c.nextId ≤ c'.nextId := by
  cases m with
  | begin job =>
    obtain ⟨w, scope, -, rfl⟩ := begin_cases h
    rw [nextId_dispatch]
    exact Nat.le_succ _
  | receive i =>
    obtain ⟨worker, d, rest, -, -, -, ⟨e, -, rfl⟩ | ⟨-, rfl⟩⟩ := receive_cases h
    · rw [nextId_wake]
      exact Nat.le_refl _
    · exact Nat.le_refl _
  | close i => exact (step_of_close h).nextId_le
  | advance id =>
    obtain ⟨e, t, -, -, h⟩ := advance_cases h
    exact nextId_take h
  | collect id => exact Nat.le_of_eq (nextId_collect h).symm

theorem nextId_after {ev : Event} (h : c.after ev = some c') : c.nextId ≤ c'.nextId := by
  cases ev with
  | submit name w =>
    cases h
    exact (outline_submit c name w).nextId_le
  | cancel job => exact (step_of_cancel h).nextId_le
  | forget job => exact (step_of_forget h).nextId_le
  | shutdown =>
    cases h
    exact Nat.le_of_eq (congrArg Outline.nextId (outline_shutdown c)).symm
  | elapse time =>
    cases h
    exact Nat.le_of_eq (congrArg Outline.nextId (outline_elapseTo c time)).symm
  | arrange ready =>
    cases h
    exact Nat.le_refl _
  | move m => exact nextId_step h

theorem post_start {registry : Registry} {config : EngineConfig} {backend : Backend}
    {sink : LogSink} {i : Nat} {post : Post}
    (h : (start registry config backend sink).outline.posts[i]? = some post) :
    post = ⟨true, []⟩ := by
  have hm := List.mem_of_getElem? h
  simp only [outline, start, List.map_map, List.mem_map] at hm
  obtain ⟨n, -, rfl⟩ := hm
  rfl

theorem consistent_start (registry : Registry) (config : EngineConfig) (backend : Backend)
    (sink : LogSink) : (start registry config backend sink).outline.Consistent where
  staffed := by simp [outline, start, Dispatcher.ofWorkers, Pool.ofWorkers, Pool.size]
  posted := by simp [outline, start, Dispatcher.ofWorkers, Pool.ofWorkers, Pool.size]
  placed := by
    rintro id e ⟨⟩
  queued := by
    intro i post id at_slot
    cases post_start at_slot
    constructor
    · rintro ⟨e, p, ⟨⟩, -⟩
    · rintro ⟨⟩
  inbox_distinct := by
    intro i post at_slot
    cases post_start at_slot
    exact List.nodup_nil
  stopped := by
    intro i post at_slot hl
    cases post_start at_slot
    cases hl
  thread_known := by
    rintro job t ⟨⟩
  thread_of_job := by
    rintro job entry ⟨⟩
  job_of_thread := by
    rintro job t ⟨⟩
  submitted_scope := by
    rintro job w s ⟨⟩
  thread_of_evaluation := by
    rintro id e ⟨⟩
  root_unique := by
    rintro id₁ e₁ id₂ e₂ ⟨⟩
  root_scope := by
    rintro id e ⟨⟩
  evaluation_known := by
    rintro id e ⟨⟩
  above := by
    rintro id e parent ⟨⟩
  sibling_unique := by
    rintro id i c₁ c₂ ⟨e, ⟨⟩, -⟩
  fork_scope := by
    rintro id e f stack ⟨⟩
  missing := by
    rintro id e f stack ⟨⟩

namespace Run

variable {P : Cluster → Event → Prop} {a b : Cluster}

theorem nextId_le (run : Run P a b) : a.nextId ≤ b.nextId := by
  induction run with
  | refl => exact Nat.le_refl _
  | step _ _ next ih => exact ih.trans (nextId_after next)

theorem consistent (run : Run P a b) (h : a.outline.Consistent) (hn : b.nextId < Uuid.supply) :
    b.outline.Consistent := by
  induction run with
  | refl => exact h
  | step _ _ next ih =>
    have hn' := Nat.lt_of_le_of_lt (nextId_after next) hn
    exact (ih hn').step hn' (step_of_after (ih hn') next)

/-- What every step of a consistent engine preserves holds after a run. -/
theorem invariant {I : Cluster → Prop} (run : Run P a b) (h : a.outline.Consistent)
    (hn : b.nextId < Uuid.supply) (initial : I a)
    (preserved : ∀ {c ev c'}, c.outline.Consistent → c.nextId < Uuid.supply → P c ev →
      c.outline.Step ev c'.outline → I c → I c') : I b := by
  induction run with
  | refl => exact initial
  | step run may next ih =>
    have hn' := Nat.lt_of_le_of_lt (nextId_after next) hn
    have hc := run.consistent h hn'
    exact preserved hc hn' may (step_of_after hc next) (ih hn')

end Run

end Cluster

end WorkflowEngine
