import WorkflowEngine.Proofs.Budgets
import WorkflowEngine.Proofs.Shutdown
/-!
A job whose workflow terminates comes to its end. It does not move on for ever, and until it has
ended it can move or waits for a moment that comes.
-/
set_option autoImplicit false

namespace WorkflowEngine

open Relation (CutExpand TransGen)

namespace Cluster

/-- An undisturbed job on its way through a workflow, and what it owes. -/
structure Underway (c : Cluster) (s : Surroundings) (w : Workflow) (debt : Multiset Ordinal.{0}) :
    Prop where
  consistent : c.outline.Consistent
  attended : c.outline.Attended
  thread : ∃ t, c.outline.threads.get? s.job = some t
  numbered : ∃ role, c.outline.Numbered (some s.job) role
  budgeted : ∃ source left, c.outline.Sound s w source ∧ c.outline.Budgeted s source left debt

/-- Whether what a job sends arrives as it was, in whatever order the engine goes on by itself. -/
def Carries (c : Cluster) (job : JobId) : Prop :=
  ∀ b ev, Run (fun b ev => b.ByItself job ev) c b → b.ByItself job ev → b.outline.Undisturbed job ev

/-- Whether a run from one state to another one ends with a move of a job itself. -/
def Onward (job : JobId) (a b : Cluster) : Prop :=
  b.nextId < Uuid.supply ∧ ∃ c m, Run (fun c ev => c.outline.Undisturbed job ev) a c ∧
    c.outline.Owns job m ∧ c.outline.Undisturbed job (.move m) ∧ c.step m = some b

variable {a b c c' : Cluster} {s : Surroundings} {w : Workflow} {debt : Multiset Ordinal.{0}}
  {job : JobId}

/-- What happens keeps a job underway. What it does itself leaves it less to do, and everything else
leaves its evaluations as they are. -/
theorem Underway.after {ev : Event} (h : c.Underway s w debt) (calm : s.registry.Calm)
    (ids : c.nextId < Uuid.supply) (may : c.outline.Undisturbed s.job ev)
    (next : c.after ev = some c') :
    ∃ debt', c'.Underway s w debt' ∧
      ((∃ m, ev = .move m ∧ c.outline.Owns s.job m) → CutExpand (· < ·) debt' debt) ∧
      ((∀ m, ev = .move m → ¬ c.outline.Owns s.job m) →
        debt' = debt ∧ c'.outline.Unmoved c.outline s.job) := by
  obtain ⟨role, numbered⟩ := h.numbered
  obtain ⟨source, left, sound, budgeted⟩ := h.budgeted
  have st := step_of_after h.consistent next
  have consistent := h.consistent.step ids st
  obtain ⟨source', sound', keeps, sends⟩ :=
    sound.exists_source calm numbered h.consistent ids may st
  have underway : ∀ {debt'}, (∃ left, c'.outline.Budgeted s source' left debt') →
      c'.Underway s w debt' := fun ⟨left', budgeted'⟩ =>
    { consistent := consistent
      attended := h.attended.step h.consistent ids st
      thread := st.exists_thread h.thread
      numbered := numbered.step st may.spares
      budgeted := ⟨source', left', sound', budgeted'⟩ }
  by_cases own : ∃ m, ev = .move m ∧ c.outline.Owns s.job m
  · obtain ⟨m, rfl, owns⟩ := own
    obtain ⟨left', debt', budgeted', less⟩ := budgeted.move sound numbered h.consistent ids owns
      (byClock_of_after next) keeps sends st
    exact ⟨debt', underway ⟨left', budgeted'⟩, fun _ => less,
      fun foreign => absurd owns (foreign m rfl)⟩
  · have foreign : ∀ m, ev = .move m → ¬ c.outline.Owns s.job m :=
      fun m hm owns => own ⟨m, hm, owns⟩
    obtain ⟨unmoved, same⟩ :=
      st.unmoved h.consistent ids numbered.free_engine sound.known foreign
    have kept := budgeted.unmoved h.consistent.toForked consistent.toForked unmoved same st.free
      keeps
    exact ⟨debt, underway ⟨left, kept⟩, fun owns => absurd owns own, fun _ => ⟨rfl, unmoved⟩⟩

/-- After a run the job has less to do, or its evaluations are as they were. -/
theorem Underway.run (h : a.Underway s w debt) (calm : s.registry.Calm)
    (run : Run (fun b ev => b.outline.Undisturbed s.job ev) a b) (ids : b.nextId < Uuid.supply) :
    (b.Underway s w debt ∧ b.outline.Unmoved a.outline s.job) ∨
      ∃ debt', b.Underway s w debt' ∧ TransGen (CutExpand (· < ·)) debt' debt := by
  induction run with
  | refl => exact .inl ⟨h, fun _ _ _ => Iff.rfl⟩
  | @step b c ev _ may next ih =>
    have ids' := Nat.lt_of_le_of_lt (nextId_after next) ids
    by_cases own : ∃ m, ev = .move m ∧ b.outline.Owns s.job m
    · rcases ih ids' with ⟨hb, -⟩ | ⟨debt', hb, less⟩
      · obtain ⟨debt', hc, less, -⟩ := hb.after calm ids' may next
        exact .inr ⟨debt', hc, .single (less own)⟩
      · obtain ⟨debt'', hc, less', -⟩ := hb.after calm ids' may next
        exact .inr ⟨debt'', hc, .head (less' own) less⟩
    · have foreign : ∀ m, ev = .move m → ¬ b.outline.Owns s.job m :=
        fun m hm owns => own ⟨m, hm, owns⟩
      rcases ih ids' with ⟨hb, same⟩ | ⟨debt', hb, less⟩
      · obtain ⟨debt', hc, -, keeps⟩ := hb.after calm ids' may next
        obtain ⟨rfl, same'⟩ := keeps foreign
        exact .inl ⟨hc, same'.trans same⟩
      · obtain ⟨debt'', hc, -, keeps⟩ := hb.after calm ids' may next
        obtain ⟨rfl, -⟩ := keeps foreign
        exact .inr ⟨debt'', hc, less⟩

theorem Underway.exists_run (h : a.Underway s w debt) (calm : s.registry.Calm)
    (run : Run (fun b ev => b.outline.Undisturbed s.job ev) a b) (ids : b.nextId < Uuid.supply) :
    ∃ debt', b.Underway s w debt' := by
  obtain ⟨hb, -⟩ | ⟨debt', hb, -⟩ := h.run calm run ids
  · exact ⟨debt, hb⟩
  · exact ⟨debt', hb⟩

/-- A job that ends does so with a result that its workflow permits. -/
theorem Underway.outcome (h : c.Underway s w debt) {o : Outcome}
    (ended : c.outcome? s.job = some o) : ∃ r, Permits s w r ∧ o = r.mapError .error := by
  obtain ⟨source, left, sound, -⟩ := h.budgeted
  unfold outcome? at ended
  split at ended
  · next outcome thread =>
    cases ended
    exact sound.ended thread
  · cases ended

theorem wellFounded_debts :
    WellFounded (TransGen (CutExpand (· < · : Ordinal.{0} → Ordinal.{0} → Prop))) :=
  wellFounded_lt.cutExpand.transGen

/-- No job moves on for ever. -/
theorem Underway.acc (h : c.Underway s w debt) (calm : s.registry.Calm) :
    Acc (fun b a => Onward s.job a b) c := by
  induction debt using wellFounded_debts.induction generalizing c with
  | _ debt ih =>
    refine ⟨_, fun b ⟨ids, a, m, run, owns, may, next⟩ => ?_⟩
    have ids' := Nat.lt_of_le_of_lt (nextId_step next) ids
    rcases h.run calm run ids' with ⟨ha, -⟩ | ⟨debt', ha, less⟩
    · obtain ⟨debt', hb, less, -⟩ := ha.after calm ids' may next
      exact ih debt' (.single (less ⟨m, rfl, owns⟩)) hb
    · obtain ⟨debt'', hb, less', -⟩ := ha.after calm ids' may next
      exact ih debt'' (.head (less' ⟨m, rfl, owns⟩) less) hb

/-- If nothing gets a job on, then below each of its evaluations one waits for a moment. -/
theorem Pauses.exists_awaits (rest : c.Pauses job) (hc : c.outline.Consistent)
    (hn : c.nextId < Uuid.supply) {id : EvaluationId} {e : Evaluation}
    (live : c.evaluations.get? id = some e) (own : e.job = job) :
    ∃ limit, c.Awaits job limit := by
  refine hc.descend (P := fun _ e => e.job = job → ∃ limit, c.Awaits job limit)
    (fun {id e} live below own => ?_) live own
  have idle := rest.idles hc hn live own
  generalize hp : e.phase = phase at idle
  cases idle with
  | @pausing micros due next stack later =>
    exact ⟨due, id, due, ⟨e, live, own⟩, ⟨e, _, _, live, hp⟩, later, le_rfl⟩
  | joining placed missing =>
    obtain ⟨waits, -⟩ := rest.fork hc hn live own hp
    obtain ⟨i, child, ce, live', hparent⟩ : ∃ i child, c.outline.Child id i child := by
      simpa only [Outline.Childless, not_forall, not_not] using waits
    obtain ⟨pe, -, -, above, -, same, -⟩ := hc.above live' hparent
    cases above.symm.trans live
    exact below live' hparent (same.symm.trans own)

/-- A job that has not ended goes on or waits for a moment. -/
theorem Underway.goes_on (h : c.Underway s w debt) (ids : c.nextId < Uuid.supply)
    (running : c.outcome? s.job = none) (rest : c.Pauses s.job) :
    ∃ limit, c.Awaits s.job limit := by
  obtain ⟨t, thread⟩ := h.thread
  cases t with
  | submitted v scope => exact absurd thread (rest.begun v scope)
  | waiting =>
    obtain ⟨id, e, live, own, -⟩ := h.attended s.job thread
    exact rest.exists_awaits h.consistent ids live own
  | ended o =>
    have thread' : c.threads.get? s.job = some (.ended o) := thread
    simp [outcome?, thread'] at running

theorem Carries.run (h : c.Carries job) (run : Run (fun b ev => b.ByItself job ev) c b) :
    Run (fun b ev => b.outline.Undisturbed job ev) c b := by
  induction run with
  | refl => exact .refl c
  | step run may next ih => exact ih.step (h _ _ run may) next

theorem Carries.trans (h : c.Carries job) (run : Run (fun b ev => b.ByItself job ev) c b) :
    b.Carries job := fun d ev run' may => h d ev (run.trans run') may

theorem Calms.trans (h : c.Calms job) (run : Run (fun b ev => b.ByItself job ev) c b) :
    b.Calms job := fun d run' ids => h d (run.trans run') ids

/-- An engine that comes to rest does so by itself. -/
theorem Calms.exists_rest (h : c.Calms job) (ids : c.nextId < Uuid.supply) :
    ∃ b, Run (fun b ev => b.ByItself job ev) c b ∧ b.nextId < Uuid.supply ∧ b.Rests := by
  obtain ⟨b, moves, ids', rest⟩ := h c (.refl c) ids
  refine ⟨b, moves.mono fun b ev hm => ?_, ids', rest⟩
  obtain ⟨m, rfl⟩ := hm
  exact ⟨inTime_move b job m, .inl ⟨m, rfl⟩⟩

/-- A job that waits for a moment while the engine rests moves when that moment has come, unless it
has moved before. -/
theorem Underway.exists_move (h : c.Underway s w debt) (calm : s.registry.Calm)
    (ids : c.nextId < Uuid.supply) (rest : c.Rests) (calms : c.Calms s.job)
    (carries : c.Carries s.job) {id : EvaluationId} {due : Nat} (owned : c.outline.Owned s.job id)
    (waits : c.WaitsFor id due) :
    ∃ b debt', Run (fun b ev => b.ByItself s.job ev) c b ∧ b.nextId < Uuid.supply ∧
      b.Underway s w debt' ∧ TransGen (CutExpand (· < ·)) debt' debt := by
  induction hk : due - c.now using Nat.strongRecOn generalizing c with
  | ind k ih =>
    obtain ⟨e, p, stack, live, operating⟩ := waits
    have own := (Outline.owned_of_live live).1 owned
    have later := (rest.pauses s.job).later h.consistent ids live own operating
    have awaits : c.Awaits s.job due :=
      ⟨id, due, owned, ⟨e, p, stack, live, operating⟩, later, le_rfl⟩
    obtain ⟨time, may, soon, -⟩ := rest.exists_elapse h.consistent ids awaits
    have next : c.after (.elapse time) = some (c.elapseTo time) := rfl
    have passes : Run (fun b ev => b.ByItself s.job ev) c (c.elapseTo time) :=
      .single ⟨may, .inr ⟨time, rfl⟩⟩ next
    have same : (c.elapseTo time).nextId = c.nextId :=
      congrArg Outline.nextId (outline_elapseTo c time)
    obtain ⟨b, run, ids', rest'⟩ := (calms.trans passes).exists_rest (same ▸ ids)
    have whole := passes.trans run
    rcases h.run calm (carries.run whole) ids' with ⟨hb, unmoved⟩ | ⟨debt', hb, less⟩
    · have live' : b.evaluations.get? id = some e := (unmoved id e own).2 live
      have before := run.now_le
      have now := now_elapseTo c time
      obtain ⟨d, debt', run', result⟩ := ih (due - b.now) (by omega) hb ids' rest'
        (calms.trans whole) (carries.trans whole) ⟨e, live', own⟩
        ⟨e, p, stack, live', operating⟩ rfl
      exact ⟨d, debt', whole.trans run', result⟩
    · exact ⟨b, debt', whole, ids', hb, less⟩

/-- A job comes to its end if the engine always comes to rest. -/
theorem Underway.exists_end (h : c.Underway s w debt) (calm : s.registry.Calm)
    (ids : c.nextId < Uuid.supply) (calms : c.Calms s.job) (carries : c.Carries s.job) :
    ∃ c' debt' o, Run (fun b ev => b.ByItself s.job ev) c c' ∧ c'.Underway s w debt' ∧
      c'.outcome? s.job = some o := by
  induction debt using wellFounded_debts.induction generalizing c with
  | _ debt ih =>
    obtain ⟨b, run, ids', rest⟩ := calms.exists_rest ids
    rcases h.run calm (carries.run run) ids' with ⟨hb, -⟩ | ⟨debt', hb, less⟩
    · cases ended : b.outcome? s.job with
      | some o => exact ⟨b, debt, o, run, hb, ended⟩
      | none =>
        obtain ⟨limit, id, due, owned, waits, -⟩ := hb.goes_on ids' ended (rest.pauses s.job)
        obtain ⟨d, debt', run', ids'', hd, less⟩ :=
          hb.exists_move calm ids' rest (calms.trans run) (carries.trans run) owned waits
        obtain ⟨c', debt'', o, run'', result⟩ := ih debt' less hd ids''
          (calms.trans (run.trans run')) (carries.trans (run.trans run'))
        exact ⟨c', debt'', o, (run.trans run').trans run'', result⟩
    · obtain ⟨c', debt'', o, run', result⟩ :=
        ih debt' less hb ids' (calms.trans run) (carries.trans run)
      exact ⟨c', debt'', o, run.trans run', result⟩

/-- A job is underway when it is submitted. -/
theorem underway_submit {registry : Registry} {config : EngineConfig} {backend : Backend}
    {sink : LogSink} {c₀ : Cluster} (before : Reaches (start registry config backend sink) c₀)
    (ids : c₀.nextId < Uuid.supply) (serving : c₀.scopes.isCancelled .root = false) {name : String}
    {w : Workflow} (terminates : w.Terminates (c₀.surroundingsOf (c₀.submit name w).1)) :
    ∃ debt, (c₀.submit name w).2.Underway (c₀.surroundingsOf (c₀.submit name w).1) w debt := by
  have hstart := consistent_start registry config backend sink
  have consistent := before.consistent hstart ids
  have st := outline_submit c₀ name w
  have absent : ∀ {id e}, (c₀.submit name w).2.outline.evaluations.get? id = some e →
      e.job ≠ (c₀.submit name w).1 := absent_submit consistent ids name w
  have thread := thread_submit c₀ name w
  obtain ⟨n, costs⟩ := terminates.ends.exists_costs
  exact ⟨{n + 1},
    { consistent := consistent.step ids st
      attended := (attended_of_reaches before ids).step consistent ids st
      thread := ⟨_, thread⟩
      numbered := numbered_submit before ids serving name w
      budgeted := ⟨_, fun _ => 0, sound_submit consistent ids name w,
        fun live own => absurd own (absent live), fun live own => absurd own (absent live),
        .submitted thread costs (lt_add_one n)⟩ }⟩

/-- What is known of a job in a state. It ends only as it should and does not move on for ever.
Until it has ended it can move or waits for a moment. It does end if the engine always comes to rest
and what the job sends arrives. -/
structure Completes (c : Cluster) (job : JobId) (good : Outcome → Prop) : Prop where
  outcome : ∀ {o}, c.outcome? job = some o → good o
  acc : Acc (fun b a => Onward job a b) c
  goes_on : c.outcome? job = none → c.Pauses job → ∃ limit, c.Awaits job limit
  exists_end : c.Calms job → c.Carries job →
    ∃ c' o, Run (fun b ev => b.ByItself job ev) c c' ∧ c'.outcome? job = some o ∧ good o

/-- A job that nobody disturbs completes with a result that its workflow permits, if the workflow
terminates. -/
theorem completes_of_terminates {registry : Registry} {config : EngineConfig} {backend : Backend}
    {sink : LogSink} (calm : registry.Calm) {c₀ c : Cluster}
    (before : Reaches (start registry config backend sink) c₀)
    (serving : c₀.scopes.isCancelled .root = false) {name : String} {w : Workflow}
    (terminates : w.Terminates (c₀.surroundingsOf (c₀.submit name w).1))
    (run : Run (fun b ev => b.outline.Undisturbed (c₀.submit name w).1 ev) (c₀.submit name w).2 c)
    (ids : c.nextId < Uuid.supply) {good : Outcome → Prop}
    (hgood : ∀ r, Permits (c₀.surroundingsOf (c₀.submit name w).1) w r → good (r.mapError .error)) :
    c.Completes (c₀.submit name w).1 good := by
  have ids₀ := run.ids_submit ids
  have calm₀ : c₀.registry.Calm := by
    rw [before.registry (consistent_start registry config backend sink) ids₀]
    exact calm
  obtain ⟨debt₁, begun⟩ := underway_submit before ids₀ serving terminates
  obtain ⟨debt, here⟩ := begun.exists_run calm₀ run ids
  have ends : ∀ {c' : Cluster} {debt' o},
      c'.Underway (c₀.surroundingsOf (c₀.submit name w).1) w debt' →
        c'.outcome? (c₀.submit name w).1 = some o → good o := by
    intro c' debt' o there ended
    obtain ⟨r, permits, rfl⟩ := there.outcome ended
    exact hgood r permits
  refine ⟨ends here, here.acc calm₀, here.goes_on ids, fun calms carries => ?_⟩
  obtain ⟨c', debt', o, run', there, ended⟩ := here.exists_end calm₀ ids calms carries
  exact ⟨c', o, run', ended, ends there ended⟩

end Cluster

end WorkflowEngine
