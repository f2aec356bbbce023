import WorkflowEngine.Proofs.Run
import Mathlib.Logic.Function.Basic
/-!
The end of a job, step by step. When the root evaluation has responded, its record is ended, then
the entry of the job tells the outcome, then the one who joins the job. An engine does all that in
one move; here anything else may happen in between.
-/
set_option autoImplicit false

namespace WorkflowEngine

namespace Cluster

/-- Takes the response of a root evaluation, frees its worker and ends its record. -/
def settleRoot (c : Cluster) (id : EvaluationId) : Option (JobId × Outcome × Cluster) := do
  let e ← c.evaluations.get? id
  match e.phase, e.parent with
  | .responded r, none =>
    let (o, dispatcher) := match e.placement with
      | some p => c.dispatcher.settle id p r c.time
      | none => (r.outcome, c.dispatcher)
    let evaluations := c.evaluations.erase id
    some (e.job, o, { c with dispatcher, evaluations, arrived := c.arrived.filter (·.2 ≠ id) })
  | _, _ => none

/-- Enters an outcome for a job, unless the job is not known any more. -/
def enterJob (c : Cluster) (job : JobId) (o : Outcome) : Cluster :=
  match c.jobs.get? job with
  | some entry => { c with jobs := c.jobs.insert job (endedEntry entry o c.time) }
  | none => c

/-- Tells the outcome to the one who joins a job. -/
def tellJob (c : Cluster) (job : JobId) (o : Outcome) : Cluster :=
  { c with threads := c.threads.insert job (.ended o) }

theorem endJob_eq (c : Cluster) (job : JobId) (o : Outcome) :
    c.endJob job o = (c.enterJob job o).tellJob job o := by
  simp only [endJob, enterJob]
  cases c.jobs.get? job <;> rfl

/-- Whether an event takes the response of a root evaluation. -/
def EndsJob (c : Cluster) (ev : Event) : Prop :=
  ∃ id e, ev = .move (.collect id) ∧ c.evaluations.get? id = some e ∧ e.parent = none

/-- To collect a root evaluation is to take the three steps at once. -/
theorem collect_eq_of_root {c : Cluster} {id : EvaluationId} {e : Evaluation}
    (live : c.evaluations.get? id = some e) (root : e.parent = none) :
    c.collect id = (c.settleRoot id).map fun (job, o, c) => (c.enterJob job o).tellJob job o := by
  simp only [collect, settleRoot, live, Option.bind_eq_bind, Option.bind_some, root]
  cases e.phase with
  | responded r => exact congrArg some (endJob_eq _ _ _)
  | _ => rfl

end Cluster

/-- How far the end of a job has come that is not told yet. -/
inductive Ending where
  | settled (o : Outcome)
  | entered (o : Outcome)

def Ending.outcome : Ending → Outcome
  | .settled o | .entered o => o

/-- An engine with the jobs that are about to end. -/
structure Gradual where
  cluster : Cluster
  endings : JobId → Option Ending

namespace Gradual

/-- What happens to an engine, or one of the three steps at the end of a job. -/
inductive Act where
  | event (ev : Event)
  | settle (id : EvaluationId)
  | enter (job : JobId)
  | tell (job : JobId)

/-- One state follows another by an act. A root evaluation is collected only in three steps. -/
inductive Step (d : Gradual) : Act → Gradual → Prop
  | event {ev : Event} {c : Cluster} (open_ended : ¬ d.cluster.EndsJob ev)
      (next : d.cluster.after ev = some c) : Step d (.event ev) { d with cluster := c }
  | settle {id : EvaluationId} {job : JobId} {o : Outcome} {c : Cluster}
      (taken : d.cluster.settleRoot id = some (job, o, c)) :
      Step d (.settle id) ⟨c, Function.update d.endings job (some (.settled o))⟩
  | enter {job : JobId} {o : Outcome} (ending : d.endings job = some (.settled o)) :
      Step d (.enter job)
        ⟨d.cluster.enterJob job o, Function.update d.endings job (some (.entered o))⟩
  | tell {job : JobId} {o : Outcome} (ending : d.endings job = some (.entered o)) :
      Step d (.tell job) ⟨d.cluster.tellJob job o, Function.update d.endings job none⟩

inductive Reaches : Gradual → Gradual → Prop
  | refl (d : Gradual) : Reaches d d
  | step {a b d : Gradual} {act : Act} (run : Reaches a b) (next : b.Step act d) : Reaches a d

/-- An engine of which no job is about to end. -/
def ofCluster (c : Cluster) : Gradual := ⟨c, fun _ => none⟩

/-- The outcome of a job, be it told already or not. -/
def known (d : Gradual) (job : JobId) : Option Outcome :=
  match d.endings job with
  | some ending => some ending.outcome
  | none => d.cluster.outcome? job

theorem Reaches.trans {a b d : Gradual} (first : Reaches a b) (last : Reaches b d) :
    Reaches a d := by
  induction last with
  | refl => exact first
  | step _ next ih => exact .step ih next

theorem reaches_of_run {c c' : Cluster} (endings : JobId → Option Ending)
    (run : Cluster.Run (fun b ev => ¬ b.EndsJob ev) c c') : Reaches ⟨c, endings⟩ ⟨c', endings⟩ := by
  induction run with
  | refl => exact .refl _
  | @step b c ev _ open_ended next ih => exact ih.step (.event (d := ⟨b, endings⟩) open_ended next)

/-- Between the record of a root evaluation and the entry of its job anything else may happen. -/
theorem reaches_of_settled {c a b : Cluster} {id : EvaluationId} {job : JobId} {o : Outcome}
    (taken : c.settleRoot id = some (job, o, a))
    (between : Cluster.Run (fun c ev => ¬ c.EndsJob ev) a b) :
    Reaches (ofCluster c) (ofCluster ((b.enterJob job o).tellJob job o)) := by
  have settled : Reaches (ofCluster c) _ := .step (.refl _) (.settle (d := ofCluster c) taken)
  have later := settled.trans (reaches_of_run _ between)
  have entered := later.step (.enter (Function.update_self job _ _))
  have told := entered.step (.tell (Function.update_self job _ _))
  simpa [ofCluster] using told

/-- Whatever an engine does it can do step by step. -/
theorem reaches_of_reaches {a b : Cluster} (run : Cluster.Reaches a b) :
    Reaches (ofCluster a) (ofCluster b) := by
  induction run with
  | refl => exact .refl _
  | @step b c ev _ _ next ih =>
    by_cases hends : b.EndsJob ev
    · obtain ⟨id, e, rfl, live, root⟩ := hends
      have hcollect : b.collect id = some c := next
      rw [Cluster.collect_eq_of_root live root] at hcollect
      obtain ⟨⟨job, o, c'⟩, taken, rfl⟩ := Option.map_eq_some_iff.1 hcollect
      exact ih.trans (reaches_of_settled taken (.refl c'))
    · exact ih.step (.event (d := ofCluster b) hends next)

end Gradual

end WorkflowEngine
