import WorkflowEngine.Proofs.JobEnds
import Mathlib.Data.Finset.Basic
/-!
To forget a job, step by step. First its entry is dropped, then the records of its evaluations. An
engine does both in one move; here anything else may happen in between, and jobs end step by step.
-/
set_option autoImplicit false

namespace WorkflowEngine

namespace Cluster

/-- Drops the entry of a job that has ended. -/
def dropEntry (c : Cluster) (job : JobId) : Except EngineError Cluster :=
  match c.jobs.get? job with
  | none => .error (.jobNotFound job)
  | some entry =>
    if entry.job.status.isTerminal then .ok { c with jobs := c.jobs.erase job }
    else .error (.jobRunning job)

/-- Drops the records of the evaluations of a job. -/
def dropRecords (c : Cluster) (job : JobId) : Cluster :=
  { c with dispatcher := { c.dispatcher with ledger := (c.dispatcher.ledger.prune job).2 } }

/-- Whether neither the entry of a job is there nor a record of any of its evaluations. -/
def Clear (c : Cluster) (job : JobId) : Prop :=
  c.job? job = none ∧ c.evaluationsOf job = []

/-- Whether all that is recorded of a job is the same in two states. -/
def Agrees (c c' : Cluster) (job : JobId) : Prop :=
  c'.jobs.get? job = c.jobs.get? job ∧ c'.evaluationsOf job = c.evaluationsOf job

variable {c c' : Cluster} {job : JobId}

/-- To forget a job is to take the two steps at once. -/
theorem forget_eq (c : Cluster) (job : JobId) :
    c.forget job = (c.dropEntry job).map fun c => c.dropRecords job := by
  unfold forget dropEntry
  cases c.jobs.get? job with
  | none => rfl
  | some entry =>
    dsimp only
    split <;> rfl

theorem dropEntry_eq_ok :
    c.dropEntry job = .ok c' ↔ ∃ entry, c.jobs.get? job = some entry ∧
      entry.job.status.isTerminal = true ∧ c' = { c with jobs := c.jobs.erase job } := by
  constructor
  · intro taken
    unfold dropEntry at taken
    split at taken
    · cases taken
    · next entry known =>
      split at taken <;> cases taken
      exact ⟨entry, known, ‹_›, rfl⟩
  · rintro ⟨entry, known, ended, rfl⟩
    simp only [dropEntry, known, ended, if_true]

theorem dropEntry_eq_error {err : EngineError} :
    c.dropEntry job = .error err ↔
      (c.jobs.get? job = none ∧ err = .jobNotFound job) ∨
        ∃ entry, c.jobs.get? job = some entry ∧ entry.job.status.isTerminal = false ∧
          err = .jobRunning job := by
  constructor
  · intro refused
    unfold dropEntry at refused
    split at refused
    · next unknown =>
      cases refused
      exact .inl ⟨unknown, rfl⟩
    · next entry known =>
      split at refused <;> cases refused
      exact .inr ⟨entry, known, eq_false_of_ne_true ‹_›, rfl⟩
  · rintro (⟨unknown, rfl⟩ | ⟨entry, known, running, rfl⟩)
    · simp only [dropEntry, unknown]
    · simp only [dropEntry, known, running, Bool.false_eq_true, if_false]

theorem forget_eq_ok :
    c.forget job = .ok c' ↔ ∃ b, c.dropEntry job = .ok b ∧ c' = b.dropRecords job := by
  rw [forget_eq]
  constructor
  · intro h
    cases hb : c.dropEntry job <;> rw [hb] at h <;> cases h
    exact ⟨_, rfl, rfl⟩
  · rintro ⟨b, hb, rfl⟩
    rw [hb]
    rfl

theorem evaluationsOf_eq_nil :
    c.evaluationsOf job = [] ↔ ∀ r ∈ c.dispatcher.ledger.records, r.job ≠ job := by
  simp [evaluationsOf, Ledger.ofJob]

theorem agrees_dropEntry (taken : c.dropEntry job = .ok c') {other : JobId} (hne : other ≠ job) :
    c.Agrees c' other := by
  obtain ⟨entry, -, -, rfl⟩ := dropEntry_eq_ok.1 taken
  exact ⟨(Table.get?_erase _ _ _).trans (if_neg hne.symm), rfl⟩

theorem Agrees.trans {a b : Cluster} (first : a.Agrees b job) (last : b.Agrees c job) :
    a.Agrees c job :=
  ⟨last.1.trans first.1, last.2.trans first.2⟩

end Cluster

/-- An engine whose jobs end step by step, with the jobs that are half forgotten: the entry of each
is dropped, the records of its evaluations are not yet. -/
structure Forgetting where
  gradual : Gradual
  half : Finset JobId

namespace Forgetting

def cluster (d : Forgetting) : Cluster := d.gradual.cluster

/-- What happens to an engine and to the jobs that end, or a step of one who forgets a job. -/
inductive Act where
  | gradual (act : Gradual.Act)
  | dropEntry (job : JobId)
  | dropRecords (job : JobId)

/-- One state follows another by an act. A job is forgotten only in two steps. -/
inductive Step (d : Forgetting) : Act → Forgetting → Prop
  | gradual {act : Gradual.Act} {g : Gradual} (other : ∀ job, act ≠ .event (.forget job))
      (next : d.gradual.Step act g) : Step d (.gradual act) ⟨g, d.half⟩
  | dropEntry {job : JobId} {c : Cluster} (taken : d.cluster.dropEntry job = .ok c) :
      Step d (.dropEntry job) ⟨⟨c, d.gradual.endings⟩, insert job d.half⟩
  | dropRecords {job : JobId} (left : job ∈ d.half) :
      Step d (.dropRecords job)
        ⟨⟨d.cluster.dropRecords job, d.gradual.endings⟩, d.half.erase job⟩

/-- One state follows another by acts that are permitted. -/
inductive Run (P : Act → Prop) : Forgetting → Forgetting → Prop
  | refl (d : Forgetting) : Run P d d
  | step {a b d : Forgetting} {act : Act} (run : Run P a b) (may : P act) (next : b.Step act d) :
      Run P a d

abbrev Reaches : Forgetting → Forgetting → Prop := Run fun _ => True

namespace Run

variable {P : Act → Prop} {a b d : Forgetting}

theorem trans (first : Run P a b) (last : Run P b d) : Run P a d := by
  induction last with
  | refl => exact first
  | step _ may next ih => exact .step ih may next

theorem reaches (run : Run P a b) : Reaches a b := by
  induction run with
  | refl => exact .refl _
  | step _ _ next ih => exact .step ih trivial next

end Run

/-- An engine with jobs that end, none of which is half forgotten. -/
def ofGradual (g : Gradual) : Forgetting := ⟨g, ∅⟩

def ofCluster (c : Cluster) : Forgetting := ofGradual (.ofCluster c)

/-- Someone forgets a job while others act: they come back when both steps are taken, or at once
when the first one is refused. -/
inductive Forgets (P : Act → Prop) (a : Forgetting) (job : JobId) :
    Except EngineError Unit → Forgetting → Prop
  | done {b c d : Forgetting} (entry : a.Step (.dropEntry job) b) (meanwhile : Run P b c)
      (records : c.Step (.dropRecords job) d) : Forgets P a job (.ok ()) d
  | refused {err : EngineError} (refused : a.cluster.dropEntry job = .error err) :
      Forgets P a job (.error err) a

/-- An engine forgets a job with nothing in between. -/
theorem forgets_of_forget (P : Act → Prop) {g : Gradual} {job : JobId} {c : Cluster}
    (h : g.cluster.forget job = .ok c) :
    (ofGradual g).Forgets P job (.ok ()) (ofGradual ⟨c, g.endings⟩) := by
  obtain ⟨b, taken, rfl⟩ := Cluster.forget_eq_ok.1 h
  have entry : (ofGradual g).Step (.dropEntry job) _ := .dropEntry taken
  have forgets := Forgets.done entry (.refl (P := P) _)
    (.dropRecords (Finset.mem_insert_self job ∅))
  simpa [ofGradual, cluster] using forgets

theorem Forgets.reaches {P : Act → Prop} {a d : Forgetting} {job : JobId}
    {result : Except EngineError Unit} (forgets : a.Forgets P job result d) : Reaches a d := by
  cases forgets with
  | done entry meanwhile records =>
    have first : Reaches a _ := .step (.refl a) trivial entry
    exact (first.trans meanwhile.reaches).step trivial records
  | refused => exact .refl a

/-- Whatever an engine does whose jobs end step by step, it can do while jobs are forgotten step by
step. -/
theorem reaches_of_gradual {a b : Gradual} (run : Gradual.Reaches a b) :
    Reaches (ofGradual a) (ofGradual b) := by
  induction run with
  | refl => exact .refl _
  | @step b g act _ next ih =>
    by_cases hact : ∃ job, act = .event (.forget job)
    · obtain ⟨job, rfl⟩ := hact
      cases next with
      | event open_ended after =>
        simp only [Cluster.after] at after
        cases hforget : b.cluster.forget job <;> rw [hforget] at after <;> cases after
        exact ih.trans (forgets_of_forget (fun _ => True) hforget).reaches
    · exact ih.step trivial (.gradual (d := ofGradual b) (fun job h => hact ⟨job, h⟩) next)

theorem reaches_of_reaches {a b : Cluster} (run : Cluster.Reaches a b) :
    Reaches (ofCluster a) (ofCluster b) :=
  reaches_of_gradual (Gradual.reaches_of_reaches run)

/-- Someone runs a workflow while others act: they submit it as a job, are told the outcome of the
job, and forget it. -/
inductive Runs (P : Act → Prop) (a : Forgetting) (name : String) (w : Workflow) :
    JobId → Outcome → Except EngineError Unit → Forgetting → Prop
  | run {b c d e : Forgetting} {o : Outcome} {result : Except EngineError Unit}
      (submitted : a.Step (.gradual (.event (.submit name w))) b) (meanwhile : Run P b c)
      (told : c.cluster.outcome? (a.cluster.submit name w).1 = some o) (later : Run P c d)
      (forgets : d.Forgets P (a.cluster.submit name w).1 result e) :
      Runs P a name w (a.cluster.submit name w).1 o result e

/-- Whether nothing is recorded of a job, now or ever after. -/
def Dropped (d : Forgetting) (job : JobId) : Prop :=
  ∀ d', Reaches d d' → d'.cluster.nextId < Uuid.supply → d'.cluster.Clear job

end Forgetting

end WorkflowEngine
