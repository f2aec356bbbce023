import WorkflowEngine.Proofs.Reachable
import Mathlib.Data.List.Nodup
/-!
The records of evaluations. Those of a job form a tree in which only running records are above
running ones, and a record ends when the outcome of its evaluation is collected.
-/
set_option autoImplicit false

namespace WorkflowEngine

/-- Whether the thread of a job has placed the root evaluation. -/
def JobThread.HasBegun : JobThread → Prop
  | .submitted _ _ => False
  | _ => True

namespace EvaluationRecord

@[simp] theorem id_finish (r : EvaluationRecord) (status : Status) (now : Timestamp) :
    (r.finish status now).2.id = r.id := by
  unfold finish
  split <;> rfl

@[simp] theorem job_finish (r : EvaluationRecord) (status : Status) (now : Timestamp) :
    (r.finish status now).2.job = r.job := by
  unfold finish
  split <;> rfl

@[simp] theorem parent_finish (r : EvaluationRecord) (status : Status) (now : Timestamp) :
    (r.finish status now).2.parent = r.parent := by
  unfold finish
  split <;> rfl

end EvaluationRecord

namespace Ledger

/-- Whether parents lead from a record up to one without a parent, all inside one job. -/
inductive Rooted (l : Ledger) : EvaluationRecord → Prop
  | root {r : EvaluationRecord} (top : r.parent = none) : Rooted l r
  | child {r q : EvaluationRecord} (above : r.parent = some q.id) (held : q ∈ l.records)
      (same : q.job = r.job) (rooted : Rooted l q) : Rooted l r

/-- Whether a record is a descendant of another one. -/
inductive Below (l : Ledger) : EvaluationRecord → EvaluationRecord → Prop
  | child {r q : EvaluationRecord} (above : r.parent = some q.id) (held : q ∈ l.records) :
      Below l r q
  | further {r q top : EvaluationRecord} (above : r.parent = some q.id) (held : q ∈ l.records)
      (below : Below l q top) : Below l r top

/-- The records of each job form a tree. -/
structure Forest (l : Ledger) : Prop where
  distinct : (l.records.map EvaluationRecord.id).Nodup
  rooted : ∀ r ∈ l.records, l.Rooted r
  one_root : ∀ r ∈ l.records, ∀ q ∈ l.records, r.parent = none → q.parent = none →
    r.job = q.job → r = q

variable {l l' : Ledger}

theorem Forest.eq_of_id (h : l.Forest) {r q : EvaluationRecord} (hr : r ∈ l.records)
    (hq : q ∈ l.records) (hid : r.id = q.id) : r = q :=
  List.inj_on_of_nodup_map h.distinct hr hq hid

theorem Forest.parent (h : l.Forest) {r : EvaluationRecord} {p : EvaluationId}
    (hr : r ∈ l.records) (hp : r.parent = some p) : ∃ q ∈ l.records, q.id = p ∧ q.job = r.job := by
  cases h.rooted r hr with
  | root top => cases top.symm.trans hp
  | @child _ q above held same =>
    cases above.symm.trans hp
    exact ⟨q, held, rfl, same⟩

theorem Rooted.mono (hl : ∀ r ∈ l.records, r ∈ l'.records) {r : EvaluationRecord}
    (h : l.Rooted r) : l'.Rooted r := by
  induction h with
  | root top => exact .root top
  | child above held same _ ih => exact .child above (hl _ held) same ih

theorem mem_add {r new : EvaluationRecord} : r ∈ (l.add new).records ↔ r ∈ l.records ∨ r = new := by
  simp [add]

/-- A new record goes below one of its job, or is the root of a job without one. -/
theorem Forest.add (h : l.Forest) {new : EvaluationRecord}
    (fresh : ∀ r ∈ l.records, r.id ≠ new.id)
    (child : ∀ p, new.parent = some p → ∃ q ∈ l.records, q.id = p ∧ q.job = new.job)
    (root : new.parent = none → ∀ r ∈ l.records, r.job ≠ new.job) : (l.add new).Forest where
  distinct := by
    rw [Ledger.add, List.map_append, List.nodup_append]
    refine ⟨h.distinct, by simp, ?_⟩
    intro a ha b hb
    obtain ⟨r, hr, rfl⟩ := List.mem_map.1 ha
    simp only [List.map_cons, List.map_nil, List.mem_singleton] at hb
    rw [hb]
    exact fresh r hr
  rooted := by
    have old : ∀ r ∈ l.records, (l.add new).Rooted r := fun r hr =>
      (h.rooted r hr).mono fun q hq => mem_add.2 (.inl hq)
    intro r hr
    rcases mem_add.1 hr with hr | rfl
    · exact old r hr
    · cases hp : r.parent with
      | none => exact .root hp
      | some p =>
        obtain ⟨q, hq, rfl, hjob⟩ := child p hp
        exact .child hp (mem_add.2 (.inl hq)) hjob (old q hq)
  one_root := by
    intro r hr q hq hrp hqp hjob
    rcases mem_add.1 hr with hr₀ | rfl <;> rcases mem_add.1 hq with hq₀ | rfl
    · exact h.one_root r hr₀ q hq₀ hrp hqp hjob
    · exact absurd hjob (root hqp r hr₀)
    · exact absurd hjob.symm (root hrp q hq₀)
    · rfl

/-- What a record tells apart from the tree does not matter for it. -/
theorem Forest.map (h : l.Forest) {f : EvaluationRecord → EvaluationRecord}
    (hid : ∀ r, (f r).id = r.id) (hjob : ∀ r, (f r).job = r.job)
    (hparent : ∀ r, (f r).parent = r.parent) : Forest ⟨l.records.map f⟩ where
  distinct := by
    have hcomp : EvaluationRecord.id ∘ f = EvaluationRecord.id := funext hid
    rw [List.map_map, hcomp]
    exact h.distinct
  rooted := by
    have image : ∀ r, l.Rooted r → Rooted ⟨l.records.map f⟩ (f r) := by
      intro r hr
      induction hr with
      | root top => exact .root ((hparent _).trans top)
      | @child r q above held same _ ih =>
        refine .child (q := f q) ?_ (List.mem_map.2 ⟨q, held, rfl⟩) ?_ ih
        · rw [hparent, hid, above]
        · rw [hjob, hjob, same]
    intro r hr
    obtain ⟨r₀, hr₀, rfl⟩ := List.mem_map.1 hr
    exact image r₀ (h.rooted r₀ hr₀)
  one_root := by
    intro r hr q hq hrp hqp hsame
    obtain ⟨r₀, hr₀, rfl⟩ := List.mem_map.1 hr
    obtain ⟨q₀, hq₀, rfl⟩ := List.mem_map.1 hq
    rw [hparent] at hrp hqp
    rw [hjob, hjob] at hsame
    rw [h.one_root r₀ hr₀ q₀ hq₀ hrp hqp hsame]

theorem Forest.finish (h : l.Forest) (id : EvaluationId) (status : Status) (now : Timestamp) :
    (l.finish id status now).Forest := by
  refine h.map ?_ ?_ ?_ <;>
  · intro r
    split <;> simp

theorem mem_prune {job : JobId} {r : EvaluationRecord} :
    r ∈ (l.prune job).2.records ↔ r ∈ l.records ∧ r.job ≠ job := by
  simp [prune]

/-- The tree of a job can be dropped. -/
theorem Forest.prune (h : l.Forest) (job : JobId) : (l.prune job).2.Forest where
  distinct := (List.filter_sublist.map _).nodup h.distinct
  rooted := by
    have stays : ∀ r, l.Rooted r → r.job ≠ job → (l.prune job).2.Rooted r := by
      intro r hr
      induction hr with
      | root top => exact fun _ => .root top
      | child above held same _ ih =>
        intro hne
        rw [← same] at hne
        exact .child above (mem_prune.2 ⟨held, hne⟩) same (ih hne)
    intro r hr
    obtain ⟨hr, hne⟩ := mem_prune.1 hr
    exact stays r (h.rooted r hr) hne
  one_root := by
    intro r hr q hq
    exact h.one_root r (mem_prune.1 hr).1 q (mem_prune.1 hq).1

theorem mem_finish {id : EvaluationId} {status : Status} {now : Timestamp} {r : EvaluationRecord} :
    r ∈ (l.finish id status now).records ↔
      (r ∈ l.records ∧ r.id ≠ id) ∨
        ∃ q ∈ l.records, q.id = id ∧ r = (q.finish status now).2 := by
  simp only [finish, List.mem_map]
  constructor
  · rintro ⟨q, hq, rfl⟩
    split
    · next hid => exact .inr ⟨q, hq, hid, rfl⟩
    · next hid => exact .inl ⟨hq, hid⟩
  · rintro (⟨hr, hid⟩ | ⟨q, hq, hid, rfl⟩)
    · exact ⟨r, hr, if_neg hid⟩
    · exact ⟨q, hq, if_pos hid⟩

theorem length_childrenOf_add (new : EvaluationRecord) (id : EvaluationId) :
    ((l.add new).childrenOf id).length =
      (l.childrenOf id).length + if new.parent = some id then 1 else 0 := by
  simp only [childrenOf, add, List.filter_append, List.length_append]
  split
  · next hp => simp [hp]
  · next hp => simp [hp]

theorem length_childrenOf_finish (id' : EvaluationId) (status : Status) (now : Timestamp)
    (id : EvaluationId) :
    ((l.finish id' status now).childrenOf id).length = (l.childrenOf id).length := by
  have hparent : ∀ r : EvaluationRecord,
      (if r.id = id' then (r.finish status now).2 else r).parent = r.parent := by
    intro r
    split <;> simp
  simp only [childrenOf, finish, List.filter_map, List.length_map, Function.comp_def, hparent]

end Ledger

namespace Outline

variable {o o' : Outline}

/-- Evaluations and running records belong together. -/
structure Recorded (o : Outline) : Prop where
  forest : o.ledger.Forest
  record_known : ∀ {r}, r ∈ o.ledger.records → o.Known r.id.uuid
  thread_of_record : ∀ {r}, r ∈ o.ledger.records →
    ∃ t, o.threads.get? r.job = some t ∧ t.HasBegun
  record_of_evaluation : ∀ {id e}, o.evaluations.get? id = some e →
    ∃ r ∈ o.ledger.records, r.id = id ∧ r.job = e.job ∧ r.parent = e.parent.map Parent.id ∧
      r.status = .running
  evaluation_of_record : ∀ {r}, r ∈ o.ledger.records → r.status = .running →
    ∃ e, o.evaluations.get? r.id = some e
  completed : ∀ {r}, r ∈ o.ledger.records →
    (r.completedAt.isSome = true ↔ r.status.isTerminal = true)

theorem Recorded.congr (h : o.Recorded) (hl : o'.ledger = o.ledger) (hn : o.nextId ≤ o'.nextId)
    (hk : o'.StemsFrom o) (hk' : o.StemsFrom o')
    (ht : ∀ {job t}, o.threads.get? job = some t → t.HasBegun →
      ∃ t', o'.threads.get? job = some t' ∧ t'.HasBegun) : o'.Recorded where
  forest := hl ▸ h.forest
  record_known := by
    intro r hr
    exact (h.record_known (hl ▸ hr)).mono hn
  thread_of_record := by
    intro r hr
    obtain ⟨t, hthread, hbegun⟩ := h.thread_of_record (hl ▸ hr)
    exact ht hthread hbegun
  record_of_evaluation := by
    intro id e' live'
    obtain ⟨e, live, hjob, hparent, -⟩ := hk id e' live'
    obtain ⟨r, hr, hid, hj, hp, hs⟩ := h.record_of_evaluation live
    exact ⟨r, hl ▸ hr, hid, hj.trans hjob.symm, by rw [hp, hparent], hs⟩
  evaluation_of_record := by
    intro r hr hs
    obtain ⟨e, live⟩ := h.evaluation_of_record (hl ▸ hr) hs
    obtain ⟨e', live', -⟩ := hk' _ e live
    exact ⟨e', live'⟩
  completed := by
    intro r hr
    exact h.completed (hl ▸ hr)

theorem stemsFrom_update {id : EvaluationId} {e : Evaluation} {steps : Nat} {phase : Phase}
    (live : o.evaluations.get? id = some e)
    (he : o'.evaluations = o.evaluations.insert id { e with steps, phase }) : o.StemsFrom o' := by
  intro id' e' live'
  rw [he]
  by_cases hid : id = id'
  · subst hid
    cases live.symm.trans live'
    exact ⟨_, (Table.get?_insert _ _ _ _).trans (if_pos rfl), rfl, rfl, rfl, rfl⟩
  · exact ⟨e', by rw [Table.get?_insert, if_neg hid, live'], rfl, rfl, rfl, rfl⟩

theorem stemsFrom_dropAll {worker : WorkerId} {ds : List Delivery}
    (he : o'.evaluations = dropAll worker ds o.evaluations) : o.StemsFrom o' := by
  intro id e live
  rw [he, get?_dropAll, live]
  split
  · exact ⟨_, rfl, rfl, rfl, rfl, rfl⟩
  · exact ⟨e, rfl, rfl, rfl, rfl, rfl⟩

/-- A placed evaluation has a running record. -/
theorem Dispatched.recorded {job : JobId} {parent : Option Parent} {scope : Scope} {w : Workflow}
    (sent : o.Dispatched job parent scope w o') (h : o.Recorded) (hn : o.nextId < Uuid.supply)
    (live : ∀ {id e}, o.evaluations.get? id = some e → ⟨o.newId⟩ ≠ id)
    (thread : ∃ t, o.threads.get? job = some t ∧ t.HasBegun)
    (child : ∀ p, parent = some p → ∃ q ∈ o.ledger.records, q.id = p.id ∧ q.job = job)
    (root : parent = none → ∀ r ∈ o.ledger.records, r.job ≠ job) : o'.Recorded := by
  obtain ⟨p, phase, hget, -⟩ := sent.get?
  obtain ⟨worker, now, hl⟩ := sent.ledger
  obtain ⟨-, -, hthreads, -, hnext⟩ := sent.unchanged
  have fresh : ∀ r ∈ o.ledger.records, r.id ≠ ⟨o.newId⟩ := by
    intro r hr hid
    exact (h.record_known hr).ne_newId hn (congrArg EvaluationId.uuid hid)
  constructor
  · rw [hl]
    refine h.forest.add fresh ?_ ?_
    · intro q hq
      obtain ⟨parent, hp, rfl⟩ := Option.map_eq_some_iff.1 hq
      exact child parent hp
    · intro hq
      exact root (Option.map_eq_none_iff.1 hq)
  · intro r hr
    rw [hl] at hr
    rcases Ledger.mem_add.1 hr with hr | rfl
    · exact (h.record_known hr).mono (by omega)
    · exact known_newId (by omega)
  · intro r hr
    rw [hl] at hr
    rw [hthreads]
    rcases Ledger.mem_add.1 hr with hr | rfl
    · exact h.thread_of_record hr
    · exact thread
  · intro id e live'
    rw [hget] at live'
    rw [hl]
    split at live'
    · next hid =>
      cases live'
      exact ⟨_, Ledger.mem_add.2 (.inr rfl), hid, rfl, rfl, rfl⟩
    · obtain ⟨r, hr, rest⟩ := h.record_of_evaluation live'
      exact ⟨r, Ledger.mem_add.2 (.inl hr), rest⟩
  · intro r hr hs
    rw [hl] at hr
    rw [hget]
    rcases Ledger.mem_add.1 hr with hr | rfl
    · obtain ⟨e, he⟩ := h.evaluation_of_record hr hs
      exact ⟨e, by rw [if_neg (live he), he]⟩
    · exact ⟨_, if_pos rfl⟩
  · intro r hr
    rw [hl] at hr
    rcases Ledger.mem_add.1 hr with hr | rfl
    · exact h.completed hr
    · simp [Status.isTerminal]

/-- The record of an evaluation ends when the evaluation is dropped. -/
theorem Recorded.collect (h : o.Recorded) {id : EvaluationId} {outcome : Outcome}
    {now : Timestamp} (hl : o'.ledger = o.ledger.finish id outcome.status now)
    (hn : o.nextId ≤ o'.nextId) (hk : o'.StemsFrom o) (gone : o'.evaluations.get? id = none)
    (kept : ∀ {id' e}, o.evaluations.get? id' = some e → id' ≠ id →
      ∃ e', o'.evaluations.get? id' = some e')
    (ht : ∀ {job t}, o.threads.get? job = some t → t.HasBegun →
      ∃ t', o'.threads.get? job = some t' ∧ t'.HasBegun) : o'.Recorded := by
  constructor
  · rw [hl]
    exact h.forest.finish id _ now
  · intro r hr
    rw [hl] at hr
    rcases Ledger.mem_finish.1 hr with ⟨hr, -⟩ | ⟨q, hq, -, rfl⟩
    · exact (h.record_known hr).mono hn
    · rw [EvaluationRecord.id_finish]
      exact (h.record_known hq).mono hn
  · intro r hr
    rw [hl] at hr
    rcases Ledger.mem_finish.1 hr with ⟨hr, -⟩ | ⟨q, hq, -, rfl⟩
    · obtain ⟨t, hthread, hbegun⟩ := h.thread_of_record hr
      exact ht hthread hbegun
    · rw [EvaluationRecord.job_finish]
      obtain ⟨t, hthread, hbegun⟩ := h.thread_of_record hq
      exact ht hthread hbegun
  · intro id' e' live'
    obtain ⟨e, live, hjob, hparent, -⟩ := hk id' e' live'
    obtain ⟨r, hr, rfl, hj, hp, hs⟩ := h.record_of_evaluation live
    have hne : r.id ≠ id := by
      rintro rfl
      cases live'.symm.trans gone
    refine ⟨r, ?_, rfl, hj.trans hjob.symm, by rw [hp, hparent], hs⟩
    rw [hl]
    exact Ledger.mem_finish.2 (.inl ⟨hr, hne⟩)
  · intro r hr hs
    rw [hl] at hr
    rcases Ledger.mem_finish.1 hr with ⟨hr, hne⟩ | ⟨q, hq, -, rfl⟩
    · obtain ⟨e, live⟩ := h.evaluation_of_record hr hs
      exact kept live hne
    · -- A finished record does not run.
      unfold EvaluationRecord.finish at hs
      split at hs
      · next ht' => simp_all [Status.isTerminal]
      · have := outcome.isTerminal_status
        simp_all [Status.isTerminal]
  · intro r hr
    rw [hl] at hr
    rcases Ledger.mem_finish.1 hr with ⟨hr, -⟩ | ⟨q, hq, -, rfl⟩
    · exact h.completed hr
    · unfold EvaluationRecord.finish
      split
      · exact h.completed hq
      · simp

/-- The records of a job can be dropped when none of its evaluations is left. -/
theorem Recorded.prune (h : o.Recorded) {job : JobId}
    (free : ∀ {id e}, o.evaluations.get? id = some e → e.job ≠ job) (jobs : Table JobId JobEntry) :
    Recorded { o with jobs, ledger := (o.ledger.prune job).2 } where
  forest := h.forest.prune job
  record_known := by
    intro r hr
    exact h.record_known (Ledger.mem_prune.1 hr).1
  thread_of_record := by
    intro r hr
    exact h.thread_of_record (Ledger.mem_prune.1 hr).1
  record_of_evaluation := by
    intro id e live
    obtain ⟨r, hr, hid, hj, rest⟩ := h.record_of_evaluation live
    exact ⟨r, Ledger.mem_prune.2 ⟨hr, hj ▸ free live⟩, hid, hj, rest⟩
  evaluation_of_record := by
    intro r hr hs
    exact h.evaluation_of_record (Ledger.mem_prune.1 hr).1 hs
  completed := by
    intro r hr
    exact h.completed (Ledger.mem_prune.1 hr).1

/-- A job that can be forgotten has no evaluations left. -/
theorem Recorded.forget (h : o.Recorded) (hc : o.Consistent) {job : JobId} {entry : JobEntry}
    (known : o.jobs.get? job = some entry) (ended : entry.job.status.isTerminal = true)
    (jobs : Table JobId JobEntry) :
    Recorded { o with jobs, ledger := (o.ledger.prune job).2 } := by
  refine h.prune ?_ jobs
  rintro id e live rfl
  obtain ⟨t, hthread, hiff⟩ := hc.thread_of_job known
  cases (hc.thread_of_evaluation live).symm.trans hthread
  exact hiff.1 ended

theorem Recorded.step {ev : Event} (h : o.Recorded) (hc : o.Consistent)
    (hn : o.nextId < Uuid.supply) (s : o.Step ev o') : o'.Recorded := by
  have fresh : ∀ {id e}, o.evaluations.get? id = some e → ⟨o.newId⟩ ≠ id := by
    rintro id e live rfl
    exact (hc.evaluation_known live).ne_newId hn rfl
  cases s with
  | elapse => exact h
  | arrange => exact h
  | submit now =>
    refine h.congr rfl (Nat.le_succ _) (.of_eq rfl) (.of_eq rfl) ?_
    intro job t hthread hbegun
    refine ⟨t, ?_, hbegun⟩
    rw [Table.get?_insert, if_neg]
    · exact hthread
    · rintro rfl
      exact (hc.thread_known hthread).ne_newId hn rfl
  | cancel => exact h.congr rfl (Nat.le_refl _) (.of_eq rfl) (.of_eq rfl) fun ht hb => ⟨_, ht, hb⟩
  | forget known ended => exact h.forget hc known ended _
  | shutdown => exact h.congr rfl (Nat.le_refl _) (.of_eq rfl) (.of_eq rfl) fun ht hb => ⟨_, ht, hb⟩
  | @begin job w scope _ thread sent =>
    refine sent.recorded ?_ hn fresh ⟨.waiting, ?_, trivial⟩ (by simp) ?_
    · refine h.congr rfl (Nat.le_refl _) (.of_eq rfl) (.of_eq rfl) ?_
      intro job' t hthread hbegun
      simp only [Table.get?_insert]
      split
      · exact ⟨_, rfl, trivial⟩
      · exact ⟨t, hthread, hbegun⟩
    · exact (Table.get?_insert _ _ _ _).trans (if_pos rfl)
    · rintro - r hr rfl
      obtain ⟨t, hthread, hbegun⟩ := h.thread_of_record hr
      cases hthread.symm.trans thread
      exact hbegun
  | receive at_slot inbox live =>
    exact h.congr rfl (Nat.le_refl _) (.update live rfl) (stemsFrom_update live rfl)
      fun ht hb => ⟨_, ht, hb⟩
  | close at_slot stopped =>
    exact h.congr rfl (Nat.le_refl _) (.dropAll rfl) (stemsFrom_dropAll rfl)
      fun ht hb => ⟨_, ht, hb⟩
  | shift steps live turn leads later =>
    exact h.congr rfl later.1 (.update live rfl) (stemsFrom_update live rfl)
      fun ht hb => ⟨_, ht, hb⟩
  | fork steps live running free forks =>
    exact h.congr rfl (Nat.le_refl _) (.update live rfl) (stemsFrom_update live rfl)
      fun ht hb => ⟨_, ht, hb⟩
  | @place id e f w rest stack _ live joining waiting sent =>
    refine sent.recorded ?_ hn ?_ ⟨.waiting, hc.thread_of_evaluation live, trivial⟩ ?_ (by simp)
    · exact h.congr rfl (Nat.le_refl _) (.update live rfl) (stemsFrom_update live rfl)
        fun ht hb => ⟨_, ht, hb⟩
    · intro id' e' live'
      rw [Table.get?_insert] at live'
      split at live'
      · next hid => exact hid ▸ fresh live
      · exact fresh live'
    · rintro p ⟨⟩
      obtain ⟨r, hr, hid, hj, -⟩ := h.record_of_evaluation live
      exact ⟨r, hr, hid, hj⟩
  | @collectRoot id e r entry now live responded root known =>
    refine h.collect rfl (Nat.le_refl _) (.erase rfl) ?_ ?_ ?_
    · exact (Table.get?_erase _ _ _).trans (if_pos rfl)
    · intro id' e' live' hne
      exact ⟨e', (Table.get?_erase _ _ _).trans ((if_neg (Ne.symm hne)).trans live')⟩
    · intro job t hthread hbegun
      simp only [Table.get?_insert]
      split
      · exact ⟨_, rfl, trivial⟩
      · exact ⟨t, hthread, hbegun⟩
  | @collectChild id e r now parent pe f stack live responded child above joining =>
    have hne : parent.id ≠ id := by
      intro hid
      cases (hid ▸ above).symm.trans live
      cases responded.symm.trans joining
    have erased : StemsFrom { o with evaluations := o.evaluations.erase id } o := .erase rfl
    refine Recorded.collect h rfl (Nat.le_refl _) ?_ ?_ ?_ fun ht hb => ⟨_, ht, hb⟩
    · refine StemsFrom.trans (.update (e := pe) ?_ rfl) erased
      rw [Table.get?_erase, if_neg (Ne.symm hne)]
      exact above
    · rw [Table.get?_insert, if_neg hne, Table.get?_erase, if_pos rfl]
    · intro id' e' live' hne'
      rw [Table.get?_insert]
      split
      · exact ⟨_, rfl⟩
      · exact ⟨e', (Table.get?_erase _ _ _).trans ((if_neg (Ne.symm hne')).trans live')⟩

end Outline

end WorkflowEngine
