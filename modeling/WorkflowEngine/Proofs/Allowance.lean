import WorkflowEngine.Proofs.Reachable
import Mathlib
/-!
How much a job may still do. Each of its evaluations has an allowance, and a job affords them if
they sum up to no more than a total. Whatever a job does it pays for.
-/
set_option autoImplicit false

namespace WorkflowEngine

namespace Outline

/-- Whether an evaluation is one of a job. -/
def Owned (o : Outline) (job : JobId) (id : EvaluationId) : Prop :=
  ∃ e, o.evaluations.get? id = some e ∧ e.job = job

/-- The moves of a job: its begin, and what its evaluations do or what is done with them. -/
def Owns (o : Outline) (job : JobId) : Move → Prop
  | .begin id => id = job
  | .receive i => ∃ post d rest, o.posts[i]? = some post ∧ post.inbox = d :: rest ∧
      o.Owned job d.evaluation
  | .close _ => False
  | .advance id | .collect id => o.Owned job id

/-- The moves that get a job on. A worker may have other deliveries to receive before. -/
def Serves (o : Outline) (job : JobId) : Move → Prop
  | .receive i => ∃ id, o.QueuedAt id i ∧ o.Owned job id
  | m => o.Owns job m

def Affords (o : Outline) (job : JobId) (left : EvaluationId → Nat) (total : Nat) : Prop :=
  ∃ s : Finset EvaluationId, (∀ id, id ∈ s ↔ o.Owned job id) ∧ ∑ id ∈ s, left id ≤ total

variable {o o' : Outline} {job : JobId} {left : EvaluationId → Nat} {total : Nat}
  {id : EvaluationId} {e : Evaluation}

theorem owned_of_live (live : o.evaluations.get? id = some e) : o.Owned job id ↔ e.job = job := by
  constructor
  · rintro ⟨e', live', same⟩
    cases live.symm.trans live'
    exact same
  · exact fun same => ⟨e, live, same⟩

theorem owned_congr (he : o'.evaluations = o.evaluations) (id : EvaluationId) :
    o'.Owned job id ↔ o.Owned job id := by
  unfold Owned
  rw [he]

theorem owned_update {steps : Nat} {phase : Phase} (live : o.evaluations.get? id = some e)
    (he : o'.evaluations = o.evaluations.insert id { e with steps, phase })
    (id' : EvaluationId) : o'.Owned job id' ↔ o.Owned job id' := by
  unfold Owned
  rw [he, Table.get?_insert]
  split
  · next hid =>
    subst hid
    simp [live]
  · exact Iff.rfl

theorem Dispatched.owned {job' : JobId} {parent : Option Parent} {scope : Scope} {w : Workflow}
    (sent : o.Dispatched job' parent scope w o') (fresh : o.evaluations.get? ⟨o.newId⟩ = none)
    (id' : EvaluationId) :
    o'.Owned job id' ↔ o.Owned job id' ∨ (id' = ⟨o.newId⟩ ∧ job' = job) := by
  obtain ⟨p, phase, hget, -⟩ := sent.get?
  unfold Owned
  rw [hget]
  split
  · next hid =>
    subst hid
    simp [fresh]
  · next hid => simp [Ne.symm hid]

theorem Affords.congr (h : o.Affords job left total)
    (hk : ∀ id, o'.Owned job id ↔ o.Owned job id) : o'.Affords job left total := by
  obtain ⟨s, hs, sum⟩ := h
  exact ⟨s, fun id => (hs id).trans (hk id).symm, sum⟩

/-- What the allowance of one evaluation loses the total loses. -/
theorem Affords.spend (h : o.Affords job left total)
    (hk : ∀ id, o'.Owned job id ↔ o.Owned job id) (owned : o.Owned job id) (k : Nat) :
    ∃ total', total' + left id = total + k ∧ o'.Affords job (Function.update left id k) total' := by
  obtain ⟨s, hs, sum⟩ := h
  have hid : id ∈ s := (hs id).2 owned
  have before := Finset.add_sum_erase s left hid
  have after : ∑ x ∈ s, Function.update left id k x = k + ∑ x ∈ s.erase id, left x := by
    rw [Finset.sum_update_of_mem hid, Finset.sdiff_singleton_eq_erase]
  exact ⟨total + k - left id, by omega, s, fun id => (hs id).trans (hk id).symm, by omega⟩

/-- A new evaluation adds its allowance to the total. -/
theorem Affords.grow (h : o.Affords job left total) (new : ¬ o.Owned job id)
    (hk : ∀ id', o'.Owned job id' ↔ o.Owned job id' ∨ id' = id) (k : Nat) :
    o'.Affords job (Function.update left id k) (total + k) := by
  obtain ⟨s, hs, sum⟩ := h
  have hid : id ∉ s := fun hid => new ((hs id).1 hid)
  refine ⟨insert id s, fun id' => ?_, ?_⟩
  · rw [Finset.mem_insert, hk, hs, or_comm]
  · rw [Finset.sum_insert hid, Function.update_self, Finset.sum_update_of_notMem hid, Nat.add_comm]
    exact Nat.add_le_add_right sum k

/-- With an evaluation that is gone its allowance is. -/
theorem Affords.shrink (h : o.Affords job left total) (owned : o.Owned job id)
    (hk : ∀ id', o'.Owned job id' ↔ o.Owned job id' ∧ id' ≠ id) (positive : 0 < left id) :
    ∃ total' < total, o'.Affords job left total' := by
  obtain ⟨s, hs, sum⟩ := h
  have hid : id ∈ s := (hs id).2 owned
  have before := Finset.add_sum_erase s left hid
  refine ⟨total - left id, by omega, s.erase id, fun id' => ?_, by omega⟩
  rw [Finset.mem_erase, hk, hs, and_comm]

/-- An evaluation of another job that goes has had no part in the total. -/
theorem Affords.drop (h : o.Affords job left total) (live : o.evaluations.get? id = some e)
    (other : e.job ≠ job) (hk : ∀ id', o'.Owned job id' ↔ o.Owned job id' ∧ id' ≠ id) :
    o'.Affords job left total := by
  refine h.congr fun id' => ?_
  rw [hk, and_iff_left_iff_imp]
  rintro ⟨e', live', same⟩ rfl
  cases live.symm.trans live'
  exact other same

end Outline

end WorkflowEngine
