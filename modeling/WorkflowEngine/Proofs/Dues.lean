import WorkflowEngine.Proofs.Allowance
import WorkflowEngine.Proofs.Punctual
import WorkflowEngine.Proofs.Soundness
import WorkflowEngine.Proofs.Termination
/-!
What a job still has to do. Each of its evaluations stands at a stage of its workflow, or is to be
stopped, and has enough left for that. What the job owes is what all of them have left together: it
does not grow, and whatever the job does itself makes it less.
-/
set_option autoImplicit false

namespace WorkflowEngine

namespace Stage

variable {s : Surroundings} {t t' : Stage} {n : Ordinal.{0}}

/-- Whether something is enough for a stage. It is more than any number, so that an evaluation can
be stopped at each stage. -/
def Costs (s : Surroundings) (t : Stage) (n : Ordinal.{0}) : Prop :=
  ∃ ends : t.Ends s, Ordinal.omega0 + ends.rank ≤ n

theorem Ends.exists_costs (h : t.Ends s) : ∃ n, t.Costs s n := ⟨_, h, le_rfl⟩

theorem Costs.le (h : t.Costs s n) (k : Nat) : (k : Ordinal.{0}) ≤ n := by
  obtain ⟨ends, le⟩ := h
  exact ((Ordinal.natCast_lt_omega0 k).le.trans le_self_add).trans le

/-- Less is enough for the next stage. -/
theorem Costs.next (h : t.Costs s n) (leads : Leads s t t') : ∃ k < n, t'.Costs s k := by
  obtain ⟨ends, le⟩ := h
  have less : (ends.inv leads).rank < ends.rank := Acc.rank_lt_of_rel ends leads
  exact ⟨_, lt_of_lt_of_le (by gcongr) le, ends.inv leads, le_rfl⟩

theorem Costs.of_path (h : t.Costs s n) (path : Relation.TransGen (Leads s) t t') :
    ∃ k < n, t'.Costs s k := by
  induction path with
  | single leads => exact h.next leads
  | tail _ leads ih =>
    obtain ⟨k, less, costs⟩ := ih
    obtain ⟨k', less', costs'⟩ := costs.next leads
    exact ⟨k', less'.trans less, costs'⟩

end Stage

namespace Outline

/-- What a joining evaluation knows of the fork that it opened. -/
structure Joins (o : Outline) (s : Surroundings) (source : EvaluationId → Workflow)
    (id : EvaluationId) (f : Fork) (kind : ForkKind) (children : List Workflow) : Prop where
  waiting : f.waiting = children.drop f.placed
  child : ∀ {i c}, o.Child id i c → children[i]? = some (source c)
  explained : f.join.Explained s children (fun i => i < f.placed ∧ ∀ c, ¬ o.Child id i c) kind

/-- The stage of an evaluation in each phase. -/
inductive Stands (o : Outline) (s : Surroundings) (source : EvaluationId → Workflow)
    (id : EvaluationId) : Phase → Stage → Prop
  | queued : Stands o s source id .queued (.queued (source id))
  | accepted {payload : String} (decoded : Workflow.decode payload = .ok (source id)) :
      Stands o s source id (.accepted payload) (.accepted (source id))
  | running (m : Machine) : Stands o s source id (.running m) (.running m)
  | operating (p : Program (Reply Value)) (due : Option Nat) (stack : List Frame) :
      Stands o s source id (.operating p due stack) (.operating p due.isSome stack)
  | joining {f : Fork} {kind : ForkKind} {children : List Workflow} (stack : List Frame)
      (joins : o.Joins s source id f kind children) :
      Stands o s source id (.joining f stack) (.joining kind children f.waiting stack)
  | responded (r : Response) : Stands o s source id (.responded r) .responded

variable {o o' : Outline} {s : Surroundings} {source source' : EvaluationId → Workflow}
  {id : EvaluationId} {e : Evaluation} {phase : Phase} {t : Stage} {f : Fork} {kind : ForkKind}
  {children : List Workflow}

theorem Joins.congr (h : o.Joins s source id f kind children)
    (hc : ∀ {i c}, o'.Child id i c ↔ o.Child id i c)
    (hs : ∀ {i c}, o.Child id i c → source' c = source c) :
    o'.Joins s source' id f kind children where
  waiting := h.waiting
  child := fun hchild => by
    rw [hs (hc.1 hchild)]
    exact h.child (hc.1 hchild)
  explained := h.explained.mono fun _ hi => ⟨hi.1, fun c hchild => hi.2 c (hc.2 hchild)⟩

/-- Only the evaluation itself and its children count. -/
theorem Stands.congr (h : o.Stands s source id phase t) (hid : source' id = source id)
    (hc : ∀ {i c}, o'.Child id i c ↔ o.Child id i c)
    (hs : ∀ {i c}, o.Child id i c → source' c = source c) : o'.Stands s source' id phase t := by
  cases h with
  | queued => exact hid ▸ .queued
  | accepted decoded => exact hid ▸ .accepted (hid ▸ decoded)
  | running m => exact .running m
  | operating p due stack => exact .operating p due stack
  | joining stack joins => exact .joining stack (joins.congr hc hs)
  | responded r => exact .responded r

/-- One of the children that wait is placed. -/
theorem Joins.placed (h : o.Joins s source id f kind children) {v : Workflow}
    {rest : List Workflow} (waiting : f.waiting = v :: rest)
    (keeps : ∀ {id e}, o.evaluations.get? id = some e → source' id = source id)
    (new : source' ⟨o.newId⟩ = v)
    (hchild : ∀ {i c}, o'.Child id i c ↔ o.Child id i c ∨ (i = f.placed ∧ c = ⟨o.newId⟩)) :
    o'.Joins s source' id { f with placed := f.placed + 1, waiting := rest } kind children := by
  have hdrop : children.drop f.placed = v :: rest := h.waiting ▸ waiting
  refine ⟨?_, ?_, h.explained.mono fun i hi => ?_⟩
  · rw [← List.tail_drop, hdrop, List.tail_cons]
  · intro i c hc
    rcases hchild.1 hc with hc | ⟨rfl, rfl⟩
    · obtain ⟨ce, hce, hparent⟩ := hc
      rw [keeps hce]
      exact h.child ⟨ce, hce, hparent⟩
    · rw [new, ← List.head?_drop, hdrop, List.head?_cons]
  · obtain ⟨hlt, absent⟩ := hi
    have hne : i ≠ f.placed := by
      rintro rfl
      exact absent _ (hchild.2 (.inr ⟨rfl, rfl⟩))
    exact ⟨Nat.lt_of_le_of_ne (Nat.le_of_lt_succ hlt) hne,
      fun c hc => absent c (hchild.2 (.inl hc))⟩

/-- The outcome of a child arrives, which is explained unless the join has been decided. -/
theorem Joins.received {c : EvaluationId} {i : Nat} {outcome : Outcome}
    (h : o.Joins s source id f kind children) (hc : o.Child id i c)
    (hchild : ∀ {k c'}, o'.Child id k c' ↔ o.Child id k c' ∧ c' ≠ c)
    (unique : ∀ {k}, o.Child id k c → k = i)
    (keeps : ∀ {k c}, o.Child id k c → source' c = source c)
    (settled : f.join.Decided ∨
      ∃ r : Except WorkflowError Value, Permits s (source c) r ∧ outcome = r.mapError .error) :
    o'.Joins s source' id
      { f with
        join := (f.join.receive i outcome).2
        missing := f.missing - 1 } kind children := by
  refine ⟨h.waiting, fun hk => ?_, ?_⟩
  · rw [keeps (hchild.1 hk).1]
    exact h.child (hchild.1 hk).1
  · rcases settled with decided | ⟨r, permits, rfl⟩
    · exact h.explained.receive_decided decided i outcome
    · refine (h.explained.receive (h.child hc) permits).mono fun k hk => ?_
      exact (absent_of_received hchild unique hk.2).imp_right (⟨hk.1, ·⟩)

/-- A fork without children left ends with a result that it permits. -/
theorem Joins.outcome (h : o.Joins s source id f kind children) (placed : f.waiting = [])
    (childless : o.Childless id) :
    ∃ r, Permits s (kind.workflow children) r ∧ f.join.outcome false = r.mapError .error := by
  refine h.explained.outcome fun i hi => ⟨?_, childless i⟩
  have hlen := List.drop_eq_nil_iff.1 (h.waiting.symm.trans placed)
  omega

/-- A step of the machine leads to a stage further on. -/
theorem stands_machine {m : Machine} {worker : WorkerId}
    (leads : (Cluster.Turn.step m).Leads { s with worker } phase) :
    ∃ t', o.Stands s source id phase t' ∧ Relation.TransGen (Stage.Leads s) (.running m) t' := by
  cases leads with
  | next step => exact ⟨_, .running _, .single (.next step)⟩
  | finished step => exact ⟨_, .responded _, .single (.respond m)⟩
  | aborted step => exact ⟨_, .responded _, .single (.respond m)⟩
  | @childless _ kind stack step =>
    obtain ⟨r, permits, hr⟩ :=
      (Join.explained_start s kind []).outcome fun i hi => absurd hi (Nat.not_lt_zero i)
    rw [List.length_nil] at hr
    rw [hr]
    exact ⟨_, .running _, .tail (.single (.fork step)) (.join stack permits)⟩
  | immediate step answer => exact ⟨_, .running _, .single (.answer worker step answer)⟩
  | guarded step effect => exact ⟨_, .operating _ none _, .single (.operate worker step effect)⟩

/-- A turn by the clock leads to a stage further on. -/
theorem Stands.turn {worker : WorkerId} {now : Nat} {turn : Cluster.Turn}
    (h : o.Stands s source id e.phase t) (explains : o.Explains s source id e.phase)
    (free : o.scopes.isCancelled e.scope = false) (follows : turn.Follows o.scopes e)
    (leads : turn.Leads { s with worker } phase) (clocked : turn.Clocked now phase)
    (childless : o.Childless id) :
    ∃ t', o.Stands s source id phase t' ∧ Relation.TransGen (Stage.Leads s) t t' := by
  cases follows with
  | started accepted decoded =>
    cases leads
    rw [accepted] at h
    cases h with
    | accepted hd =>
      cases decoded.symm.trans hd
      exact ⟨_, .running _, .single (.start _)⟩
  | undecoded accepted decoded =>
    rw [accepted] at h
    cases h with
    | accepted hd => cases decoded.symm.trans hd
  | stopped running cancelled => simp [free] at cancelled
  | steps running =>
    rw [running] at h
    cases h
    exact stands_machine leads
  | interrupted operating cancelled => simp [free] at cancelled
  | returned operating =>
    cases leads
    rw [operating] at h
    cases h
    exact ⟨_, .running _, .single (.returned _ _ _)⟩
  | failed operating =>
    cases leads
    rw [operating] at h
    cases h
    exact ⟨_, .running _, .single (.failed _ _ _)⟩
  | @aborted message due stack operating =>
    rw [operating] at explains
    cases explains with
    | operating mild => exact absurd (.done _) (mild message)
  | @asks r next due stack operating =>
    rw [operating] at h
    cases h
    cases leads with
    | answered answer => exact ⟨_, .operating _ none _, .single (.ask _ answer _ _)⟩
    | paused =>
      cases due with
      | none => exact ⟨_, .operating _ (some _) _, .single (.pause _ _)⟩
      | some due =>
        obtain ⟨-, moved⟩ := clocked
        simp at moved
  | places joining waiting => cases leads
  | @joined f stack joining placed arrived =>
    cases leads
    rw [joining] at h
    cases h with
    | joining _ joins =>
      obtain ⟨r, permits, hr⟩ := joins.outcome placed childless
      rw [free, hr, placed]
      exact ⟨_, .running _, .single (.join stack permits)⟩

end Outline

end WorkflowEngine
