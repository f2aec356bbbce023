import WorkflowEngine.Proofs.ScopeRoles
/-!
How far an evaluation has come with its workflow. In each phase it is at a part of the workflow
from which it can get to no result that the workflow does not permit, and its turns keep it so.
-/
set_option autoImplicit false

namespace WorkflowEngine

namespace Outline

/-- The phases of an evaluation of the workflow that `source` tells, if nothing disturbs it. -/
inductive Explains (o : Outline) (s : Surroundings) (source : EvaluationId → Workflow)
    (id : EvaluationId) : Phase → Prop
  | queued : Explains o s source id .queued
  | accepted {payload : String} (decoded : Workflow.decode payload = .ok (source id)) :
      Explains o s source id (.accepted payload)
  | running {m : Machine} (pursues : m.Pursues s (source id)) : Explains o s source id (.running m)
  | operating {p : Program (Reply Value)} {due : Option Nat} {stack : List Frame}
      (calm : (Effect.guarded p).Calm)
      (within : ∀ r, (Effect.guarded p).Gives r →
        Within s (Machine.plug stack (.ofResult r)) (source id)) :
      Explains o s source id (.operating p due stack)
  | joining {f : Fork} {stack : List Frame} {kind : ForkKind} {children : List Workflow}
      (within : Within s (Machine.plug stack (kind.workflow children)) (source id))
      (waiting : f.waiting = children.drop f.placed)
      (child : ∀ {i c}, o.Child id i c → children[i]? = some (source c))
      (explained : f.join.Explained s children
        (fun i => i < f.placed ∧ ∀ c, ¬ o.Child id i c) kind) :
      Explains o s source id (.joining f stack)
  | responded {r : Response} {result : Except WorkflowError Value}
      (permits : Permits s (source id) result) (outcome : r.outcome = result.mapError .error) :
      Explains o s source id (.responded r)

variable {o o' : Outline} {s : Surroundings} {source source' : EvaluationId → Workflow}
  {id : EvaluationId} {e : Evaluation} {phase : Phase}

/-- Only the evaluation itself and its children count. -/
theorem Explains.congr (h : o.Explains s source id phase) (hid : source' id = source id)
    (hc : ∀ {i c}, o'.Child id i c ↔ o.Child id i c)
    (hs : ∀ {i c}, o.Child id i c → source' c = source c) : o'.Explains s source' id phase := by
  cases h with
  | queued => exact .queued
  | accepted decoded => exact .accepted (hid ▸ decoded)
  | running pursues => exact .running (hid ▸ pursues)
  | operating calm within => exact .operating calm (hid ▸ within)
  | joining within waiting child explained =>
    refine .joining (hid ▸ within) waiting (fun hchild => ?_) (explained.mono fun i hi => ?_)
    · rw [hs (hc.1 hchild)]
      exact child (hc.1 hchild)
    · exact ⟨hi.1, fun c hchild => hi.2 c (hc.2 hchild)⟩
  | responded permits outcome => exact .responded (hid ▸ permits) outcome

/-- A step of the machine, whatever it leads to within this evaluation. -/
theorem Explains.machine {m : Machine} {worker : WorkerId} (calm : s.registry.Calm)
    (pursues : m.Pursues s (source id))
    (leads : (Cluster.Turn.step m).Leads { s with worker } phase)
    (survives : ∀ {outcome}, m.step s.registry = .finished outcome →
      Outcome.decode outcome.encode = outcome) : o.Explains s source id phase := by
  have hm := pursues.step calm
  cases leads with
  | next h =>
    rw [h] at hm
    exact .running hm
  | finished h =>
    rw [h] at hm
    obtain ⟨r, permits, rfl⟩ := hm
    exact .responded permits (survives h)
  | aborted h =>
    rw [h] at hm
    exact hm.elim
  | @childless _ kind stack h =>
    rw [h] at hm
    obtain ⟨r, permits, hr⟩ :=
      (Join.explained_start s kind []).outcome (fun i hi => absurd hi (Nat.not_lt_zero i))
    rw [List.length_nil] at hr
    rw [hr]
    have within := (Machine.within_plug (.of_permits permits) stack).trans hm
    exact .running (Machine.pursues_resume within)
  | @immediate _ op stack r h he =>
    rw [h] at hm
    have permits : Permits s (.perform op) r := .perform worker (he ▸ .immediate r)
    have within := (Machine.within_plug (.of_permits permits) stack).trans hm
    exact .running (Machine.pursues_resume within)
  | @guarded _ op stack p h he =>
    rw [h] at hm
    refine .operating ?_ fun r hr => ?_
    · have hcalm := Operation.calm_effect (s := { s with worker }) calm op
      rw [he] at hcalm
      exact hcalm
    · have permits : Permits s (.perform op) r := .perform worker (he ▸ hr)
      exact (Machine.within_plug (.of_permits permits) stack).trans hm

/-- A turn leads from one phase of the workflow to another one. -/
theorem Explains.turn {worker : WorkerId} {t : Cluster.Turn} (h : o.Explains s source id e.phase)
    (calm : s.registry.Calm) (free : o.scopes.isCancelled e.scope = false)
    (turn : t.Follows o.scopes e) (leads : t.Leads { s with worker } phase)
    (childless : o.Childless id)
    (survives : ∀ {m outcome}, e.phase = .running m → m.step s.registry = .finished outcome →
      Outcome.decode outcome.encode = outcome) : o.Explains s source id phase := by
  cases turn with
  | started accepted decoded =>
    cases leads
    rw [accepted] at h
    cases h with
    | accepted hd =>
      cases decoded.symm.trans hd
      exact .running (Machine.pursues_start s _)
  | undecoded accepted decoded =>
    rw [accepted] at h
    cases h with
    | accepted hd => cases decoded.symm.trans hd
  | stopped running cancelled => simp [free] at cancelled
  | steps running =>
    rw [running] at h
    cases h with
    | running pursues => exact .machine calm pursues leads (survives running)
  | interrupted operating cancelled => simp [free] at cancelled
  | @returned v due stack operating =>
    cases leads
    rw [operating] at h
    cases h with
    | operating _ within =>
      exact .running (Machine.pursues_resume (within (.ok v) (.ok (.done _))))
  | @failed err due stack operating =>
    cases leads
    rw [operating] at h
    cases h with
    | operating _ within =>
      exact .running (Machine.pursues_resume (within (.error err) (.failed (.done _))))
  | @aborted message due stack operating =>
    rw [operating] at h
    cases h with
    | operating mild _ => exact absurd (.done _) (mild message)
  | asks operating =>
    rw [operating] at h
    cases h with
    | operating mild within =>
      cases leads with
      | paused => exact .operating mild within
      | answered answer =>
        refine .operating (fun message hm => mild message (.ask answer hm)) fun r hr => ?_
        cases hr with
        | ok gives => exact within _ (.ok (.ask answer gives))
        | failed gives => exact within _ (.failed (.ask answer gives))
  | places joining waiting => cases leads
  | @joined f stack joining placed arrived =>
    cases leads
    rw [joining] at h
    cases h with
    | @joining _ _ kind children within waiting child explained =>
      have all : ∀ i < children.length, i < f.placed ∧ ∀ c, ¬ o.Child id i c := by
        have hlen : children.length ≤ f.placed := by
          rw [← List.drop_eq_nil_iff, ← waiting, placed]
        exact fun i hi => ⟨by omega, childless i⟩
      obtain ⟨r, permits, hr⟩ := explained.outcome all
      rw [free, hr]
      exact .running
        (Machine.pursues_resume ((Machine.within_plug (.of_permits permits) stack).trans within))

/-- One of the children that wait is placed. -/
theorem Explains.placed {id : EvaluationId} {f : Fork} {v : Workflow} {rest : List Workflow}
    {stack : List Frame} (h : o.Explains s source id (.joining f stack))
    (waiting : f.waiting = v :: rest) (fresh : o.evaluations.get? ⟨o.newId⟩ = none)
    (hid : id ≠ ⟨o.newId⟩)
    (hchild : ∀ {i c}, o'.Child id i c ↔ o.Child id i c ∨ (i = f.placed ∧ c = ⟨o.newId⟩)) :
    o'.Explains s (Function.update source ⟨o.newId⟩ v) id
      (.joining { f with placed := f.placed + 1, waiting := rest } stack) := by
  cases h with
  | @joining _ _ kind children within left child explained =>
    have hdrop : children.drop f.placed = v :: rest := left ▸ waiting
    refine .joining ?_ ?_ ?_ (explained.mono fun i hi => absent_of_placed hchild hi.1 hi.2)
    · rw [Function.update_of_ne hid]
      exact within
    · rw [← List.tail_drop, hdrop, List.tail_cons]
    · intro i c hc
      rcases hchild.1 hc with ⟨ce, hce, hparent⟩ | ⟨rfl, rfl⟩
      · rw [Function.update_of_ne]
        · exact child ⟨ce, hce, hparent⟩
        · rintro rfl
          cases hce.symm.trans fresh
      · rw [Function.update_self, ← List.head?_drop, hdrop, List.head?_cons]

/-- The outcome of a child arrives, which is explained unless the join has been decided. -/
theorem Explains.received {id c : EvaluationId} {i : Nat} {f : Fork} {stack : List Frame}
    {outcome : Outcome} (h : o.Explains s source id (.joining f stack)) (hc : o.Child id i c)
    (hchild : ∀ {k c'}, o'.Child id k c' ↔ o.Child id k c' ∧ c' ≠ c)
    (unique : ∀ {k}, o.Child id k c → k = i)
    (settled : f.join.Decided ∨
      ∃ r : Except WorkflowError Value, Permits s (source c) r ∧ outcome = r.mapError .error) :
    o'.Explains s source id
      (.joining
        { f with
          join := (f.join.receive i outcome).2
          missing := f.missing - 1 } stack) := by
  cases h with
  | joining within waiting child explained =>
    refine .joining within waiting (fun hk => child (hchild.1 hk).1) ?_
    rcases settled with decided | ⟨r, permits, rfl⟩
    · exact explained.receive_decided decided i outcome
    · refine (explained.receive (child hc) permits).mono fun k hk => ?_
      exact (absent_of_received hchild unique hk.2).imp_right (⟨hk.1, ·⟩)

/-- The explanations of evaluations that get no child stay as they are. -/
theorem Dispatched.explains {job : JobId} {parent : Option Parent} {scope : Scope} {v : Workflow}
    (sent : o.Dispatched job parent scope v o') (fresh : o.evaluations.get? ⟨o.newId⟩ = none)
    {id : EvaluationId} {phase : Phase} (h : o.Explains s source id phase)
    (hid : id ≠ ⟨o.newId⟩) (hp : ∀ i, parent ≠ some ⟨id, i⟩) :
    o'.Explains s (Function.update source ⟨o.newId⟩ v) id phase := by
  refine h.congr (Function.update_of_ne hid _ _) ?_ ?_
  · intro i c
    rw [sent.child fresh]
    simp [hp i]
  · rintro i c ⟨e, live, -⟩
    refine Function.update_of_ne ?_ _ _
    rintro rfl
    cases live.symm.trans fresh

end Outline

end WorkflowEngine
