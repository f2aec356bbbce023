import WorkflowEngine.Proofs.Arrivals
import WorkflowEngine.Proofs.OutcomeCodec
/-!
The join of parallel children: the first error that arrives counts, whatever arrives before and
after it; without an error every child has to give a value.
-/
set_option autoImplicit false

namespace WorkflowEngine

namespace Join

/-- What parallel children come to, by what has arrived from all of them. -/
inductive ParallelResult (count : Nat) (arrivals : Arrivals) : Outcome → Prop
  | failed {before after : Arrivals} {i : Nat} {e : WorkflowError}
      (split : arrivals = before ++ (i, .error (.error e)) :: after)
      (first : ∀ a ∈ before, ∀ d, a.2 ≠ .error (.error d)) :
      ParallelResult count arrivals (.error (.error e))
  | cancelled {i : Nat} (errorless : ∀ a ∈ arrivals, ∀ e, a.2 ≠ .error (.error e))
      (hole : (i, .error .cancelled) ∈ arrivals) : ParallelResult count arrivals (.error .cancelled)
  | values {vs : List Value} (size : vs.length = count)
      (each : ∀ a ∈ arrivals, ∃ v, a.2 = .ok v ∧ vs[a.1]? = some v) :
      ParallelResult count arrivals (.ok (.array vs))

/-- The error among outcomes that arrives first. -/
def firstError (arrivals : Arrivals) : Option WorkflowError :=
  arrivals.findSome? fun a =>
    match a.2 with
    | .error (.error e) => some e
    | _ => none

/-- Values put in their places. -/
def fill (values : List (Option Value)) (arrivals : Arrivals) : List (Option Value) :=
  arrivals.foldl (fun values a =>
    match a.2 with
    | .ok v => values.set a.1 (some v)
    | .error _ => values) values

theorem receiveAll_parallel (values : List (Option Value)) (failure : Option WorkflowError)
    (arrivals : Arrivals) :
    (Join.parallel values failure).receiveAll arrivals =
      .parallel (fill values arrivals) (failure.or (firstError arrivals)) := by
  induction arrivals generalizing values failure with
  | nil => cases failure <;> rfl
  | cons a rest ih =>
    obtain ⟨i, o⟩ := a
    cases o with
    | ok v => exact ih (values.set i (some v)) failure
    | error f =>
      cases f with
      | cancelled => cases failure <;> exact ih values _
      | error e => cases failure <;> exact ih values _

theorem length_fill (values : List (Option Value)) (arrivals : Arrivals) :
    (fill values arrivals).length = values.length := by
  induction arrivals generalizing values with
  | nil => rfl
  | cons a rest ih =>
    obtain ⟨i, o⟩ := a
    cases o with
    | ok v => exact (ih _).trans (List.length_set ..)
    | error f => exact ih values

theorem getElem?_fill_of_notMem {values : List (Option Value)} {arrivals : Arrivals} {i : Nat}
    (absent : i ∉ arrivals.map Prod.fst) : (fill values arrivals)[i]? = values[i]? := by
  induction arrivals generalizing values with
  | nil => rfl
  | cons a rest ih =>
    obtain ⟨k, o⟩ := a
    have hne : k ≠ i := fun h => absent (h ▸ List.mem_cons_self)
    have hrest : i ∉ rest.map Prod.fst := fun h => absent (List.mem_cons_of_mem k h)
    cases o with
    | ok v => exact (ih hrest).trans (List.getElem?_set_ne hne)
    | error f => exact ih hrest

/-- What arrives for an index, once, is what stands there in the end. -/
theorem getElem?_fill {values : List (Option Value)} {arrivals : Arrivals} {i : Nat} {o : Outcome}
    (once : (arrivals.map Prod.fst).Nodup) (arrives : (i, o) ∈ arrivals)
    (place : values[i]? = some none) : (fill values arrivals)[i]? = some o.toOption := by
  induction arrivals generalizing values with
  | nil => cases arrives
  | cons a rest ih =>
    obtain ⟨absent, hrest⟩ := List.nodup_cons.1 once
    rcases List.mem_cons.1 arrives with rfl | hmem
    · refine (getElem?_fill_of_notMem absent).trans ?_
      cases o with
      | ok v =>
        obtain ⟨hi, -⟩ := List.getElem?_eq_some_iff.1 place
        exact List.getElem?_set_self hi
      | error f => exact place
    · obtain ⟨k, o'⟩ := a
      have hne : k ≠ i := by
        rintro rfl
        exact absent (List.mem_map.2 ⟨_, hmem, rfl⟩)
      refine ih hrest hmem ?_
      cases o' with
      | ok v => exact (List.getElem?_set_ne hne).trans place
      | error f => exact place

theorem firstError_eq_none {arrivals : Arrivals} :
    firstError arrivals = none ↔ ∀ a ∈ arrivals, ∀ e, a.2 ≠ .error (.error e) := by
  refine List.findSome?_eq_none_iff.trans (forall₂_congr fun a _ => ?_)
  split
  · next e he => simp [he]
  · next other => exact ⟨fun _ e he => other e he, fun _ => rfl⟩

theorem decided_parallel (count : Nat) (arrivals : Arrivals) :
    ((Join.start .parallel count).receiveAll arrivals).Decided ↔
      ∃ i e, (i, .error (.error e)) ∈ arrivals := by
  have h : ((Join.start .parallel count).receiveAll arrivals).Decided ↔
      ¬ firstError arrivals = none := by
    rw [Join.start, receiveAll_parallel]
    exact Option.isSome_iff_ne_none
  rw [h, firstError_eq_none]
  push Not
  constructor
  · rintro ⟨a, ha, e, he⟩
    exact ⟨a.1, e, he ▸ ha⟩
  · rintro ⟨i, e, ha⟩
    exact ⟨_, ha, e, rfl⟩

theorem exists_hole {values : List (Option Value)} (h : allValues values = none) :
    ∃ i : Nat, values[i]? = some none := by
  by_contra hne
  push Not at hne
  have given : ∀ i < values.length, ∃ v, values[i]? = some (some v) := by
    intro i hi
    have hget : values[i]? = some values[i] := List.getElem?_eq_getElem hi
    cases hv : values[i] with
    | none => exact absurd (hget.trans (congrArg some hv)) (hne i)
    | some v => exact ⟨v, hget.trans (congrArg some hv)⟩
  obtain ⟨vs, rfl⟩ := exists_values given
  rw [allValues_map_some] at h
  cases h

theorem eq_of_allValues {values : List (Option Value)} {vs : List Value}
    (h : allValues values = some vs) : values = vs.map some := by
  induction values generalizing vs with
  | nil =>
    cases h
    rfl
  | cons first rest ih =>
    cases first with
    | none => cases h
    | some v =>
      obtain ⟨ws, hw, rfl⟩ := Option.map_eq_some_iff.1 h
      rw [ih hw, List.map_cons]

/-- Whatever the order in which the children arrive, the join ends with what they come to. -/
theorem parallelResult {count : Nat} {arrivals : Arrivals}
    (all : (arrivals.map Prod.fst).Perm (List.range count)) (cancelled : Bool) :
    ParallelResult count arrivals
      (((Join.start .parallel count).receiveAll arrivals).outcome cancelled) := by
  have once : (arrivals.map Prod.fst).Nodup := all.nodup_iff.2 List.nodup_range
  rw [Join.start, receiveAll_parallel, Option.none_or]
  cases failure : firstError arrivals with
  | some e =>
    obtain ⟨before, ⟨i, o⟩, after, split, he, first⟩ := List.findSome?_eq_some_iff.1 failure
    have hfirst := firstError_eq_none.1 (List.findSome?_eq_none_iff.2 first)
    rcases o with (d | _) | v <;> cases he
    exact .failed split hfirst
  | none =>
    have errorless := firstError_eq_none.1 failure
    have places : ∀ a ∈ arrivals,
        (fill (List.replicate count none) arrivals)[a.1]? = some a.2.toOption := by
      intro a ha
      have hlt : a.1 < count :=
        List.mem_range.1 (all.mem_iff.1 (List.mem_map.2 ⟨a, ha, rfl⟩))
      exact getElem?_fill once ha (by simp [hlt])
    simp only [outcome]
    cases hvs : allValues (fill (List.replicate count none) arrivals) with
    | some vs =>
      have filled := eq_of_allValues hvs
      refine .values ?_ fun a ha => ?_
      · have size := congrArg List.length filled
        rw [length_fill, List.length_replicate, List.length_map] at size
        exact size.symm
      · have place := places a ha
        rw [filled, List.getElem?_map] at place
        obtain ⟨v, hv, ho⟩ := Option.map_eq_some_iff.1 place
        refine ⟨v, ?_, hv⟩
        cases hout : a.2 with
        | ok v' =>
          rw [hout] at ho
          cases ho
          rfl
        | error f =>
          rw [hout] at ho
          cases ho
    | none =>
      obtain ⟨i, hi⟩ := exists_hole hvs
      have hlt : i < count := by
        obtain ⟨h, -⟩ := List.getElem?_eq_some_iff.1 hi
        rwa [length_fill, List.length_replicate] at h
      obtain ⟨⟨k, o⟩, ha, rfl⟩ := List.mem_map.1 (all.mem_iff.2 (List.mem_range.2 hlt))
      have place := (places _ ha).symm.trans hi
      rcases o with (d | _) | v
      · exact absurd rfl (errorless _ ha d)
      · exact .cancelled errorless ha
      · cases place

end Join

namespace Cluster

/-- The join of parallel children, for every order in which they may arrive, and what it does in
every run. Its scope is cancelled by the first error, and it goes on when all have arrived. -/
theorem parallel_join :
    (∀ count arrivals cancelled, (arrivals.map Prod.fst).Perm (List.range count) →
      Join.ParallelResult count arrivals
        (((Join.start .parallel count).receiveAll arrivals).outcome cancelled)) ∧
    ∀ {registry : Registry} {config : EngineConfig} {backend : Backend} {sink : LogSink}
      {c : Cluster}, Reaches (start registry config backend sink) c → c.nextId < Uuid.supply →
      ∀ id e m children stack c₀, c.evaluations.get? id = some e → e.phase = .running m →
        c.scopes.isCancelled e.scope = false →
        m.step c.registry = .fork .parallel children stack → c.step (.advance id) = some c₀ →
        (children = [] → c₀ = c.setPhase id { e with steps := e.steps + 1 }
          (.running ⟨stack, .resume (.ok (.array []))⟩)) ∧
        (children ≠ [] → JoinsAll c₀ id e.scope (c.scopes.child e.scope).1 stack children
          (fun arrivals => ∃ i err, (i, .error (.error err)) ∈ arrivals)
          (fun _ => Join.ParallelResult children.length)) := by
  refine ⟨fun count arrivals cancelled all => Join.parallelResult all cancelled, ?_⟩
  intro registry config backend sink c run ids id e m children stack c₀ live running free forks next
  constructor
  · rintro rfl
    exact Option.some.inj (next.symm.trans (step_childless live running free forks))
  · intro some
    obtain ⟨first, rest, rfl⟩ := List.exists_cons_of_ne_nil some
    exact joinsAll run ids live running free forks next (Join.decided_parallel _)
      fun cancelled arrivals all => Join.parallelResult all cancelled

/-- The second of two children gives a value, then the first one fails. -/
theorem parallel_join_fails : ∃ (c₀ c₁ c₂ : Cluster) (outcome : Outcome),
    Gathers ⟨Uuid.fresh 1⟩ c₀ [(1, .ok .null), (0, .error (.error (.evaluation "no")))] c₁ ∧
      c₁.outline.Reports c₂.outline ⟨Uuid.fresh 1⟩ outcome ∧
      Join.ParallelResult 2 [(1, .ok .null), (0, .error (.error (.evaluation "no")))] outcome := by
  have exact : (WorkflowError.evaluation "no").toJson.Exact := by
    simp [WorkflowError.toJson, WorkflowError.evaluation, ErrorKind.toJson, Json.Exact,
      Json.EntriesExact]
  have exact₀ : (Workflow.parallel [.raise (.evaluation "no"), .ret .null]).toJson.Exact :=
    ⟨trivial, ⟨⟨trivial, exact, trivial⟩, ⟨trivial, trivial, trivial⟩, trivial⟩, trivial⟩
  have exact₁ : (Workflow.raise (.evaluation "no")).toJson.Exact := ⟨trivial, exact, trivial⟩
  have exact₂ : (Outcome.toJson (.error (.error (.evaluation "no")))).Exact :=
    ⟨⟨trivial, exact, trivial⟩, trivial⟩
  have sent₀ := (Workflow.decode_text _ exact₀).trans (if_pos (by decide +kernel))
  have sent₁ := (Workflow.decode_text _ exact₁).trans (if_pos (by decide +kernel))
  have sent₂ : Workflow.decode (Workflow.ret .null).encode = .ok (.ret .null) := by cbv
  have failed := (Outcome.decode_text _ exact₂).trans (if_pos (by decide +kernel))
  have value : (Response.reply (Outcome.encode (.ok .null))).outcome = .ok .null := by cbv
  have submitted : Reaches (start {} {} (.memory .empty) (.memory .empty)) _ :=
    .single trivial (rfl : Cluster.after _
      (.submit "job" (.parallel [.raise (.evaluation "no"), .ret .null])) = _)
  have begun := submitted.step trivial
    (rfl : Cluster.after _ (.move (.begin ⟨Uuid.fresh 0⟩)) = some _)
  have received := begun.step trivial (rfl : Cluster.after _ (.move (.receive 0)) = some _)
  have started := received.step trivial (after_accepted ⟨Uuid.fresh 1⟩ rfl rfl sent₀)
  have join := (parallel_join.2 started (by decide) ⟨Uuid.fresh 1⟩ _ _ _ _ _ rfl rfl rfl rfl
    rfl).2 (List.cons_ne_nil _ _)
  have first := join.opened.idle ⟨_, _, _, rfl, rfl⟩
    (rfl : Cluster.after _ (.move (.advance ⟨Uuid.fresh 1⟩)) = some _) rfl
  have second := first.idle ⟨_, _, _, rfl, rfl⟩
    (rfl : Cluster.after _ (.move (.advance ⟨Uuid.fresh 1⟩)) = some _) rfl
  have accepted₁ := second.idle ⟨_, _, _, rfl, rfl⟩
    (rfl : Cluster.after _ (.move (.receive 1)) = some _) rfl
  have accepted₂ := accepted₁.idle ⟨_, _, _, rfl, rfl⟩
    (rfl : Cluster.after _ (.move (.receive 2)) = some _) rfl
  have started₂ := accepted₂.idle ⟨_, _, _, rfl, rfl⟩
    (after_accepted ⟨Uuid.fresh 3⟩ rfl rfl sent₂) rfl
  have stepped₂ := started₂.idle ⟨_, _, _, rfl, rfl⟩
    (rfl : Cluster.after _ (.move (.advance ⟨Uuid.fresh 3⟩)) = some _) rfl
  have replied₂ := stepped₂.idle ⟨_, _, _, rfl, rfl⟩
    (rfl : Cluster.after _ (.move (.advance ⟨Uuid.fresh 3⟩)) = some _) rfl
  have collected₂ := replied₂.arrival ⟨_, _, _, rfl, rfl⟩
    (after_collected ⟨Uuid.fresh 3⟩ rfl rfl rfl rfl value) (congrArg (fun o => [(1, o)]) value)
  have started₁ := collected₂.idle ⟨_, _, _, rfl, rfl⟩
    (after_accepted ⟨Uuid.fresh 2⟩ rfl rfl sent₁) rfl
  have stepped₁ := started₁.idle ⟨_, _, _, rfl, rfl⟩
    (rfl : Cluster.after _ (.move (.advance ⟨Uuid.fresh 2⟩)) = some _) rfl
  have replied₁ := stepped₁.idle ⟨_, _, _, rfl, rfl⟩
    (rfl : Cluster.after _ (.move (.advance ⟨Uuid.fresh 2⟩)) = some _) rfl
  have collected₁ := replied₁.arrival ⟨_, _, _, rfl, rfl⟩
    (after_collected ⟨Uuid.fresh 2⟩ rfl rfl rfl rfl failed) (congrArg (fun o => [(0, o)]) failed)
  have all : List.Perm [1, 0] (List.range 2) := by decide
  obtain ⟨c₂, next, ends⟩ := join.goesOn _ _ collected₁ (by decide) ⟨_, _, _, rfl, rfl⟩ all
  obtain ⟨-, outcome, reports, result⟩ :=
    join.returns _ _ _ _ collected₁ (by decide) ⟨_, _, _, rfl, rfl⟩ next ends
  exact ⟨_, _, c₂, outcome, collected₁, reports, result⟩

end Cluster

end WorkflowEngine
