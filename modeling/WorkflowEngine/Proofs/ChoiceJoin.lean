import WorkflowEngine.Proofs.Arrivals
/-!
The join of a choice: the first outcome that is an error or a value other than null counts, and
nothing that arrives after it. Without any it comes to null, unless its scope is cancelled.
-/
set_option autoImplicit false

namespace WorkflowEngine

namespace Join

/-- Outcomes that a choice passes over. -/
def Passed (o : Outcome) : Prop := o = .ok .null ∨ o = .error .cancelled

/-- What a choice comes to, by what has arrived and by whether the scope around it is cancelled. -/
inductive ChoiceResult (cancelled : Bool) (arrivals : Arrivals) : Outcome → Prop
  | decided {before after : Arrivals} {i : Nat} {r : Except WorkflowError Value}
      (split : arrivals = before ++ (i, r.mapError .error) :: after) (found : r ≠ .ok .null)
      (first : ∀ a ∈ before, Passed a.2) : ChoiceResult cancelled arrivals (r.mapError .error)
  | cancelled (all : ∀ a ∈ arrivals, Passed a.2) (around : cancelled = true) :
      ChoiceResult cancelled arrivals (.error .cancelled)
  | null (all : ∀ a ∈ arrivals, Passed a.2) (around : cancelled = false) :
      ChoiceResult cancelled arrivals (.ok .null)

/-- What an outcome decides a choice with. -/
def found? : Outcome → Option (Except WorkflowError Value)
  | .ok v => if v.isNull then none else some (.ok v)
  | .error (.error e) => some (.error e)
  | .error .cancelled => none

theorem found?_eq_none {o : Outcome} : found? o = none ↔ Passed o := by
  match o with
  | .ok v =>
    cases null : v.isNull with
    | true =>
      cases Value.eq_null_of_isNull null
      exact ⟨fun _ => .inl rfl, fun _ => rfl⟩
    | false =>
      have hv : v ≠ .null := by
        rintro rfl
        cases null
      simp [found?, null, Passed, hv]
  | .error (.error e) => simp [found?, Passed]
  | .error .cancelled => simp [found?, Passed]

theorem found?_eq_some {o : Outcome} {r : Except WorkflowError Value} (h : found? o = some r) :
    o = r.mapError .error ∧ r ≠ .ok .null := by
  match o with
  | .ok v =>
    simp only [found?] at h
    split at h
    · cases h
    · next found =>
      cases h
      refine ⟨rfl, ?_⟩
      rintro ⟨⟩
      exact found rfl
  | .error (.error e) =>
    cases h
    exact ⟨rfl, nofun⟩
  | .error .cancelled => cases h

theorem receiveAll_choice (decision : Option (Except WorkflowError Value)) (arrivals : Arrivals) :
    (Join.choice decision).receiveAll arrivals =
      .choice (decision.or (arrivals.findSome? fun a => found? a.2)) := by
  induction arrivals generalizing decision with
  | nil => cases decision <;> rfl
  | cons a rest ih =>
    obtain ⟨i, o⟩ := a
    match decision, o with
    | some r, .ok v => exact ih _
    | some r, .error (.error e) => exact ih _
    | some r, .error .cancelled => exact ih _
    | none, .error (.error e) => exact ih _
    | none, .error .cancelled => exact ih _
    | none, .ok v =>
      cases null : v.isNull with
      | true => simpa [receiveAll, Join.receive, found?, null] using ih none
      | false => simpa [receiveAll, Join.receive, found?, null] using ih (some (.ok v))

theorem decided_choice (count : Nat) (arrivals : Arrivals) :
    ((Join.start .choice count).receiveAll arrivals).Decided ↔ ∃ a ∈ arrivals, ¬ Passed a.2 := by
  have h : ((Join.start .choice count).receiveAll arrivals).Decided ↔
      ¬ arrivals.findSome? (fun a => found? a.2) = none := by
    rw [Join.start, receiveAll_choice]
    exact Option.isSome_iff_ne_none
  rw [h, List.findSome?_eq_none_iff]
  simp only [found?_eq_none]
  push Not
  rfl

/-- Whatever the order in which the children arrive, the join ends with what they come to. -/
theorem choiceResult (count : Nat) (arrivals : Arrivals) (cancelled : Bool) :
    ChoiceResult cancelled arrivals
      (((Join.start .choice count).receiveAll arrivals).outcome cancelled) := by
  rw [Join.start, receiveAll_choice, Option.none_or]
  cases decision : arrivals.findSome? fun a => found? a.2 with
  | some r =>
    obtain ⟨before, ⟨i, o⟩, after, split, ho, first⟩ := List.findSome?_eq_some_iff.1 decision
    obtain ⟨rfl, found⟩ := found?_eq_some ho
    have decided : ChoiceResult cancelled arrivals (r.mapError .error) :=
      .decided split found fun a ha => found?_eq_none.1 (first a ha)
    cases r <;> exact decided
  | none =>
    have all : ∀ a ∈ arrivals, Passed a.2 := fun a ha =>
      found?_eq_none.1 (List.findSome?_eq_none_iff.1 decision a ha)
    cases cancelled with
    | true => exact .cancelled all rfl
    | false => exact .null all rfl

end Join

namespace Outline

variable {o o' : Outline} {id : EvaluationId}

theorem Reports.ends {outcome : Outcome} (h : o.Reports o' id outcome) : ¬ o'.Joining id := by
  obtain ⟨_, _, _, e, -, -, live, running⟩ := h
  rintro ⟨e', f, stack, live', joining⟩
  cases live.symm.trans live'
  cases running.symm.trans joining

theorem Reports.joining {outcome : Outcome} (h : o.Reports o' id outcome) : o.Joining id := by
  obtain ⟨e, f, stack, _, live, joining, -⟩ := h
  exact ⟨e, f, stack, live, joining⟩

theorem Reports.unique {outcome outcome' : Outcome} (h : o.Reports o' id outcome)
    (h' : o.Reports o' id outcome') : outcome = outcome' := by
  obtain ⟨_, _, _, e, -, -, live, running⟩ := h
  obtain ⟨_, _, _, e', -, -, live', running'⟩ := h'
  cases live.symm.trans live'
  cases running.symm.trans running'
  rfl

end Outline

namespace Cluster

/-- What is given to a fork other than null keeps it from null, as long as the fork waits. -/
theorem Gathers.decisive {registry : Registry} {config : EngineConfig} {backend : Backend}
    {sink : LogSink} {id : EvaluationId} {c₀ c : Cluster} {arrivals : Arrivals}
    (begun : Reaches (start registry config backend sink) c₀) (gathers : Gathers id c₀ arrivals c)
    (ids : c.nextId < Uuid.supply) (found : ∃ a ∈ arrivals, a.2 ≠ .ok .null) :
    c.outline.Decisive id := by
  induction gathers with
  | opened =>
    obtain ⟨a, ⟨⟩, -⟩ := found
  | step run waits next ih =>
    have hstart := consistent_start registry config backend sink
    have hids := Nat.lt_of_le_of_lt (nextId_after next) ids
    have reached := begun.trans run.run.reaches
    have hc := reached.consistent hstart hids
    have s := step_of_after hc next
    obtain ⟨a, ha, hne⟩ := found
    rcases List.mem_append.1 ha with before | now
    · exact (ih hids ⟨a, before, hne⟩).step waits hc s
    · obtain ⟨role, hr⟩ := reached.numbered hstart hids
        (numbered_start registry config backend sink)
      have hu := reached.untouched hstart hids (numbered_start registry config backend sink)
        (untouched_start registry config backend sink)
      exact s.decisive hr hu hc (Outline.gives_of_given now) hne

/-- The join of a choice, for every order in which outcomes may arrive, and what it does in every
run. Unless the scope around it is cancelled it comes to null exactly when every child has. -/
theorem choice_join :
    (∀ count arrivals cancelled, Join.ChoiceResult cancelled arrivals
      (((Join.start .choice count).receiveAll arrivals).outcome cancelled)) ∧
    ∀ {registry : Registry} {config : EngineConfig} {backend : Backend} {sink : LogSink}
      {c : Cluster}, Reaches (start registry config backend sink) c → c.nextId < Uuid.supply →
      ∀ id e m children stack c₀, c.evaluations.get? id = some e → e.phase = .running m →
        c.scopes.isCancelled e.scope = false →
        m.step c.registry = .fork .choice children stack → c.step (.advance id) = some c₀ →
        (children = [] → c₀ = c.setPhase id { e with steps := e.steps + 1 }
          (.running ⟨stack, .resume (.ok .null)⟩)) ∧
        (children ≠ [] → JoinsAll c₀ id e.scope (c.scopes.child e.scope).1 stack children
          (fun arrivals => ∃ a ∈ arrivals, ¬ Join.Passed a.2) Join.ChoiceResult ∧
          ∀ arrivals c₁ ev c₂ outcome, Gathers id c₀ arrivals c₁ → c₁.nextId < Uuid.supply →
            c₁.after ev = some c₂ → c₁.outline.Reports c₂.outline id outcome →
            c₁.scopes.isCancelled e.scope = false →
            (outcome = .ok .null ↔ ∀ a ∈ arrivals, a.2 = .ok .null)) := by
  refine ⟨fun count arrivals cancelled => Join.choiceResult count arrivals cancelled, ?_⟩
  intro registry config backend sink c run ids id e m children stack c₀ live running free forks next
  constructor
  · rintro rfl
    exact Option.some.inj (next.symm.trans (step_childless live running free forks))
  · intro some
    obtain ⟨first, rest, rfl⟩ := List.exists_cons_of_ne_nil some
    have join := joinsAll run ids live running free forks next (Join.decided_choice _)
      fun cancelled arrivals _ => Join.choiceResult _ arrivals cancelled
    refine ⟨join, ?_⟩
    intro arrivals c₁ ev c₂ outcome gathers ids₁ after reports stays
    have next' : c.after (.move (.advance id)) = Option.some c₀ := next
    have begun : Reaches (start registry config backend sink) c₀ := run.step trivial next'
    have hstart := consistent_start registry config backend sink
    have reached := begun.trans gathers.run.reaches
    have hc := reached.consistent hstart ids₁
    have hu := reached.untouched hstart ids₁ (numbered_start registry config backend sink)
      (untouched_start registry config backend sink)
    obtain ⟨-, outcome', reports', result⟩ :=
      join.returns _ _ _ _ gathers ids₁ reports.joining after reports.ends
    cases reports.unique reports'
    constructor
    · rintro rfl a ha
      by_contra hne
      have decisive := gathers.decisive begun ids₁ ⟨a, ha, hne⟩
      exact (step_of_after hc after).reports_null hu hc decisive reports
    · intro all
      rw [stays] at result
      cases result with
      | @decided before after i r split found first =>
        have hr := all (i, r.mapError .error) (by simp [split])
        cases r with
        | ok v => exact hr
        | error err => cases hr
      | cancelled all' around => cases around
      | null all' around => rfl

/-- The first of two children gives a value, and the other one is cancelled for it. -/
theorem choice_join_finds : ∃ (c₀ c₁ c₂ : Cluster) (outcome : Outcome),
    Gathers ⟨Uuid.fresh 1⟩ c₀ [(0, .ok (.bool true)), (1, .error .cancelled)] c₁ ∧
      c₁.outline.Reports c₂.outline ⟨Uuid.fresh 1⟩ outcome ∧
      Join.ChoiceResult false [(0, .ok (.bool true)), (1, .error .cancelled)] outcome ∧
      outcome ≠ .ok .null := by
  have sent : Workflow.decode (Workflow.choice [.ret (.bool true), .ret .null]).encode =
      .ok (.choice [.ret (.bool true), .ret .null]) := by cbv
  have sent₁ : Workflow.decode (Workflow.ret (.bool true)).encode = .ok (.ret (.bool true)) := by
    cbv
  have sent₂ : Workflow.decode (Workflow.ret .null).encode = .ok (.ret .null) := by cbv
  have found : (Response.reply (Outcome.encode (.ok (.bool true)))).outcome = .ok (.bool true) := by
    cbv
  have submitted : Reaches (start {} {} (.memory .empty) (.memory .empty)) _ :=
    .single trivial (rfl : Cluster.after _
      (.submit "job" (.choice [.ret (.bool true), .ret .null])) = _)
  have begun := submitted.step trivial
    (rfl : Cluster.after _ (.move (.begin ⟨Uuid.fresh 0⟩)) = some _)
  have received := begun.step trivial (rfl : Cluster.after _ (.move (.receive 0)) = some _)
  have started := received.step trivial (after_accepted ⟨Uuid.fresh 1⟩ rfl rfl sent)
  obtain ⟨join, null⟩ := (choice_join.2 started (by decide) ⟨Uuid.fresh 1⟩ _ _ _ _ _ rfl rfl rfl rfl
    rfl).2 (List.cons_ne_nil _ _)
  have first := join.opened.idle ⟨_, _, _, rfl, rfl⟩
    (rfl : Cluster.after _ (.move (.advance ⟨Uuid.fresh 1⟩)) = some _) rfl
  have second := first.idle ⟨_, _, _, rfl, rfl⟩
    (rfl : Cluster.after _ (.move (.advance ⟨Uuid.fresh 1⟩)) = some _) rfl
  have accepted₁ := second.idle ⟨_, _, _, rfl, rfl⟩
    (rfl : Cluster.after _ (.move (.receive 1)) = some _) rfl
  have accepted₂ := accepted₁.idle ⟨_, _, _, rfl, rfl⟩
    (rfl : Cluster.after _ (.move (.receive 2)) = some _) rfl
  have started₁ := accepted₂.idle ⟨_, _, _, rfl, rfl⟩
    (after_accepted ⟨Uuid.fresh 2⟩ rfl rfl sent₁) rfl
  have started₂ := started₁.idle ⟨_, _, _, rfl, rfl⟩
    (after_accepted ⟨Uuid.fresh 3⟩ rfl rfl sent₂) rfl
  have stepped := started₂.idle ⟨_, _, _, rfl, rfl⟩
    (rfl : Cluster.after _ (.move (.advance ⟨Uuid.fresh 2⟩)) = some _) rfl
  have replied := stepped.idle ⟨_, _, _, rfl, rfl⟩
    (rfl : Cluster.after _ (.move (.advance ⟨Uuid.fresh 2⟩)) = some _) rfl
  have decided := replied.arrival ⟨_, _, _, rfl, rfl⟩
    (after_collected ⟨Uuid.fresh 2⟩ rfl rfl rfl rfl found) (congrArg (fun o => [(0, o)]) found)
  have stopped := decided.idle ⟨_, _, _, rfl, rfl⟩
    (rfl : Cluster.after _ (.move (.advance ⟨Uuid.fresh 3⟩)) = some _) rfl
  have collected := stopped.arrival ⟨_, _, _, rfl, rfl⟩
    (after_collected ⟨Uuid.fresh 3⟩ rfl rfl rfl rfl decode_cancelled)
    (congrArg (fun o => [(1, o)]) decode_cancelled)
  have all : List.Perm [0, 1] (List.range 2) := by decide
  obtain ⟨c₂, next, ends⟩ := join.goesOn _ _ collected (by decide) ⟨_, _, _, rfl, rfl⟩ all
  obtain ⟨-, outcome, reports, result⟩ :=
    join.returns _ _ _ _ collected (by decide) ⟨_, _, _, rfl, rfl⟩ next ends
  have value := null _ _ _ _ _ collected (by decide) next reports rfl
  refine ⟨_, _, c₂, outcome, collected, reports, result, fun h => ?_⟩
  cases value.1 h _ (List.mem_cons_self ..)

end Cluster

end WorkflowEngine
