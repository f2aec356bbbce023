import WorkflowEngine.Proofs.Durations
import WorkflowEngine.Proofs.Joins
/-!
Forks in time. A fork whose children end at the moments they should is decided at the moment and
with the result that its children settle on, in whatever order outcomes of one moment arrive.
-/
set_option autoImplicit false

namespace WorkflowEngine

namespace Join

/-- A join that no outcome so far has decided holds what has arrived. -/
inductive Gathers (τs : List Timing) (arrived : Nat → Prop) : ForkKind → Join → Prop
  | values {values : List (Option Value)} (size : values.length = τs.length)
      (each : ∀ {i : Nat} {τ : Timing}, τs[i]? = some τ → arrived i →
        ∃ v, τ.result = .ok v ∧ values[i]? = some (some v)) :
      Gathers τs arrived .parallel (.parallel values none)
  | nulls (each : ∀ {i : Nat} {τ : Timing}, τs[i]? = some τ → arrived i → τ.result = .ok .null) :
      Gathers τs arrived .choice (.choice none)

variable {τs : List Timing} {arrived arrived' : Nat → Prop} {kind : ForkKind} {j : Join}
  {y : Except WorkflowError Value} {i : Nat} {τ : Timing}

theorem gathers_start (kind : ForkKind) (τs : List Timing) :
    Gathers τs (fun _ => False) kind (.start kind τs.length) := by
  cases kind with
  | parallel => exact .values (List.length_replicate ..) fun _ h => h.elim
  | choice => exact .nulls fun _ h => h.elim

theorem Gathers.mono (h : Gathers τs arrived kind j) (hi : ∀ i, arrived' i → arrived i) :
    Gathers τs arrived' kind j := by
  cases h with
  | values size each => exact .values size fun hτ ha => each hτ (hi _ ha)
  | nulls each => exact .nulls fun hτ ha => each hτ (hi _ ha)

theorem Gathers.not_decides (h : Gathers τs arrived kind j) (child : τs[i]? = some τ)
    (here : arrived i) : ¬ kind.DecidedBy τ.result := by
  cases h with
  | values size each =>
    obtain ⟨v, hv, -⟩ := each child here
    rw [hv]
    exact id
  | nulls each =>
    rw [each child here]
    exact ForkKind.not_decidedBy_null .choice

theorem Gathers.not_decided (h : Gathers τs arrived kind j) : ¬ j.Decided := by
  cases h with
  | values size each => exact Bool.false_ne_true
  | nulls each => exact Bool.false_ne_true

/-- The first result that decides is the one of the join. -/
theorem Gathers.receive_decides (h : Gathers τs arrived kind j) (i : Nat)
    (decides : kind.DecidedBy y) :
    (j.receive i (y.mapError .error)).2.Decided ∧
      (j.receive i (y.mapError .error)).2.outcome false = y.mapError .error := by
  cases h with
  | values size each =>
    cases y with
    | ok v => exact decides.elim
    | error e => exact ⟨rfl, rfl⟩
  | nulls each =>
    cases y with
    | ok v =>
      have found : v.isNull = false := decides
      simp [Except.mapError, Join.receive, found, Decided, outcome]
    | error e => exact ⟨rfl, rfl⟩

theorem Gathers.receive (h : Gathers τs arrived kind j) (child : τs[i]? = some τ)
    (open_ended : ¬ kind.DecidedBy τ.result) :
    Gathers τs (fun k => k = i ∨ arrived k) kind (j.receive i (τ.result.mapError .error)).2 := by
  obtain ⟨y, t⟩ := τ
  cases h with
  | @values values size each =>
    cases y with
    | error e => exact absurd trivial open_ended
    | ok v =>
      have hi : i < values.length := size ▸ (List.getElem?_eq_some_iff.1 child).1
      refine .values (by simpa using size) fun {k σ} hσ here => ?_
      by_cases hk : i = k
      · subst hk
        cases child.symm.trans hσ
        exact ⟨v, rfl, List.getElem?_set_self hi⟩
      · obtain ⟨u, hu, hv⟩ := each hσ (here.resolve_left (Ne.symm hk))
        exact ⟨u, hu, by rw [List.getElem?_set_ne hk, hv]⟩
  | nulls each =>
    cases y with
    | error e => exact absurd trivial open_ended
    | ok v =>
      cases found : v.isNull with
      | false => exact absurd found open_ended
      | true =>
        cases Value.eq_null_of_isNull found
        refine .nulls fun {k σ} hσ here => ?_
        rcases here with rfl | here
        · cases child.symm.trans hσ
          rfl
        · exact each hσ here

/-- When everything has arrived, nothing has been decided before the last outcome. -/
theorem Gathers.outcome (h : Gathers τs arrived kind j) {t : Nat} (settles : kind.Settles τs y t)
    (here : ∀ {i : Nat} {τ : Timing}, τs[i]? = some τ → arrived i) :
    j.outcome false = y.mapError .error ∧ t = latest τs := by
  cases settles with
  | decided child decides first => exact absurd decides (h.not_decides child (here child))
  | @values _ vs all =>
    cases h with
    | @values values size each =>
      have hlen : τs.length = vs.length := by simpa using congrArg List.length all
      have hvalues : values = vs.map some := by
        refine List.ext_getElem (by simp [size, hlen]) fun i hi hi' => ?_
        have hτ : τs[i]? = some τs[i] := List.getElem?_eq_getElem (size ▸ hi)
        obtain ⟨v, hv, hvalue⟩ := each hτ (here hτ)
        have hresult : (τs.map Timing.result)[i]? = some (.ok v) := by simp [hτ, hv]
        rw [all, List.getElem?_map] at hresult
        obtain ⟨u, hu, heq⟩ := Option.map_eq_some_iff.1 hresult
        cases heq
        rw [List.getElem_map, (List.getElem?_eq_some_iff.1 hu).2,
          (List.getElem?_eq_some_iff.1 hvalue).2]
      subst hvalues
      exact ⟨by simp [Join.outcome, Join.allValues_map_some, Except.mapError], rfl⟩
  | nulls all =>
    cases h with
    | nulls each => exact ⟨rfl, rfl⟩

/-- A decided join keeps its outcome. -/
theorem Decided.receive (h : j.Decided) (i : Nat) (o : Outcome) (cancelled : Bool) :
    (j.receive i o).1 = false ∧ (j.receive i o).2.outcome cancelled = j.outcome cancelled := by
  cases j with
  | parallel values failure =>
    cases failure with
    | none => cases h
    | some e =>
      cases o with
      | ok v => exact ⟨rfl, rfl⟩
      | error f => cases f <;> exact ⟨rfl, rfl⟩
  | choice decision =>
    cases decision with
    | none => cases h
    | some y =>
      cases o with
      | ok v => exact ⟨rfl, rfl⟩
      | error f => cases f <;> exact ⟨rfl, rfl⟩

end Join

/-- What is to become of a fork that began at a moment: how each child ends, and the whole. -/
structure ForkPlan (r : Registry) where
  kind : ForkKind
  children : List Workflow
  timings : List Timing
  result : Except WorkflowError Value
  began : Nat
  time : Nat
  bound : Nat
  size : timings.length = children.length
  each : ∀ {i : Nat} {w : Workflow} {τ : Timing}, children[i]? = some w → timings[i]? = some τ →
    Machine.Finishes r (.start w) τ.result τ.time bound
  travels : ∀ {i : Nat} {w : Workflow} {τ : Timing}, children[i]? = some w → timings[i]? = some τ →
    Travels w τ.result
  settles : kind.Settles timings result time

namespace ForkPlan

variable {r : Registry} {p : ForkPlan r} {now : Nat} {arrived arrived' : Nat → Prop}
  {stopped stopped' : Prop} {j : Join} {i : Nat} {τ : Timing}

/-- How far a fork has come at a moment. Either the outcomes that have arrived have not decided it
and came in time, or it has been decided just now and is stopped. -/
inductive Keeps (p : ForkPlan r) (now : Nat) (arrived : Nat → Prop) (stopped : Prop) : Join → Prop
  | gathering {j : Join} (gathers : j.Gathers p.timings arrived p.kind)
      (past : ∀ {i : Nat} {τ : Timing}, p.timings[i]? = some τ → arrived i →
        p.began + τ.time ≤ now)
      (ahead : now ≤ p.began + p.time) : Keeps p now arrived stopped j
  | decided {j : Join} (decided : j.Decided) (outcome : j.outcome false = p.result.mapError .error)
      (time : now = p.began + p.time) (stop : stopped) : Keeps p now arrived stopped j

theorem keeps_start (p : ForkPlan r) (stopped : Prop) :
    p.Keeps p.began (fun _ => False) stopped (.start p.kind p.children.length) :=
  .gathering (p.size ▸ Join.gathers_start p.kind p.timings) (fun _ h => h.elim) (Nat.le_add_right ..)

theorem Keeps.mono (h : p.Keeps now arrived stopped j) (hi : ∀ i, arrived' i → arrived i)
    (hs : stopped → stopped') : p.Keeps now arrived' stopped' j := by
  cases h with
  | gathering gathers past ahead =>
    exact .gathering (gathers.mono hi) (fun hτ ha => past hτ (hi _ ha)) ahead
  | decided decided outcome time stop => exact .decided decided outcome time (hs stop)

/-- The outcome of a child arrives at its moment, before that of any child that ends later. -/
theorem Keeps.receive (h : p.Keeps now arrived stopped j) (unstopped : ¬ stopped)
    (child : p.timings[i]? = some τ) (punctual : now = p.began + τ.time)
    (future : ∀ {k : Nat} {σ : Timing}, p.timings[k]? = some σ → ¬ arrived k →
      now ≤ p.began + σ.time)
    (stops : (j.receive i (τ.result.mapError .error)).1 = true → stopped') :
    p.Keeps now (fun k => k = i ∨ arrived k) stopped' (j.receive i (τ.result.mapError .error)).2 := by
  cases h with
  | decided decided outcome time stop => exact absurd stop unstopped
  | gathering gathers past ahead =>
    by_cases decides : p.kind.DecidedBy τ.result
    · obtain ⟨decided, outcome⟩ := gathers.receive_decides i decides
      have earliest : ∀ {k : Nat} {σ : Timing}, p.timings[k]? = some σ →
          p.kind.DecidedBy σ.result → τ.time ≤ σ.time := by
        intro k σ hσ hd
        have := future hσ fun here => gathers.not_decides hσ here hd
        omega
      obtain ⟨result, time⟩ := p.settles.first child decides earliest
      refine .decided decided (result ▸ outcome) (time ▸ punctual) (stops ?_)
      exact ((Join.decided_receive j i _).1 decided).resolve_left gathers.not_decided
    · refine .gathering (gathers.receive child decides) (fun {k σ} hσ here => ?_) ahead
      rcases here with rfl | here
      · cases child.symm.trans hσ
        exact Nat.le_of_eq punctual.symm
      · exact past hσ here

/-- What arrives after the decision changes nothing. -/
theorem Keeps.receive_decided (h : p.Keeps now arrived stopped j)
    (decided : j.Decided) (hs : stopped → stopped') (i : Nat) (o : Outcome) :
    p.Keeps now arrived' stopped' (j.receive i o).2 := by
  cases h with
  | gathering gathers past ahead => exact absurd decided gathers.not_decided
  | decided decided outcome time stop =>
    refine .decided ((Join.decided_receive j i o).2 (.inl decided)) ?_ time (hs stop)
    rw [(decided.receive i o false).2]
    exact outcome

/-- When the outcomes of all children have arrived, the fork ends as it should and when. -/
theorem Keeps.outcome (h : p.Keeps now arrived stopped j) (began : p.began ≤ now)
    (all : ∀ i < p.children.length, arrived i) :
    j.outcome false = p.result.mapError .error ∧ now = p.began + p.time := by
  cases h with
  | decided decided outcome time stop => exact ⟨outcome, time⟩
  | gathering gathers past ahead =>
    have here : ∀ {i : Nat} {τ : Timing}, p.timings[i]? = some τ → arrived i := fun hτ =>
      all _ (p.size ▸ (List.getElem?_eq_some_iff.1 hτ).1)
    obtain ⟨outcome, time⟩ := gathers.outcome p.settles here
    have last : latest p.timings ≤ now - p.began := latest_le fun τ hτ => by
      obtain ⟨i, hi⟩ := List.getElem?_of_mem hτ
      have := past hi (here hi)
      omega
    exact ⟨outcome, by omega⟩

/-- As long as a fork goes on there is a child that has not ended before the whole fork has to. -/
theorem Keeps.pending (h : p.Keeps now arrived stopped j) (unstopped : ¬ stopped)
    (waits : ∃ i < p.children.length, ¬ arrived i) :
    ∃ i τ, p.timings[i]? = some τ ∧ ¬ arrived i ∧ τ.time ≤ p.time := by
  cases h with
  | decided decided outcome time stop => exact absurd stop unstopped
  | gathering gathers past ahead =>
    obtain ⟨i, hi, absent⟩ := waits
    have hlt : i < p.timings.length := p.size ▸ hi
    rcases p.settles.ends with ⟨w, σ, winner, decides, time⟩ | time
    · exact ⟨w, σ, winner, fun here => gathers.not_decides winner here decides, time⟩
    · exact ⟨i, _, List.getElem?_eq_getElem hlt, absent, time _ (List.getElem_mem hlt)⟩

/-- Time may pass as long as it does not pass a fork that goes on. -/
theorem Keeps.elapse (h : p.Keeps now arrived stopped j) (unstopped : ¬ stopped) {later : Nat}
    (on : now ≤ later) (ahead : later ≤ p.began + p.time) : p.Keeps later arrived stopped j := by
  cases h with
  | decided decided outcome time stop => exact absurd stop unstopped
  | gathering gathers past _ =>
    exact .gathering gathers (fun hτ ha => (past hτ ha).trans on) ahead

end ForkPlan

end WorkflowEngine
