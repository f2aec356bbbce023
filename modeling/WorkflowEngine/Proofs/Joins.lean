import WorkflowEngine.Proofs.Semantics
import Mathlib
/-!
What a join knows while the outcomes of the children arrive. Each value that it keeps and each
result that it has chosen is one that its children permit, in whatever order they arrive.
-/
set_option autoImplicit false

namespace WorkflowEngine

namespace Join

/-- A join that the outcomes of further children do not change. -/
def Decided : Join → Prop
  | .parallel _ failure => failure.isSome
  | .choice decision => decision.isSome

/-- What has arrived from children, so far as it counts. -/
inductive Explained (s : Surroundings) (children : List Workflow) (arrived : Nat → Prop) :
    ForkKind → Join → Prop
  | values {values : List (Option Value)} (size : values.length = children.length)
      (each : ∀ {i : Nat} {w : Workflow}, children[i]? = some w → arrived i →
        ∃ v, values[i]? = some (some v) ∧ Permits s w (.ok v)) :
      Explained s children arrived .parallel (.parallel values none)
  | failed {values : List (Option Value)} {e : WorkflowError}
      (permits : Permits s (.parallel children) (.error e)) :
      Explained s children arrived .parallel (.parallel values (some e))
  | nulls (each : ∀ {i : Nat} {w : Workflow}, children[i]? = some w → arrived i →
        Permits s w (.ok .null)) :
      Explained s children arrived .choice (.choice none)
  | chosen {r : Except WorkflowError Value} (permits : Permits s (.choice children) r) :
      Explained s children arrived .choice (.choice (some r))

variable {s : Surroundings} {children : List Workflow} {arrived arrived' : Nat → Prop}
  {kind : ForkKind} {j : Join}

theorem explained_start (s : Surroundings) (kind : ForkKind) (children : List Workflow) :
    Explained s children (fun _ => False) kind (.start kind children.length) := by
  cases kind with
  | parallel => exact .values (by simp) fun _ h => h.elim
  | choice => exact .nulls fun _ h => h.elim

theorem Explained.mono (h : Explained s children arrived kind j)
    (hi : ∀ i, arrived' i → arrived i) : Explained s children arrived' kind j := by
  cases h with
  | values size each => exact .values size fun hw ha => each hw (hi _ ha)
  | failed permits => exact .failed permits
  | nulls each => exact .nulls fun hw ha => each hw (hi _ ha)
  | chosen permits => exact .chosen permits

/-- The outcome of a child is explained by the child, whatever else has arrived. -/
theorem Explained.receive (h : Explained s children arrived kind j) {i : Nat} {w : Workflow}
    {r : Except WorkflowError Value} (child : children[i]? = some w) (permits : Permits s w r) :
    Explained s children (fun k => k = i ∨ arrived k) kind (j.receive i (r.mapError .error)).2 := by
  have mem : w ∈ children := List.mem_of_getElem? child
  cases h with
  | @values values size each =>
    cases r with
    | ok v =>
      have hi : i < values.length := by
        obtain ⟨hi, -⟩ := List.getElem?_eq_some_iff.1 child
        omega
      refine .values (by simpa using size) fun {k u} hu ha => ?_
      by_cases hk : i = k
      · subst hk
        cases child.symm.trans hu
        exact ⟨v, List.getElem?_set_self hi, permits⟩
      · obtain ⟨v', hv, hp⟩ := each hu (ha.resolve_left (Ne.symm hk))
        exact ⟨v', by rw [List.getElem?_set_ne hk, hv], hp⟩
    | error e => exact .failed (.parallelError mem permits)
  | failed fails =>
    cases r with
    | ok v => exact .failed fails
    | error e => exact .failed fails
  | nulls each =>
    cases r with
    | ok v =>
      cases found : v.isNull with
      | true =>
        cases Value.eq_null_of_isNull found
        refine .nulls fun {k u} hu ha => ?_
        rcases ha with rfl | ha
        · cases child.symm.trans hu
          exact permits
        · exact each hu ha
      | false =>
        simp only [Except.mapError, Join.receive, found, Bool.false_eq_true, if_false]
        exact .chosen (.choice mem permits found)
    | error e => exact .chosen (.choiceError mem permits)
  | chosen gives =>
    cases r with
    | ok v => exact .chosen gives
    | error e => exact .chosen gives

/-- What arrives after the decision is not looked at, be it the outcome of a cancelled child. -/
theorem Explained.receive_decided (h : Explained s children arrived kind j) (hd : j.Decided)
    (i : Nat) (o : Outcome) : Explained s children arrived' kind (j.receive i o).2 := by
  cases h with
  | values size each => cases hd
  | failed permits =>
    cases o with
    | ok v => exact .failed permits
    | error f => cases f <;> exact .failed permits
  | nulls each => cases hd
  | chosen permits =>
    cases o with
    | ok v => exact .chosen permits
    | error f => cases f <;> exact .chosen permits

/-- A join is decided from the outcome on that decides it. -/
theorem decided_receive (j : Join) (i : Nat) (o : Outcome) :
    (j.receive i o).2.Decided ↔ j.Decided ∨ (j.receive i o).1 = true := by
  cases j with
  | parallel values failure =>
    cases o with
    | ok v => simp [Join.receive, Decided]
    | error f => cases failure <;> cases f <;> simp [Join.receive, Decided]
  | choice decision =>
    cases decision with
    | none =>
      cases o with
      | ok v => cases found : v.isNull <;> simp [Join.receive, Decided, found]
      | error f => cases f <;> simp [Join.receive, Decided]
    | some r =>
      cases o with
      | ok v => simp [Join.receive, Decided]
      | error f => cases f <;> simp [Join.receive, Decided]

theorem allValues_map_some (vs : List Value) : allValues (vs.map some) = some vs := by
  induction vs with
  | nil => rfl
  | cons v rest ih => simp [allValues, ih]

theorem exists_values {values : List (Option Value)}
    (h : ∀ i < values.length, ∃ v, values[i]? = some (some v)) :
    ∃ vs : List Value, values = vs.map some := by
  induction values with
  | nil => exact ⟨[], rfl⟩
  | cons first rest ih =>
    obtain ⟨v, hv⟩ := h 0 (by simp)
    obtain ⟨vs, rfl⟩ := ih fun i hi => by simpa using h (i + 1) (by simpa using hi)
    cases hv
    exact ⟨v :: vs, rfl⟩

/-- When all children have arrived, the outcome is one that the fork permits. -/
theorem Explained.outcome (h : Explained s children arrived kind j)
    (all : ∀ i < children.length, arrived i) :
    ∃ r, Permits s (kind.workflow children) r ∧ j.outcome false = r.mapError .error := by
  cases h with
  | @values values size each =>
    have given : ∀ i < values.length, ∃ v, values[i]? = some (some v) := by
      intro i hi
      obtain ⟨w, hw⟩ : ∃ w, children[i]? = some w :=
        ⟨_, List.getElem?_eq_getElem (size ▸ hi)⟩
      obtain ⟨v, hv, -⟩ := each hw (all i (size ▸ hi))
      exact ⟨v, hv⟩
    obtain ⟨vs, rfl⟩ := exists_values given
    refine ⟨.ok (.array vs), .parallel (by simpa using size) fun {i w v} hw hv => ?_, ?_⟩
    · have hi : i < children.length := (List.getElem?_eq_some_iff.1 hw).1
      obtain ⟨v', hv', permits⟩ := each hw (all i hi)
      simp only [List.getElem?_map, hv, Option.map_some, Option.some.injEq] at hv'
      exact hv' ▸ permits
    · simp [Join.outcome, allValues_map_some, Except.mapError]
  | failed permits => exact ⟨_, permits, rfl⟩
  | nulls each =>
    refine ⟨.ok .null, .choiceNull fun w hw => ?_, rfl⟩
    obtain ⟨i, hi⟩ := List.getElem?_of_mem hw
    exact each hi (all i (List.getElem?_eq_some_iff.1 hi).1)
  | @chosen r permits =>
    cases r with
    | ok v => exact ⟨_, permits, rfl⟩
    | error e => exact ⟨_, permits, rfl⟩

end Join

end WorkflowEngine
