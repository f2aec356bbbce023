import WorkflowEngine.Proofs.Builtins
import WorkflowEngine.Proofs.Completion
/-!
Finding an item that a predicate holds for. Every item has a child of its own, which gives the item
or null, and the first child that gives an item stops the others. Whichever that is, the item is one
that the predicate holds for, and null comes out only if there is none.
-/
set_option autoImplicit false

namespace WorkflowEngine

namespace Workflow

/-- A predicate that comes to an answer for an item and does not fail. -/
structure Answers (s : Surroundings) (predicate : FunctionRef) (item : Value) (holds : Bool) :
    Prop where
  terminates : (Workflow.bind (.ret item) predicate).Terminates s
  answer : ∀ {r}, Permits s (.bind (.ret item) predicate) r → r = .ok (.bool holds)

/-- What a search should give: an item other than null that the predicate holds for, or null if
there is no such item. -/
inductive Finds (items : List Value) (holds : Value → Bool) : Value → Prop
  | found {item : Value} (listed : item ∈ items) (present : item.isNull = false)
      (satisfies : holds item = true) : Finds items holds item
  | nothing (none : ∀ item ∈ items, item.isNull = false → holds item = false) :
      Finds items holds .null

variable {s : Surroundings} {predicate : FunctionRef} {items : List Value}
  {holds : Value → Bool}

theorem continueWith_someIf_bool (builtins : s.registry.Includes .standard) (item : Value)
    (b : Bool) : s.registry.continueWith ⟨Builtin.someIf, item⟩ (.bool b) =
      .ok (.ret (if b then item else .null)) := by
  rw [builtins.continueWith_someIf]
  cases b <;> rfl

/-- The child of an item gives the item if the predicate holds for it, and else null. -/
theorem Answers.child {item : Value} {b : Bool} (builtins : s.registry.Includes .standard)
    (h : Answers s predicate item b) {r : Except WorkflowError Value}
    (permits : Permits s (.bind (.bind (.ret item) predicate) ⟨Builtin.someIf, item⟩) r) :
    r = .ok (if b then item else .null) := by
  have call := continueWith_someIf_bool builtins item b
  cases permits with
  | bind body call' rest =>
    cases h.answer body
    cases call'.symm.trans call
    cases rest
    rfl
  | bindFailed body call' =>
    cases h.answer body
    cases call'.symm.trans call
  | bindError body => cases h.answer body

theorem Answers.child_terminates {item : Value} {b : Bool}
    (builtins : s.registry.Includes .standard) (h : Answers s predicate item b) :
    (Workflow.bind (.bind (.ret item) predicate) ⟨Builtin.someIf, item⟩).Terminates s := by
  refine .bind h.terminates fun body call' => ?_
  cases h.answer body
  cases call'.symm.trans (continueWith_someIf_bool builtins item b)
  exact .ret _

/-- A search terminates if the predicate comes to an answer for each item. -/
theorem terminates_tryFind (builtins : s.registry.Includes .standard)
    (answers : ∀ item ∈ items, Answers s predicate item (holds item)) :
    (tryFind items predicate).Terminates s := by
  refine .choice fun w hw => ?_
  obtain ⟨item, listed, rfl⟩ := List.mem_map.1 hw
  exact (answers item listed).child_terminates builtins

/-- A search does not fail, misses no item and gives none that the predicate does not hold for. -/
theorem finds_of_permits (builtins : s.registry.Includes .standard)
    (answers : ∀ item ∈ items, Answers s predicate item (holds item))
    {r : Except WorkflowError Value} (permits : Permits s (tryFind items predicate) r) :
    ∃ v, r = .ok v ∧ Finds items holds v := by
  have given : ∀ {w r}, w ∈ (items.map fun item =>
      Workflow.bind (.bind (.ret item) predicate) ⟨Builtin.someIf, item⟩) → Permits s w r →
      ∃ item ∈ items, r = .ok (if holds item then item else .null) := by
    intro w r hw permits
    obtain ⟨item, listed, rfl⟩ := List.mem_map.1 hw
    exact ⟨item, listed, (answers item listed).child builtins permits⟩
  cases permits with
  | @choice _ w v child gives found =>
    obtain ⟨item, listed, hv⟩ := given child gives
    cases satisfies : holds item with
    | true =>
      simp only [satisfies, if_true, Except.ok.injEq] at hv
      subst hv
      exact ⟨v, rfl, .found listed found satisfies⟩
    | false =>
      simp only [satisfies, Bool.false_eq_true, if_false, Except.ok.injEq] at hv
      subst hv
      cases found
  | choiceError child fails =>
    obtain ⟨item, listed, hv⟩ := given child fails
    cases hv
  | choiceNull each =>
    refine ⟨.null, rfl, .nothing fun item listed present => ?_⟩
    have gives := (answers item listed).child builtins
      (each _ (List.mem_map.2 ⟨item, listed, rfl⟩))
    cases satisfies : holds item with
    | false => rfl
    | true =>
      simp only [satisfies, if_true, Except.ok.injEq] at gives
      subst gives
      cases present

end Workflow

namespace Cluster

/-- Searches are sound and complete, on however many workers and in whatever order the children
settle. If nobody cancels the job or shuts the engine down, and what the job sends arrives as it
was, then the job never fails and ends with an item other than null that the predicate holds for,
or with null if there is none. It does not go on for ever or get stuck before. -/
theorem tryFind_finds {registry : Registry} {config : EngineConfig} {backend : Backend}
    {sink : LogSink} (calm : registry.Calm) (builtins : registry.Includes .standard)
    {c₀ c : Cluster} (before : Reaches (start registry config backend sink) c₀)
    (serving : c₀.scopes.isCancelled .root = false) {name : String} {items : List Value}
    {predicate : FunctionRef} {holds : Value → Bool}
    (answers : ∀ item ∈ items, Workflow.Answers
      (c₀.surroundingsOf (c₀.submit name (.tryFind items predicate)).1) predicate item (holds item))
    (run : Run (fun b ev =>
      b.outline.Undisturbed (c₀.submit name (.tryFind items predicate)).1 ev)
      (c₀.submit name (.tryFind items predicate)).2 c)
    (ids : c.nextId < Uuid.supply) :
    c.Completes (c₀.submit name (.tryFind items predicate)).1 fun o =>
      ∃ v, EngineError.ofOutcome (c₀.submit name (.tryFind items predicate)).1 o = .ok v ∧
        Workflow.Finds items holds v := by
  have builtins₀ : c₀.registry.Includes .standard := by
    rw [before.registry (consistent_start registry config backend sink) (run.ids_submit ids)]
    exact builtins
  refine completes_of_terminates calm before serving
    (Workflow.terminates_tryFind builtins₀ answers) run ids fun r permits => ?_
  obtain ⟨v, rfl, finds⟩ := Workflow.finds_of_permits builtins₀ answers permits
  exact ⟨v, rfl, finds⟩

set_option maxRecDepth 4096 in
/-- A search for `true` among one item that is `true`. -/
theorem tryFind_finds_true :
    ∃ c, Run (fun b ev => b.outline.Undisturbed ⟨Uuid.fresh 0⟩ ev)
        ((start .standard { workers := 1 } (.memory .empty) (.memory .empty)).submit "job"
          (.tryFind [.bool true] ⟨Builtin.equals, .bool true⟩)).2 c ∧
      c.outcome? ⟨Uuid.fresh 0⟩ = some (.ok (.bool true)) ∧
      c.Completes ⟨Uuid.fresh 0⟩ fun o =>
        ∃ v, EngineError.ofOutcome ⟨Uuid.fresh 0⟩ o = .ok v ∧
          Workflow.Finds [.bool true] (fun v => v.same (.bool true)) v := by
  have sent : Workflow.decode (Workflow.tryFind [.bool true] ⟨Builtin.equals, .bool true⟩).encode =
      .ok (.tryFind [.bool true] ⟨Builtin.equals, .bool true⟩) := by cbv
  have child_sent : Workflow.decode (Workflow.bind (.bind (.ret (.bool true))
      ⟨Builtin.equals, .bool true⟩) ⟨Builtin.someIf, .bool true⟩).encode =
      .ok (.bind (.bind (.ret (.bool true)) ⟨Builtin.equals, .bool true⟩)
        ⟨Builtin.someIf, .bool true⟩) := by cbv
  have returned : Outcome.decode (Outcome.encode (.ok (.bool true))) = .ok (.bool true) := by cbv
  have begun := Run.step (P := fun b ev => b.outline.Undisturbed ⟨Uuid.fresh 0⟩ ev)
    (.refl ((start .standard { workers := 1 } (.memory .empty) (.memory .empty)).submit "job"
      (.tryFind [.bool true] ⟨Builtin.equals, .bool true⟩)).2)
    (Outline.undisturbed_begin rfl sent)
    (rfl : Cluster.after _ (.move (.begin ⟨Uuid.fresh 0⟩)) = some _)
  have received := begun.step
    (Outline.undisturbed_of_quiet (.move (.receive 0)) trivial (by simp) (by simp)) rfl
  have started := received.starts ⟨Uuid.fresh 1⟩ rfl rfl sent
  have forked := started.step
    (Outline.undisturbed_advance ⟨Uuid.fresh 1⟩ rfl (by rintro f stack ⟨⟩)
      (by rintro m outcome ⟨⟩ ⟨⟩)) rfl
  have placed := forked.step
    (Outline.undisturbed_joining ⟨Uuid.fresh 1⟩ rfl rfl (by rintro w rest ⟨⟩; exact child_sent)) rfl
  have child_received := placed.step
    (Outline.undisturbed_of_quiet (.move (.receive 0)) trivial (by simp) (by simp)) rfl
  have child_started := child_received.starts ⟨Uuid.fresh 2⟩ rfl rfl child_sent
  -- Two continuations are put on the stack, the item is returned, and each continuation is called
  -- and its workflow evaluated.
  have outer := child_started.moves ⟨Uuid.fresh 2⟩ rfl rfl rfl rfl
  have inner := outer.moves ⟨Uuid.fresh 2⟩ rfl rfl rfl rfl
  have item := inner.moves ⟨Uuid.fresh 2⟩ rfl rfl rfl rfl
  have compared := item.moves ⟨Uuid.fresh 2⟩ rfl rfl rfl rfl
  have holds := compared.moves ⟨Uuid.fresh 2⟩ rfl rfl rfl rfl
  have kept := holds.moves ⟨Uuid.fresh 2⟩ rfl rfl rfl rfl
  have given := kept.moves ⟨Uuid.fresh 2⟩ rfl rfl rfl rfl
  have child_replied := given.replies ⟨Uuid.fresh 2⟩ rfl rfl rfl rfl returned
  have child_collected := child_replied.step
    (Outline.undisturbed_of_quiet (.move (.collect ⟨Uuid.fresh 2⟩)) trivial (by simp) (by simp))
    (after_collected ⟨Uuid.fresh 2⟩ rfl rfl rfl rfl returned)
  have joined := child_collected.step
    (Outline.undisturbed_joining ⟨Uuid.fresh 1⟩ rfl rfl (by rintro w rest ⟨⟩)) rfl
  have replied := joined.replies ⟨Uuid.fresh 1⟩ rfl rfl rfl rfl returned
  have collected := replied.step
    (Outline.undisturbed_of_quiet (.move (.collect ⟨Uuid.fresh 1⟩)) trivial (by simp) (by simp)) rfl
  have answers : ∀ item ∈ [Value.bool true], Workflow.Answers ((start .standard { workers := 1 }
      (.memory .empty) (.memory .empty)).surroundingsOf ⟨Uuid.fresh 0⟩)
      ⟨Builtin.equals, .bool true⟩ item (item.same (.bool true)) := by
    intro item listed
    refine ⟨.bind (.ret item) fun _ call => ?_, fun permits => ?_⟩
    · cases call
      exact .ret _
    · cases permits with
      | bind body call rest =>
        cases body
        cases call
        cases rest
        rfl
      | bindFailed body call => cases call
      | bindError body => cases body
  exact ⟨_, collected, congrArg some returned,
    tryFind_finds Registry.calm_standard (.refl _) (.refl _) rfl answers collected (by decide)⟩

end Cluster

end WorkflowEngine
