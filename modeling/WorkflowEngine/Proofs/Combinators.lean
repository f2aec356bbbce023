import WorkflowEngine.Proofs.Builtins
import WorkflowEngine.Proofs.Interpretation
/-!
What workflows built by combinators evaluate to, in terms of the parts that they are built of. Each
is a part under one frame whose function is a standard one; a chain of workflows is evaluated in
turn, although all that follows the first one is captured in its continuation.
-/
set_option autoImplicit false

namespace WorkflowEngine

namespace Workflow

open Interpretation

/-- How an evaluation may end that is neither cancelled nor aborted. -/
def ending (result : Except WorkflowError Value) : Except Halt Value :=
  result.mapError fun e => .fault (.error e)

/-- Whether the evaluation of a workflow that starts after one trace ends, and after which. -/
def Ends (r : Registry) (assigned : Assignment) (w : Workflow) (t : Trace)
    (result : Except Halt Value) (t' : Trace) : Prop :=
  ∃ fuel, Machine.run r assigned fuel (.start w) t = some (result, t')

/-- Whether a workflow is evaluated to a value or fails with an error. -/
def Evaluates (r : Registry) (assigned : Assignment) (w : Workflow) (t : Trace)
    (result : Except WorkflowError Value) (t' : Trace) : Prop :=
  w.Ends r assigned t (ending result) t'

variable {r : Registry} {assigned : Assignment} {w next : Workflow} {f : FunctionRef}
  {v : Value} {e : WorkflowError} {t t' : Trace}

@[simp] theorem ending_ok : ending (.ok v) = .ok v := rfl

@[simp] theorem ending_error : ending (.error e) = .error (.fault (.error e)) := rfl

theorem ending_injective {result result' : Except WorkflowError Value}
    (h : ending result = ending result') : result = result' := by
  cases result <;> cases result' <;> cases h <;> rfl

theorem ends_iff {result : Except Halt Value} :
    w.Ends r assigned t result t' ↔ ∃ depth, (w.interpret r assigned depth).Gives t result t' :=
  Machine.run_iff_gives

/-- What a function replied is evaluated in the place of its call. -/
theorem gives_applied {a : Application} {result : Except Halt Value}
    (reply : r.reply a = .ok next) {depth : Nat} :
    (apply r a >>= interpret r assigned depth).Gives t result t' ↔
      (next.interpret r assigned depth).Gives (t.apply a) result t' := by
  constructor
  · intro h
    obtain ⟨next', t₁, call, rest⟩ | ⟨halt, call, rfl⟩ := gives_bind.1 h
    · obtain ⟨hnext, rfl⟩ := gives_apply.1 call
      rw [reply] at hnext
      cases hnext
      exact rest
    · obtain ⟨hhalt, -⟩ := gives_apply.1 call
      rw [reply] at hhalt
      cases hhalt
  · intro rest
    exact gives_bind.2 (.inl ⟨next, _, gives_apply.2 ⟨by rw [reply]; rfl, rfl⟩, rest⟩)

/-- A sequence evaluates its body and, after a value, what the continuation replies. -/
theorem ends_bind {next : Value → Workflow} {result : Except Halt Value}
    (reply : ∀ v, r.continueWith f v = .ok (next v)) :
    (Workflow.bind w f).Ends r assigned t result t' ↔
      (∃ v t₁, w.Ends r assigned t (.ok v) t₁ ∧
        (next v).Ends r assigned (t₁.apply (.continuation f v)) result t') ∨
      (w.Ends r assigned t result t' ∧ ∀ v, result ≠ .ok v) := by
  have called (v : Value) : r.reply (.continuation f v) = .ok (next v) := reply v
  constructor
  · intro h
    obtain ⟨depth, gives⟩ := ends_iff.1 h
    cases depth with
    | zero => cases gives
    | succ depth =>
      refine (interpret_bind.1 gives).imp ?_ ?_
      · rintro ⟨v, t₁, body, rest⟩
        exact ⟨v, t₁, ends_iff.2 ⟨depth, body⟩,
          ends_iff.2 ⟨depth, (gives_applied (called v)).1 rest⟩⟩
      · rintro ⟨body, other⟩
        exact ⟨ends_iff.2 ⟨depth, body⟩, other⟩
  · rintro (⟨v, t₁, body, rest⟩ | ⟨body, other⟩)
    · obtain ⟨m, body⟩ := ends_iff.1 body
      obtain ⟨n, rest⟩ := ends_iff.1 rest
      have body := interpret_mono (Nat.le_max_left m n) body
      have rest := interpret_mono (Nat.le_max_right m n) rest
      exact ends_iff.2 ⟨max m n + 1,
        interpret_bind.2 (.inl ⟨v, t₁, body, (gives_applied (called v)).2 rest⟩)⟩
    · obtain ⟨m, body⟩ := ends_iff.1 body
      exact ends_iff.2 ⟨m + 1, interpret_bind.2 (.inr ⟨body, other⟩)⟩

/-- A protected part is evaluated and, after an error, what the handler replies. -/
theorem ends_tryWith {next : WorkflowError → Workflow} {result : Except Halt Value}
    (reply : ∀ e, r.handle f e = .ok (next e)) :
    (Workflow.tryWith w f).Ends r assigned t result t' ↔
      (∃ e t₁, w.Ends r assigned t (.error (.fault (.error e))) t₁ ∧
        (next e).Ends r assigned (t₁.apply (.handler f e)) result t') ∨
      (w.Ends r assigned t result t' ∧ ∀ e, result ≠ .error (.fault (.error e))) := by
  have called (e : WorkflowError) : r.reply (.handler f e) = .ok (next e) := reply e
  constructor
  · intro h
    obtain ⟨depth, gives⟩ := ends_iff.1 h
    cases depth with
    | zero => cases gives
    | succ depth =>
      refine (interpret_tryWith.1 gives).imp ?_ ?_
      · rintro ⟨e, t₁, body, rest⟩
        exact ⟨e, t₁, ends_iff.2 ⟨depth, body⟩,
          ends_iff.2 ⟨depth, (gives_applied (called e)).1 rest⟩⟩
      · rintro ⟨body, other⟩
        exact ⟨ends_iff.2 ⟨depth, body⟩, other⟩
  · rintro (⟨e, t₁, body, rest⟩ | ⟨body, other⟩)
    · obtain ⟨m, body⟩ := ends_iff.1 body
      obtain ⟨n, rest⟩ := ends_iff.1 rest
      have body := interpret_mono (Nat.le_max_left m n) body
      have rest := interpret_mono (Nat.le_max_right m n) rest
      exact ends_iff.2 ⟨max m n + 1,
        interpret_tryWith.2 (.inl ⟨e, t₁, body, (gives_applied (called e)).2 rest⟩)⟩
    · obtain ⟨m, body⟩ := ends_iff.1 body
      exact ends_iff.2 ⟨m + 1, interpret_tryWith.2 (.inr ⟨body, other⟩)⟩

theorem ends_ret {result : Except Halt Value} :
    (Workflow.ret v).Ends r assigned t result t' ↔ result = .ok v ∧ t' = t := by
  have gives : ∀ depth, ((Workflow.ret v).interpret r assigned (depth + 1)).Gives t result t' ↔
      result = .ok v ∧ t' = t := fun depth => gives_ofExcept (a := .ok v)
  rw [ends_iff]
  constructor
  · rintro ⟨depth, h⟩
    cases depth with
    | zero => cases h
    | succ depth => exact (gives depth).1 h
  · intro h
    exact ⟨1, (gives 0).2 h⟩

/-- Where no function aborts and nothing that is waited for is cancelled, evaluations end with a
value or an error. -/
theorem Ends.eq_ending {result : Except Halt Value} (h : w.Ends r assigned t result t')
    (calm : r.Calm) (uncancelled : ∀ i s, assigned i s ≠ .error .cancelled) :
    ∃ result', result = ending result' := by
  obtain ⟨depth, gives⟩ := ends_iff.1 h
  clear h
  induction depth generalizing w t result t' with
  | zero => cases gives
  | succ depth ih =>
    have applied {a : Application} {t₁ : Trace}
        (h : (apply r a >>= interpret r assigned depth).Gives t₁ result t') :
        ∃ result', result = ending result' := by
      obtain ⟨next, t₂, -, rest⟩ | ⟨halt, call, rfl⟩ := gives_bind.1 h
      · exact ih rest
      · obtain ⟨hhalt, -⟩ := gives_apply.1 call
        cases hreply : r.reply a with
        | ok next =>
          rw [hreply] at hhalt
          cases hhalt
        | failed e =>
          rw [hreply] at hhalt
          cases hhalt
          exact ⟨.error e, rfl⟩
        | aborted message =>
          cases a with
          | continuation f v => exact absurd hreply calm.continueWith
          | handler f e => exact absurd hreply calm.handle
    have awaited {s : Suspension} (h : (await assigned s).Gives t result t') :
        ∃ result', result = ending result' := by
      obtain ⟨rfl, -⟩ := gives_await.1 h
      cases ho : assigned t.waited s with
      | ok v => exact ⟨.ok v, rfl⟩
      | error fault =>
        cases fault with
        | error e => exact ⟨.error e, rfl⟩
        | cancelled => exact absurd ho (uncancelled _ _)
    cases w with
    | ret v =>
      cases gives
      exact ⟨.ok v, rfl⟩
    | raise e =>
      cases gives
      exact ⟨.error e, rfl⟩
    | perform op => exact awaited gives
    | parallel ws => exact awaited gives
    | choice ws => exact awaited gives
    | bind w f =>
      obtain ⟨v, t₁, -, rest⟩ | ⟨body, -⟩ := interpret_bind.1 gives
      · exact applied rest
      · exact ih body
    | tryWith w f =>
      obtain ⟨e, t₁, -, rest⟩ | ⟨body, -⟩ := interpret_tryWith.1 gives
      · exact applied rest
      · exact ih body

/-! ## One combinator at a time -/

section

variable (builtins : r.Includes .standard) {result : Except WorkflowError Value}

include builtins

theorem ends_catchError {result : Except Halt Value} :
    w.catchError.Ends r assigned t result t' ↔
      (∃ v t₁, w.Ends r assigned t (.ok v) t₁ ∧ result = .ok (.object [("ok", v)]) ∧
        t' = t₁.apply (.continuation ⟨Builtin.ok, .null⟩ v)) ∨
      (∃ e t₁, w.Ends r assigned t (.error (.fault (.error e))) t₁ ∧
        result = .ok (.object [("err", e.toValue)]) ∧
        t' = t₁.apply (.handler ⟨Builtin.err, .null⟩ e)) ∨
      (w.Ends r assigned t result t' ∧ ∀ result', result ≠ ending result') := by
  rw [catchError, ends_tryWith builtins.handle_err]
  simp only [ends_bind builtins.continueWith_ok, ends_ret]
  constructor
  · rintro (⟨e, t₁, (⟨v, t₂, -, hv, -⟩ | ⟨body, -⟩), rfl, rfl⟩ |
      ⟨(⟨v, t₁, body, rfl, rfl⟩ | ⟨body, nv⟩), ne⟩)
    · cases hv
    · exact .inr (.inl ⟨e, t₁, body, rfl, rfl⟩)
    · exact .inl ⟨v, t₁, body, rfl, rfl⟩
    · refine .inr (.inr ⟨body, fun result' h => ?_⟩)
      cases result' with
      | ok v => exact nv v h
      | error e => exact ne e h
  · rintro (⟨v, t₁, body, rfl, rfl⟩ | ⟨e, t₁, body, rfl, rfl⟩ | ⟨body, other⟩)
    · exact .inr ⟨.inl ⟨v, t₁, body, rfl, rfl⟩, fun _ => nofun⟩
    · exact .inl ⟨e, t₁, .inr ⟨body, fun _ => nofun⟩, rfl, rfl⟩
    · exact .inr ⟨.inr ⟨body, fun v => other (.ok v)⟩, fun e => other (.error e)⟩

theorem evaluates_catchError :
    w.catchError.Evaluates r assigned t result t' ↔
      (∃ v t₁, w.Evaluates r assigned t (.ok v) t₁ ∧ result = .ok (.object [("ok", v)]) ∧
        t' = t₁.apply (.continuation ⟨Builtin.ok, .null⟩ v)) ∨
      ∃ e t₁, w.Evaluates r assigned t (.error e) t₁ ∧
        result = .ok (.object [("err", e.toValue)]) ∧
        t' = t₁.apply (.handler ⟨Builtin.err, .null⟩ e) := by
  have value : ∀ v : Value, ending result = .ok v ↔ result = .ok v :=
    fun v => ⟨fun h => ending_injective h, fun h => h ▸ rfl⟩
  have never : ¬ ∀ result', ending result ≠ ending result' := fun h => h result rfl
  simp only [Evaluates, ends_catchError builtins, value, never, and_false, or_false, ending_ok,
    ending_error]

theorem evaluates_recover {fallback : Value} :
    (w.recover fallback).Evaluates r assigned t result t' ↔
      (∃ v, w.Evaluates r assigned t (.ok v) t' ∧ result = .ok v) ∨
      ∃ e t₁, w.Evaluates r assigned t (.error e) t₁ ∧ result = .ok fallback ∧
        t' = t₁.apply (.handler ⟨Builtin.recover, fallback⟩ e) := by
  rw [Evaluates, recover, ends_tryWith (builtins.handle_recover fallback)]
  simp only [Evaluates, ends_ret, ending_ok, ending_error]
  cases result with
  | ok v => simp [or_comm, eq_comm]
  | error e => simp

theorem evaluates_ignore :
    w.ignore.Evaluates r assigned t result t' ↔
      (∃ v t₁, w.Evaluates r assigned t (.ok v) t₁ ∧ result = .ok .null ∧
        t' = t₁.apply (.continuation ⟨Builtin.ignore, .null⟩ v)) ∨
      ∃ e, w.Evaluates r assigned t (.error e) t' ∧ result = .error e := by
  rw [Evaluates, ignore, ends_bind builtins.continueWith_ignore]
  simp only [Evaluates, unit, ends_ret, ending_ok, ending_error]
  cases result with
  | ok v => simp
  | error e => simp [eq_comm]

/-- The second workflow is performed as it was captured, without null payloads. -/
theorem evaluates_andThen :
    (w.andThen next).Evaluates r assigned t result t' ↔
      (∃ v t₁, w.Evaluates r assigned t (.ok v) t₁ ∧ next.withoutNulls.Evaluates r assigned
        (t₁.apply (.continuation ⟨Builtin.thenDo, next.toValue⟩ v)) result t') ∨
      ∃ e, w.Evaluates r assigned t (.error e) t' ∧ result = .error e := by
  rw [Evaluates, andThen, ends_bind (builtins.continueWith_thenDo next)]
  simp only [Evaluates, ending_ok, ending_error]
  cases result with
  | ok v => simp
  | error e => simp [eq_comm]

end

/-! ## Chains -/

/-- Workflows evaluated in turn, each one once and after a value of the one before it, up to the
last one or the first that fails. Between two of them the continuation is applied that captures the
second one with all that follows it. -/
inductive InTurn (r : Registry) (assigned : Assignment) :
    List Workflow → Trace → Except WorkflowError Value → Trace → Prop
  | nil (t : Trace) : InTurn r assigned [] t (.ok .null) t
  | last {w : Workflow} {t t' : Trace} {result : Except WorkflowError Value}
      (evaluated : w.Evaluates r assigned t result t') : InTurn r assigned [w] t result t'
  | next {w next : Workflow} {rest : List Workflow} {v : Value} {t t₁ t' : Trace}
      {result : Except WorkflowError Value} (evaluated : w.Evaluates r assigned t (.ok v) t₁)
      (others : InTurn r assigned (next :: rest) (t₁.apply
        (.continuation ⟨Builtin.thenDo, (sequential (next :: rest)).toValue⟩ v)) result t') :
      InTurn r assigned (w :: next :: rest) t result t'
  | stop {w next : Workflow} {rest : List Workflow} {e : WorkflowError} {t t' : Trace}
      (failed : w.Evaluates r assigned t (.error e) t') :
      InTurn r assigned (w :: next :: rest) t (.error e) t'

/-- Only the first workflow of a chain stands in it as it is; the others are captured. -/
theorem raisesNull_sequential (w : Workflow) (rest : List Workflow) :
    (sequential (w :: rest)).RaisesNull ↔ w.RaisesNull := by
  cases rest <;> exact Iff.rfl

theorem withoutNulls_sequential {rest : List Workflow} (kept : ¬ w.RaisesNull) :
    (sequential (w :: rest)).withoutNulls = sequential (w :: rest) := by
  rwa [withoutNulls_eq_self, raisesNull_sequential]

theorem evaluates_sequential (builtins : r.Includes .standard) {ws : List Workflow}
    (kept : ∀ w ∈ ws.tail, ¬ w.RaisesNull) {result : Except WorkflowError Value} :
    (sequential ws).Evaluates r assigned t result t' ↔ InTurn r assigned ws t result t' := by
  induction ws generalizing t result t' with
  | nil =>
    refine ends_ret.trans ⟨?_, ?_⟩
    · rintro ⟨hv, rfl⟩
      cases ending_injective (show ending result = ending (.ok .null) from hv)
      exact .nil _
    · rintro ⟨⟩
      exact ⟨rfl, rfl⟩
  | cons w rest ih =>
    cases rest with
    | nil =>
      refine ⟨.last, ?_⟩
      rintro ⟨⟩
      assumption
    | cons next rest =>
      have others {t t' : Trace} {result : Except WorkflowError Value} :=
        @ih t t' (fun w hw => kept w (List.mem_cons_of_mem next hw)) result
      show (w.andThen (sequential (next :: rest))).Evaluates r assigned t result t' ↔ _
      rw [evaluates_andThen builtins, withoutNulls_sequential (kept next List.mem_cons_self)]
      constructor
      · rintro (⟨v, t₁, first, rest⟩ | ⟨e, failed, rfl⟩)
        · exact .next first (others.1 rest)
        · exact .stop failed
      · intro h
        cases h with
        | next first rest => exact .inl ⟨_, _, first, others.2 rest⟩
        | stop failed => exact .inr ⟨_, failed, rfl⟩

/-- What combinators make of the workflows they are given, when no evaluation is cancelled or
aborted. A caught workflow never fails and its value tells how it ended; a fallback or null takes
the place of what it is to replace; `andThen` performs the second workflow, read back as it was
captured, after a value of the first; a chain performs its workflows in turn. -/
theorem combinators_evaluate (builtins : r.Includes .standard) (calm : r.Calm)
    (uncancelled : ∀ i s, assigned i s ≠ .error .cancelled) (w next : Workflow) (fallback : Value)
    (ws : List Workflow) (kept : ¬ next.RaisesNull) (keptAll : ∀ w ∈ ws.tail, ¬ w.RaisesNull)
    (t : Trace) :
    (∀ result t', w.catchError.Ends r assigned t result t' → ∃ v, result = .ok v) ∧
    (∀ v t', w.catchError.Evaluates r assigned t (.ok (.object [("ok", v)])) t' ↔
      ∃ t₁, w.Evaluates r assigned t (.ok v) t₁ ∧
        t' = t₁.apply (.continuation ⟨Builtin.ok, .null⟩ v)) ∧
    (∀ e t', w.catchError.Evaluates r assigned t (.ok (.object [("err", e.toValue)])) t' ↔
      ∃ t₁, w.Evaluates r assigned t (.error e) t₁ ∧
        t' = t₁.apply (.handler ⟨Builtin.err, .null⟩ e)) ∧
    (∀ result t', (w.recover fallback).Evaluates r assigned t result t' ↔
      (∃ v, w.Evaluates r assigned t (.ok v) t' ∧ result = .ok v) ∨
      ∃ e t₁, w.Evaluates r assigned t (.error e) t₁ ∧ result = .ok fallback ∧
        t' = t₁.apply (.handler ⟨Builtin.recover, fallback⟩ e)) ∧
    (∀ result t', w.ignore.Evaluates r assigned t result t' ↔
      (∃ v t₁, w.Evaluates r assigned t (.ok v) t₁ ∧ result = .ok .null ∧
        t' = t₁.apply (.continuation ⟨Builtin.ignore, .null⟩ v)) ∨
      ∃ e, w.Evaluates r assigned t (.error e) t' ∧ result = .error e) ∧
    (ofValue next.toValue = .ok next ∧
      ∀ result t', (w.andThen next).Evaluates r assigned t result t' ↔
        (∃ v t₁, w.Evaluates r assigned t (.ok v) t₁ ∧ next.Evaluates r assigned
          (t₁.apply (.continuation ⟨Builtin.thenDo, next.toValue⟩ v)) result t') ∨
        ∃ e, w.Evaluates r assigned t (.error e) t' ∧ result = .error e) ∧
    (∀ result t', (sequential ws).Evaluates r assigned t result t' ↔
      InTurn r assigned ws t result t') := by
  have whole : next.withoutNulls = next := withoutNulls_eq_self next |>.2 kept
  have differ : ("ok" : String) ≠ "err" := by decide
  refine ⟨?_, ?_, ?_, fun _ _ => evaluates_recover builtins, fun _ _ => evaluates_ignore builtins,
    ⟨next.ofValue_toValue.trans (congrArg _ whole), fun result t' => ?_⟩,
    fun _ _ => evaluates_sequential builtins keptAll⟩
  · intro result t' h
    obtain ⟨result, rfl⟩ := h.eq_ending calm uncancelled
    obtain ⟨v, t₁, -, rfl, -⟩ | ⟨e, t₁, -, rfl, -⟩ := (evaluates_catchError builtins).1 h
    · exact ⟨_, rfl⟩
    · exact ⟨_, rfl⟩
  · intro v t'
    simp only [evaluates_catchError builtins, Except.ok.injEq, Value.object_single_inj, differ,
      true_and, false_and, and_false, exists_false, or_false]
    constructor
    · rintro ⟨v', t₁, h, rfl, ht⟩
      exact ⟨t₁, h, ht⟩
    · rintro ⟨t₁, h, ht⟩
      exact ⟨v, t₁, h, rfl, ht⟩
  · intro e t'
    simp only [evaluates_catchError builtins, Except.ok.injEq, Value.object_single_inj, differ.symm,
      true_and, false_and, and_false, exists_false, false_or]
    constructor
    · rintro ⟨d, t₁, h, hvalue, ht⟩
      obtain rfl := WorkflowError.toValue_injective hvalue
      exact ⟨t₁, h, ht⟩
    · rintro ⟨t₁, h, ht⟩
      exact ⟨e, t₁, h, rfl, ht⟩
  · have performed := @evaluates_andThen r assigned w next t t' builtins result
    rwa [whole] at performed

/-- A chain whose second workflow fails: the third one is not performed, and the error is caught. -/
theorem combinators_evaluate_failing :
    let late := WorkflowError.user "late" "gone"
    let chain := [ret (.bool true), raise late, ret (.bool false)]
    ∃ t', (sequential chain).catchError.Evaluates .standard (fun _ _ => .ok .null) {}
      (.ok (.object [("err", late.toValue)])) t' ∧ t'.applied.length = 2 := by
  intro late chain
  have kept : ∀ w ∈ chain.tail, ¬ w.RaisesNull := by
    simp [chain, late, RaisesNull, WorkflowError.user]
  have law := @combinators_evaluate .standard (fun _ _ => .ok .null) (.refl .standard)
    Registry.calm_standard (fun _ _ h => by cases h) (sequential chain) unit .null chain id kept {}
  have failed : (raise late).Evaluates .standard (fun _ _ => .ok .null)
      (({} : Trace).apply (.continuation ⟨Builtin.thenDo, (sequential chain.tail).toValue⟩
        (.bool true))) (.error late) _ := ⟨2, rfl⟩
  have first : (ret (.bool true)).Evaluates .standard (fun _ _ => .ok .null) {}
      (.ok (.bool true)) {} := ⟨2, rfl⟩
  have inTurn := InTurn.next first (.stop failed)
  exact ⟨_, (law.2.2.1 late _).2 ⟨_, (law.2.2.2.2.2.2 _ _).2 inTurn, rfl⟩, rfl⟩

end Workflow

end WorkflowEngine
