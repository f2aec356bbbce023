import WorkflowEngine.Proofs.Combinators
import WorkflowEngine.Proofs.Termination
/-!
Chains of workflows on their way. All that follows the first workflow of a chain is captured in a
continuation, and what follows the second one in a continuation of that, so that each workflow lies
two containers deeper in the text than the one before it. A chain that is carried is performed in
order; how many workflows a text carries depends on the depth of each.
-/
set_option autoImplicit false

namespace WorkflowEngine

namespace Json

theorem entriesExact_addEntry {key : String} {item : Json} {entries : List (String × Json)}
    (first : item.Exact) (others : EntriesExact entries) :
    EntriesExact (addEntry key item entries) := by
  induction entries with
  | nil => exact ⟨first, trivial⟩
  | cons entry rest ih =>
    unfold addEntry
    split
    · exact ⟨first, others⟩
    split
    · exact others
    · exact ⟨others.1, ih others.2⟩

mutual
theorem exact_canonical : (j : Json) → (exact : j.Exact) → j.canonical.Exact
  | .null, exact | .bool _, exact | .number _, exact | .string _, exact => exact
  | .array items, exact => itemsExact_canonicalItems items exact
  | .object entries, exact => entriesExact_canonicalEntries entries exact

theorem itemsExact_canonicalItems : (items : List Json) → (exact : ItemsExact items) →
    ItemsExact (canonicalItems items)
  | [], exact => exact
  | item :: rest, exact =>
    ⟨exact_canonical item exact.1, itemsExact_canonicalItems rest exact.2⟩

theorem entriesExact_canonicalEntries : (entries : List (String × Json)) →
    (exact : EntriesExact entries) → EntriesExact (canonicalEntries entries)
  | [], exact => exact
  | (_, item) :: rest, exact =>
    entriesExact_addEntry (exact_canonical item exact.1)
      (entriesExact_canonicalEntries rest exact.2)
end

end Json

namespace Workflow

variable {w next : Workflow} {ws rest : List Workflow}

/-! ## Whether a chain is carried -/

theorem exact_andThen (first : w.toJson.Exact) (second : next.toJson.Exact) :
    (w.andThen next).toJson.Exact :=
  ⟨trivial, first, ⟨trivial, next.toJson.exact_canonical second, trivial⟩, trivial⟩

theorem exact_sequential (exact : ∀ w ∈ ws, w.toJson.Exact) : (sequential ws).toJson.Exact := by
  induction ws with
  | nil => exact ⟨trivial, trivial, trivial⟩
  | cons w rest ih =>
    have first := exact w List.mem_cons_self
    cases rest with
    | nil => exact first
    | cons next rest =>
      exact exact_andThen first (ih fun w hw => exact w (List.mem_cons_of_mem _ hw))

theorem depth_andThen (w next : Workflow) :
    (w.andThen next).toJson.depth = max (w.toJson.depth + 1) (next.toJson.depth + 2) := by
  simp only [andThen, toJson, FunctionRef.toJson, Json.depth, Json.depthEntries, depth_toValue]
  omega

/-- The containers that are around a workflow at a place of a chain of so many: a sequence and a
continuation for each workflow before it, and its own sequence if another one follows. -/
def around (i length : Nat) : Nat := 2 * i + if i + 1 < length then 1 else 0

/-- Whether a text has room for all workflows of a chain, each at its place. -/
def Fits (ws : List Workflow) : Prop :=
  ∀ i w, ws[i]? = some w → w.toJson.depth + around i ws.length ≤ Json.depthLimit

/-- The depth of a chain, place by place. Around the rest of a chain are the containers of the
workflow before it, which the induction counts as `extra`. -/
theorem depth_sequential_le {extra limit : Nat} :
    (sequential (w :: rest)).toJson.depth + extra ≤ limit ↔
      ∀ i u, (w :: rest)[i]? = some u →
        u.toJson.depth + around i (w :: rest).length + extra ≤ limit := by
  induction rest generalizing w extra with
  | nil =>
    constructor
    · rintro fits (_ | i) u hu
      · cases hu
        exact fits
      · cases hu
    · intro each
      exact each 0 w rfl
  | cons next rest ih =>
    have later := @ih next (extra + 2)
    show (w.andThen (sequential (next :: rest))).toJson.depth + extra ≤ limit ↔ _
    rw [depth_andThen]
    constructor
    · rintro fits (_ | i) u hu
      · cases hu
        simp only [around, List.length_cons]
        split <;> omega
      · have place := later.1 (by omega) i u hu
        simp only [around, List.length_cons] at place ⊢
        split at place <;> split <;> omega
    · intro each
      have first := each 0 w rfl
      have others := later.2 fun i u hu => by
        have place := each (i + 1) u hu
        simp only [around, List.length_cons] at place ⊢
        split at place <;> split <;> omega
      simp only [around, List.length_cons] at first
      split at first <;> omega

theorem fits_iff : Fits ws ↔ (sequential ws).toJson.depth ≤ Json.depthLimit := by
  cases ws with
  | nil => exact ⟨fun _ => by decide, fun _ => by rintro i w ⟨⟩⟩
  | cons w rest => exact (@depth_sequential_le w rest 0 Json.depthLimit).symm

theorem one_le_depth (w : Workflow) : 1 ≤ w.toJson.depth := by
  cases w <;> simp [toJson, Json.depth]

/-- A text has room for 64 workflows at most. -/
theorem Fits.length_le (h : Fits ws) : ws.length ≤ 64 := by
  by_contra long
  have last : 64 < ws.length := Nat.lt_of_not_le long
  have room := h 64 _ (List.getElem?_eq_getElem last)
  have flat := ws[64].one_le_depth
  simp only [around, Json.depthLimit] at room
  omega

/-- Whether a workflow arrives as it is when it is sent by itself. -/
structure Carried (w : Workflow) : Prop where
  exact : w.toJson.Exact
  arrives : decode w.encode = .ok w

theorem Carried.not_raisesNull (h : w.Carried) : ¬ w.RaisesNull :=
  ((w.decode_encode h.exact).2.2.1 h.arrives).2

/-- A chain of workflows that are carried one by one is carried if it fits. -/
theorem decode_sequential (alone : ∀ w ∈ ws, w.Carried) (fits : Fits ws) :
    decode (sequential ws).encode = .ok (sequential ws) := by
  rw [decode_text _ (exact_sequential fun w hw => (alone w hw).exact), if_pos (fits_iff.1 fits)]
  cases ws with
  | nil => rfl
  | cons w rest =>
    exact congrArg _ (withoutNulls_sequential (alone w List.mem_cons_self).not_raisesNull)

theorem decode_sequential_refused (alone : ∀ w ∈ ws, w.Carried) (deep : ¬ Fits ws) :
    decode (sequential ws).encode = .error (.ofDecode (.malformed .tooDeep)) := by
  rw [decode_text _ (exact_sequential fun w hw => (alone w hw).exact), if_neg]
  rwa [← fits_iff]

/-! ## What a chain gives -/

variable {s : Surroundings} {r : Except WorkflowError Value}

/-- What workflows may give one after another: the value of the last one if those before it give
values, or the error of the first one that fails. -/
inductive Chained (s : Surroundings) : List Workflow → Except WorkflowError Value → Prop
  | nil : Chained s [] (.ok .null)
  | last {w : Workflow} {r : Except WorkflowError Value} (gives : Permits s w r) :
      Chained s [w] r
  | next {w next : Workflow} {rest : List Workflow} {v : Value} {r : Except WorkflowError Value}
      (gives : Permits s w (.ok v)) (others : Chained s (next :: rest) r) :
      Chained s (w :: next :: rest) r
  | stop {w next : Workflow} {rest : List Workflow} {e : WorkflowError}
      (fails : Permits s w (.error e)) : Chained s (w :: next :: rest) (.error e)

theorem permits_andThen (builtins : s.registry.Includes .standard) :
    Permits s (w.andThen next) r ↔
      (∃ v, Permits s w (.ok v) ∧ Permits s next.withoutNulls r) ∨
      ∃ e, Permits s w (.error e) ∧ r = .error e := by
  have reply (v : Value) := builtins.continueWith_thenDo next v
  constructor
  · intro h
    cases h with
    | @bind _ _ _ v _ body call rest =>
      cases call.symm.trans (reply v)
      exact .inl ⟨v, body, rest⟩
    | @bindFailed _ _ v _ body call => cases call.symm.trans (reply v)
    | bindError body => exact .inr ⟨_, body, rfl⟩
  · rintro (⟨v, body, rest⟩ | ⟨e, body, rfl⟩)
    · exact .bind body (reply v) rest
    · exact .bindError body

theorem permits_sequential (builtins : s.registry.Includes .standard)
    (kept : ∀ w ∈ ws.tail, ¬ w.RaisesNull) : Permits s (sequential ws) r ↔ Chained s ws r := by
  induction ws with
  | nil =>
    constructor
    · rintro ⟨⟩
      exact .nil
    · rintro ⟨⟩
      exact .ret .null
  | cons w rest ih =>
    cases rest with
    | nil =>
      refine ⟨.last, fun h => ?_⟩
      cases h with
      | last gives => exact gives
    | cons next rest =>
      have others := ih fun w hw => kept w (List.mem_cons_of_mem next hw)
      show Permits s (w.andThen (sequential (next :: rest))) r ↔ _
      rw [permits_andThen builtins, withoutNulls_sequential (kept next List.mem_cons_self)]
      constructor
      · rintro (⟨v, first, rest⟩ | ⟨e, fails, rfl⟩)
        · exact .next first (others.1 rest)
        · exact .stop fails
      · intro h
        cases h with
        | next first rest => exact .inl ⟨_, first, others.2 rest⟩
        | stop fails => exact .inr ⟨_, fails, rfl⟩

theorem terminates_sequential (builtins : s.registry.Includes .standard)
    (kept : ∀ w ∈ ws.tail, ¬ w.RaisesNull) (each : ∀ w ∈ ws, w.Terminates s) :
    (sequential ws).Terminates s := by
  induction ws with
  | nil => exact .ret .null
  | cons w rest ih =>
    have first := each w List.mem_cons_self
    cases rest with
    | nil => exact first
    | cons next rest =>
      have others := ih (fun w hw => kept w (List.mem_cons_of_mem next hw))
        fun w hw => each w (List.mem_cons_of_mem _ hw)
      refine .bind first fun {v _} _ call => ?_
      cases call.symm.trans (builtins.continueWith_thenDo (sequential (next :: rest)) v)
      rwa [withoutNulls_sequential (kept next List.mem_cons_self)]

end Workflow

/-! ## The order of a chain -/

namespace Machine

open Relation (ReflTransGen)

/-- What a machine comes to next, whatever the outcome of what it waits for. -/
inductive Moves (r : Registry) : Machine → Machine → Prop
  | next {m m' : Machine} (step : m.step r = .next m') : Moves r m m'
  | operated {m : Machine} {op : Operation} {stack : List Frame}
      (step : m.step r = .operate op stack) (o : Outcome) : Moves r m ⟨stack, .resume o⟩
  | joined {m : Machine} {kind : ForkKind} {children : List Workflow} {stack : List Frame}
      (step : m.step r = .fork kind children stack) (o : Outcome) :
      Moves r m ⟨stack, .resume o⟩

/-- Whether a machine is on its way through a workflow. -/
def Performs (r : Registry) (w : Workflow) (m : Machine) : Prop :=
  ReflTransGen (Moves r) (.start w) m

/-- Whether a workflow may have been performed up to a value. -/
def GivesValue (r : Registry) (w : Workflow) : Prop :=
  ∃ m v, Performs r w m ∧ m.step r = .finished (.ok v)

/-- The machine with more frames below its stack. -/
def above (m : Machine) (below : List Frame) : Machine := ⟨m.stack ++ below, m.control⟩

/-- What a step leads to with more frames below. -/
def Step.above (below : List Frame) : Step → Step
  | .next m => .next (m.above below)
  | .operate op stack => .operate op (stack ++ below)
  | .fork kind children stack => .fork kind children (stack ++ below)
  | .finished o => .finished o
  | .aborted message => .aborted message

variable {r : Registry} {m m' : Machine} {below stack rest : List Frame} {f : FunctionRef}

theorem nearestContinuation_append :
    nearestContinuation (stack ++ below) =
      match nearestContinuation stack with
      | none => nearestContinuation below
      | some (f, rest) => some (f, rest ++ below) := by
  induction stack with
  | nil => rfl
  | cons frame rest ih =>
    cases frame with
    | bind f => rfl
    | tryWith f => exact ih

theorem nearestHandler_append :
    nearestHandler (stack ++ below) =
      match nearestHandler stack with
      | none => nearestHandler below
      | some (f, rest) => some (f, rest ++ below) := by
  induction stack with
  | nil => rfl
  | cons frame rest ih =>
    cases frame with
    | bind f => exact ih
    | tryWith f => rfl

theorem Step.above_ofReply (reply : Reply Workflow) :
    (Step.ofReply stack reply).above below = Step.ofReply (stack ++ below) reply := by
  cases reply <;> rfl

/-- Frames below a machine have no part in its steps until it has finished. -/
theorem step_above (unfinished : ∀ o, m.step r ≠ .finished o) :
    (m.above below).step r = (m.step r).above below := by
  obtain ⟨stack, control⟩ := m
  cases control with
  | eval w => cases w <;> rfl
  | resume o =>
    simp only [Machine.above, step, resume] at unfinished ⊢
    split at unfinished
    · next v =>
      simp only [nearestContinuation_append]
      cases h : nearestContinuation stack with
      | none => exact absurd (by simp only [h]) (unfinished (.ok v))
      | some found => exact (Step.above_ofReply _).symm
    · next e =>
      simp only [nearestHandler_append]
      cases h : nearestHandler stack with
      | none => exact absurd (by simp only [h]) (unfinished (.error (.error e)))
      | some found => exact (Step.above_ofReply _).symm
    · exact absurd rfl (unfinished _)

/-- A machine that has finished hands its outcome on to the frames below. -/
theorem step_above_of_finished {o : Outcome} (finished : m.step r = .finished o) :
    (m.above below).step r = resume r below o := by
  obtain ⟨stack, control⟩ := m
  cases control with
  | eval w => cases w <;> cases finished
  | resume o' =>
    simp only [Machine.above, step, resume] at finished ⊢
    split at finished
    · next v =>
      simp only [nearestContinuation_append]
      cases h : nearestContinuation stack with
      | none =>
        simp only [h] at finished
        cases finished
        rfl
      | some found =>
        simp only [h] at finished
        cases hreply : r.continueWith found.1 v <;> simp [hreply, Step.ofReply] at finished
    · next e =>
      simp only [nearestHandler_append]
      cases h : nearestHandler stack with
      | none =>
        simp only [h] at finished
        cases finished
        rfl
      | some found =>
        simp only [h] at finished
        cases hreply : r.handle found.1 e <;> simp [hreply, Step.ofReply] at finished
    · cases finished
      rfl

theorem Moves.eq_next {m₁ : Machine} (moves : Moves r m m') (step : m.step r = .next m₁) :
    m' = m₁ := by
  cases moves with
  | next h =>
    cases h.symm.trans step
    rfl
  | operated h o => cases h.symm.trans step
  | joined h o => cases h.symm.trans step

theorem Moves.not_finished (moves : Moves r m m') (o : Outcome) : m.step r ≠ .finished o := by
  intro finished
  cases moves with
  | next h => cases h.symm.trans finished
  | operated h o => cases h.symm.trans finished
  | joined h o => cases h.symm.trans finished

/-- A machine that has not finished moves in the same way with more frames below. -/
theorem Moves.of_above (moves : Moves r (m.above below) m')
    (unfinished : ∀ o, m.step r ≠ .finished o) : ∃ m₁, Moves r m m₁ ∧ m' = m₁.above below := by
  have step : (m.above below).step r = (m.step r).above below := step_above unfinished
  cases hs : m.step r with
  | next m₁ =>
    rw [hs] at step
    exact ⟨m₁, .next hs, moves.eq_next step⟩
  | operate op stack =>
    rw [hs] at step
    cases moves with
    | operated h o =>
      cases h.symm.trans step
      exact ⟨_, .operated hs o, rfl⟩
    | next h => cases h.symm.trans step
    | joined h o => cases h.symm.trans step
  | fork kind children stack =>
    rw [hs] at step
    cases moves with
    | joined h o =>
      cases h.symm.trans step
      exact ⟨_, .joined hs o, rfl⟩
    | next h => cases h.symm.trans step
    | operated h o => cases h.symm.trans step
  | finished o => exact absurd hs (unfinished o)
  | aborted message =>
    rw [hs] at step
    cases moves with
    | next h => cases h.symm.trans step
    | operated h o => cases h.symm.trans step
    | joined h o => cases h.symm.trans step

/-- The frame below a workflow of a chain captures all that follows it. -/
def following : List Workflow → List Frame
  | [] => []
  | next :: rest => [.bind ⟨Builtin.thenDo, (Workflow.sequential (next :: rest)).toValue⟩]

/-- Where a machine is that performs the workflows of a chain in order: on its way through one of
them, after values of all before it. -/
inductive InOrder (r : Registry) : List Workflow → Machine → Prop
  | empty {m : Machine} (performs : Performs r .unit m) : InOrder r [] m
  | starts (w next : Workflow) (rest : List Workflow) :
      InOrder r (w :: next :: rest) (.start (.sequential (w :: next :: rest)))
  | within {w : Workflow} {rest : List Workflow} {m : Machine} (performs : Performs r w m) :
      InOrder r (w :: rest) (m.above (following rest))
  | later {w next : Workflow} {rest : List Workflow} {m : Machine} (given : GivesValue r w)
      (others : InOrder r (next :: rest) m) : InOrder r (w :: next :: rest) m

theorem inOrder_start (r : Registry) (ws : List Workflow) :
    InOrder r ws (.start (.sequential ws)) := by
  match ws with
  | [] => exact .empty .refl
  | [w] => exact @InOrder.within r w [] (.start w) .refl
  | w :: next :: rest => exact .starts w next rest

/-- The workflows that follow in a chain start after a value, and only then. -/
theorem resume_following (builtins : r.Includes .standard) (next : Workflow)
    (rest : List Workflow) (kept : ¬ next.RaisesNull) (v : Value) :
    resume r (following (next :: rest)) (.ok v) =
      .next (.start (.sequential (next :: rest))) := by
  have reply := builtins.continueWith_thenDo (.sequential (next :: rest)) v
  rw [Workflow.withoutNulls_sequential kept] at reply
  exact congrArg (Step.ofReply []) reply

theorem resume_following_error (others : List Workflow) (fault : Fault) :
    resume r (following others) (.error fault) = .finished (.error fault) := by
  cases others <;> cases fault <;> rfl

/-- A workflow of a chain goes on until it has finished. If it has given a value and others follow,
then the next one starts. -/
theorem Performs.moves_above (builtins : r.Includes .standard) {w : Workflow}
    {others : List Workflow} (kept : ∀ w ∈ others, ¬ w.RaisesNull) (performs : Performs r w m)
    (moves : Moves r (m.above (following others)) m') : InOrder r (w :: others) m' := by
  by_cases unfinished : ∀ o, m.step r ≠ .finished o
  · obtain ⟨m₁, inside, rfl⟩ := moves.of_above unfinished
    exact .within (performs.tail inside)
  simp only [not_forall, not_not] at unfinished
  obtain ⟨o, finished⟩ := unfinished
  have step : (m.above (following others)).step r = resume r (following others) o :=
    step_above_of_finished finished
  cases o with
  | error fault => exact absurd (step.trans (resume_following_error _ _)) (moves.not_finished _)
  | ok v =>
    cases others with
    | nil => exact absurd step (moves.not_finished _)
    | cons next rest =>
      have start := step.trans
        (resume_following builtins next rest (kept next List.mem_cons_self) v)
      rw [moves.eq_next start]
      exact .later ⟨m, v, performs, finished⟩ (inOrder_start r _)

/-- A machine that performs a chain in order goes on to do so. -/
theorem InOrder.moves {ws : List Workflow} (h : InOrder r ws m) (builtins : r.Includes .standard)
    (kept : ∀ w ∈ ws.tail, ¬ w.RaisesNull) (moves : Moves r m m') : InOrder r ws m' := by
  induction h with
  | empty performs => exact .empty (performs.tail moves)
  | starts w next rest =>
    rw [moves.eq_next rfl]
    exact @InOrder.within r w (next :: rest) (.start w) .refl
  | within performs => exact performs.moves_above builtins kept moves
  | later given others ih =>
    exact .later given (ih (fun w hw => kept w (List.mem_cons_of_mem _ hw)) moves)

end Machine

end WorkflowEngine
