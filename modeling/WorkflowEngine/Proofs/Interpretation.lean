import WorkflowEngine.Evaluation.Machine
import WorkflowEngine.Registry.Builtin
/-!
Workflows evaluated by recursion over their parts: a sequence evaluates its body and then what
follows the value, a protected part catches the error of its body and no other. The machine keeps
the same parts on a stack; it applies the same functions and comes to the same end.
-/
set_option autoImplicit false

namespace WorkflowEngine

/-- What an evaluation waits for: an operation, or the join of a fork. -/
inductive Suspension where
  | operation (op : Operation)
  | join (kind : ForkKind) (children : List Workflow)

/-- The outcomes of all that an evaluation waits for, in the order in which it does. -/
abbrev Assignment := Nat → Suspension → Outcome

/-- A function applied to a value or to an error; its captured value is part of the reference.
Under a name that is not registered the application fails. -/
inductive Application where
  | continuation (f : FunctionRef) (v : Value)
  | handler (f : FunctionRef) (e : WorkflowError)

def Registry.reply (r : Registry) : Application → Reply Workflow
  | .continuation f v => r.continueWith f v
  | .handler f e => r.handle f e

/-- Why an evaluation gives no value: by a fault, or by the abort of a function. -/
inductive Halt where
  | fault (f : Fault)
  | aborted (message : Option String)

/-- A function that fails raises its error where it is applied. -/
def Reply.result : Reply Workflow → Except Halt Workflow
  | .ok w => .ok w
  | .failed e => .error (.fault (.error e))
  | .aborted message => .error (.aborted message)

/-- What an evaluation has done: the functions it applied, in their order, and how often it has
waited. -/
structure Trace where
  applied : List Application := []
  waited : Nat := 0

namespace Trace

def apply (t : Trace) (a : Application) : Trace := { t with applied := t.applied ++ [a] }

def wait (t : Trace) : Trace := { t with waited := t.waited + 1 }

end Trace

/-! ## Recursion over the parts -/

/-- A computation that notes what it does and ends with a value or a halt, if it ends. -/
abbrev Interpretation := ExceptT Halt (StateT Trace Option)

namespace Interpretation

def apply (r : Registry) (a : Application) : Interpretation Workflow := do
  modify fun t => t.apply a
  ofExcept (r.reply a).result

def await (assigned : Assignment) (s : Suspension) : Interpretation Value := do
  let t ← getModify Trace.wait
  ofExcept ((assigned t.waited s).mapError .fault)

end Interpretation

namespace Workflow

open Interpretation in
/-- Evaluates a workflow by recursion, at most so deep. -/
def interpret (r : Registry) (assigned : Assignment) : Nat → Workflow → Interpretation Value
  | 0, _ => ExceptT.lift failure
  | _ + 1, .ret v => return v
  | _ + 1, .raise e => throw (.fault (.error e))
  | _ + 1, .perform op => await assigned (.operation op)
  | _ + 1, .parallel ws => await assigned (.join .parallel ws)
  | _ + 1, .choice ws => await assigned (.join .choice ws)
  | depth + 1, .bind w f => do
    let v ← interpret r assigned depth w
    let next ← apply r (.continuation f v)
    interpret r assigned depth next
  | depth + 1, .tryWith w f =>
    try interpret r assigned depth w
    catch
      | .fault (.error e) => do
        let next ← apply r (.handler f e)
        interpret r assigned depth next
      | halt => throw halt

end Workflow

/-! ## The machine with its stack -/

namespace Machine

/-- The application that the next step makes. -/
def application? (m : Machine) : Option Application :=
  match m.control with
  | .eval _ => none
  | .resume (.ok v) => (nearestContinuation m.stack).map fun (f, _) => .continuation f v
  | .resume (.error (.error e)) => (nearestHandler m.stack).map fun (f, _) => .handler f e
  | .resume (.error .cancelled) => none

/-- Takes steps until the end, at most so many. -/
def run (r : Registry) (assigned : Assignment) :
    Nat → Machine → Trace → Option (Except Halt Value × Trace)
  | 0, _, _ => none
  | fuel + 1, m, t =>
    let t := m.application?.elim t t.apply
    match m.step r with
    | .next m => run r assigned fuel m t
    | .operate op stack =>
      run r assigned fuel ⟨stack, .resume (assigned t.waited (.operation op))⟩ t.wait
    | .fork kind children stack =>
      run r assigned fuel ⟨stack, .resume (assigned t.waited (.join kind children))⟩ t.wait
    | .finished o => some (o.mapError .fault, t)
    | .aborted message => some (.error (.aborted message), t)

/-- Hands on how a part ended. -/
def handOn (r : Registry) (assigned : Assignment) (fuel : Nat) (stack : List Frame) (t : Trace) :
    Except Halt Value → Option (Except Halt Value × Trace)
  | .ok v => run r assigned fuel ⟨stack, .resume (.ok v)⟩ t
  | .error (.fault f) => run r assigned fuel ⟨stack, .resume (.error f)⟩ t
  | .error (.aborted message) => some (.error (.aborted message), t)

/-- Goes on after an application. -/
def follow (r : Registry) (assigned : Assignment) (fuel : Nat) (stack : List Frame) (t : Trace) :
    Except Halt Workflow → Option (Except Halt Value × Trace)
  | .ok w => run r assigned fuel ⟨stack, .eval w⟩ t
  | .error halt => handOn r assigned fuel stack t (.error halt)

end Machine

/-! ## Interpretations that end -/

namespace Interpretation

variable {α β : Type} {x : Interpretation α} {f g : α → Interpretation β}
  {h : Halt → Interpretation α} {t t' t'' : Trace}

/-- An interpretation that starts after one trace ends after another. -/
def Gives (x : Interpretation α) (t : Trace) (result : Except Halt α) (t' : Trace) : Prop :=
  x.run.run t = some (result, t')

theorem gives_bind {result : Except Halt β} :
    (x >>= f).Gives t result t'' ↔
      (∃ a t', x.Gives t (.ok a) t' ∧ (f a).Gives t' result t'') ∨
        ∃ halt, x.Gives t (.error halt) t'' ∧ result = .error halt := by
  simp only [Gives, ExceptT.run_bind, StateT.run_bind, Option.bind_eq_bind, Option.bind_eq_some_iff]
  constructor
  · rintro ⟨⟨a | a, t'⟩, hx, hf⟩
    · cases hf
      exact .inr ⟨a, hx, rfl⟩
    · exact .inl ⟨a, t', hx, hf⟩
  · rintro (⟨a, t', hx, hf⟩ | ⟨halt, hx, rfl⟩)
    · exact ⟨(.ok a, t'), hx, hf⟩
    · exact ⟨(.error halt, t''), hx, rfl⟩

theorem gives_bind_mono {result : Except Halt β}
    (mono : ∀ a {t t'}, (f a).Gives t result t' → (g a).Gives t result t')
    (h : (x >>= f).Gives t result t'') : (x >>= g).Gives t result t'' :=
  gives_bind.2 <| (gives_bind.1 h).imp_left fun ⟨a, t', hx, hf⟩ => ⟨a, t', hx, mono a hf⟩

theorem gives_catch {result : Except Halt α} :
    (tryCatch x h).Gives t result t'' ↔
      (∃ halt t', x.Gives t (.error halt) t' ∧ (h halt).Gives t' result t'') ∨
        ∃ a, x.Gives t (.ok a) t'' ∧ result = .ok a := by
  simp only [Gives, ExceptT.run_tryCatch, StateT.run_bind, Option.bind_eq_bind,
    Option.bind_eq_some_iff]
  constructor
  · rintro ⟨⟨a | a, t'⟩, hx, hf⟩
    · exact .inl ⟨a, t', hx, hf⟩
    · cases hf
      exact .inr ⟨a, hx, rfl⟩
  · rintro (⟨halt, t', hx, hf⟩ | ⟨a, hx, rfl⟩)
    · exact ⟨(.error halt, t'), hx, hf⟩
    · exact ⟨(.ok a, t''), hx, rfl⟩

theorem gives_ofExcept {a result : Except Halt α} :
    (ofExcept a : Interpretation α).Gives t result t' ↔ result = a ∧ t' = t := by
  have h : (ofExcept a : Interpretation α).run.run t = some (a, t) := by
    cases a <;> rfl
  simp only [Gives, h, Option.some.injEq, Prod.mk.injEq, eq_comm]

theorem gives_throw {halt : Halt} {result : Except Halt α} :
    (throw halt : Interpretation α).Gives t result t' ↔ result = .error halt ∧ t' = t :=
  gives_ofExcept (a := .error halt)

theorem gives_apply {r : Registry} {a : Application} {result : Except Halt Workflow} :
    (apply r a).Gives t result t' ↔ result = (r.reply a).result ∧ t' = t.apply a :=
  gives_ofExcept (t := t.apply a)

theorem gives_await {assigned : Assignment} {s : Suspension} {result : Except Halt Value} :
    (await assigned s).Gives t result t' ↔
      result = (assigned t.waited s).mapError .fault ∧ t' = t.wait :=
  gives_ofExcept (t := t.wait)

end Interpretation

namespace Workflow

open Interpretation

variable {r : Registry} {assigned : Assignment} {depth : Nat} {w : Workflow} {f : FunctionRef}
  {t t' t'' : Trace} {result : Except Halt Value}

theorem interpret_bind :
    (interpret r assigned (depth + 1) (.bind w f)).Gives t result t'' ↔
      (∃ v t', (interpret r assigned depth w).Gives t (.ok v) t' ∧
        (apply r (.continuation f v) >>= interpret r assigned depth).Gives t' result t'') ∨
      ((interpret r assigned depth w).Gives t result t'' ∧ ∀ v, result ≠ .ok v) := by
  refine gives_bind.trans (or_congr Iff.rfl ⟨?_, ?_⟩)
  · rintro ⟨halt, body, rfl⟩
    exact ⟨body, fun _ => nofun⟩
  · rintro ⟨body, ends⟩
    cases result with
    | ok v => exact absurd rfl (ends v)
    | error halt => exact ⟨halt, body, rfl⟩

theorem interpret_tryWith :
    (interpret r assigned (depth + 1) (.tryWith w f)).Gives t result t'' ↔
      (∃ e t', (interpret r assigned depth w).Gives t (.error (.fault (.error e))) t' ∧
        (apply r (.handler f e) >>= interpret r assigned depth).Gives t' result t'') ∨
      ((interpret r assigned depth w).Gives t result t'' ∧
        ∀ e, result ≠ .error (.fault (.error e))) := by
  refine gives_catch.trans ⟨?_, ?_⟩
  · rintro (⟨halt, t', body, caught⟩ | ⟨v, body, rfl⟩)
    · split at caught
      · next e => exact .inl ⟨e, t', body, caught⟩
      · next other =>
        obtain ⟨rfl, rfl⟩ := gives_throw.1 caught
        exact .inr ⟨body, fun e h => other e (Except.error.inj h)⟩
    · exact .inr ⟨body, fun _ => nofun⟩
  · rintro (⟨e, t', body, caught⟩ | ⟨body, ends⟩)
    · exact .inl ⟨_, t', body, caught⟩
    · cases result with
      | ok v => exact .inr ⟨v, body, rfl⟩
      | error halt =>
        refine .inl ⟨halt, t'', body, ?_⟩
        split
        · next e => exact absurd rfl (ends e)
        · exact gives_throw.2 ⟨rfl, rfl⟩

/-- An interpretation that ends within a depth ends so within any greater one. -/
theorem interpret_succ (h : (interpret r assigned depth w).Gives t result t') :
    (interpret r assigned (depth + 1) w).Gives t result t' := by
  induction depth generalizing w t result t' with
  | zero => cases h
  | succ depth ih =>
    have applied {a : Application} {t : Trace}
        (h : (apply r a >>= interpret r assigned depth).Gives t result t') :
        (apply r a >>= interpret r assigned (depth + 1)).Gives t result t' :=
      gives_bind_mono (fun _ => ih) h
    cases w with
    | ret v => exact h
    | raise e => exact h
    | perform op => exact h
    | parallel ws => exact h
    | choice ws => exact h
    | bind w f =>
      refine interpret_bind.2 ((interpret_bind.1 h).imp ?_ ?_)
      · rintro ⟨v, t₁, body, rest⟩
        exact ⟨v, t₁, ih body, applied rest⟩
      · rintro ⟨body, ends⟩
        exact ⟨ih body, ends⟩
    | tryWith w f =>
      refine interpret_tryWith.2 ((interpret_tryWith.1 h).imp ?_ ?_)
      · rintro ⟨e, t₁, body, rest⟩
        exact ⟨e, t₁, ih body, applied rest⟩
      · rintro ⟨body, ends⟩
        exact ⟨ih body, ends⟩

theorem interpret_mono {depth' : Nat} (le : depth ≤ depth')
    (h : (interpret r assigned depth w).Gives t result t') :
    (interpret r assigned depth' w).Gives t result t' := by
  induction le with
  | refl => exact h
  | step _ ih => exact interpret_succ ih

end Workflow

/-! ## The machine does what the recursion does -/

namespace Machine

open Interpretation Workflow

variable {r : Registry} {assigned : Assignment} {fuel : Nat} {stack : List Frame}
  {f : FunctionRef} {w : Workflow} {t t' : Trace} {result : Except Halt Value}
  {out : Except Halt Value × Trace}

theorem handOn_outcome (o : Outcome) :
    handOn r assigned fuel stack t (o.mapError .fault) =
      run r assigned fuel ⟨stack, .resume o⟩ t := by
  cases o <;> rfl

theorem run_continuation (v : Value) :
    run r assigned (fuel + 1) ⟨.bind f :: stack, .resume (.ok v)⟩ t =
      follow r assigned fuel stack (t.apply (.continuation f v)) (r.continueWith f v).result := by
  simp only [run, step, resume, nearestContinuation, application?, Option.map_some, Option.elim]
  cases r.continueWith f v <;> rfl

theorem run_handler (e : WorkflowError) :
    run r assigned (fuel + 1) ⟨.tryWith f :: stack, .resume (.error (.error e))⟩ t =
      follow r assigned fuel stack (t.apply (.handler f e)) (r.handle f e).result := by
  simp only [run, step, resume, nearestHandler, application?, Option.map_some, Option.elim]
  cases r.handle f e <;> rfl

/-- A continuation is skipped by all but a value. -/
theorem handOn_bind (ends : ∀ v, result ≠ .ok v) :
    handOn r assigned fuel (.bind f :: stack) t result = handOn r assigned fuel stack t result := by
  match result with
  | .ok v => exact absurd rfl (ends v)
  | .error (.fault (.error e)) => cases fuel <;> rfl
  | .error (.fault .cancelled) => cases fuel <;> rfl
  | .error (.aborted message) => rfl

/-- A handler is discarded by all but an error. -/
theorem handOn_tryWith (ends : ∀ e, result ≠ .error (.fault (.error e))) :
    handOn r assigned fuel (.tryWith f :: stack) t result =
      handOn r assigned fuel stack t result := by
  match result with
  | .ok v => cases fuel <;> rfl
  | .error (.fault (.error e)) => exact absurd rfl (ends e)
  | .error (.fault .cancelled) => cases fuel <;> rfl
  | .error (.aborted message) => rfl

theorem handOn_nil : handOn r assigned (fuel + 1) [] t result = some (result, t) := by
  match result with
  | .ok v => rfl
  | .error (.fault (.error e)) => rfl
  | .error (.fault .cancelled) => rfl
  | .error (.aborted message) => rfl

theorem eq_of_handOn_nil (h : handOn r assigned fuel [] t result = some out) :
    out = (result, t) := by
  obtain - | fuel := fuel
  · rcases result with (f | message) | v
    · cases h
    · cases h
      rfl
    · cases h
  · exact Option.some.inj (h.symm.trans handOn_nil)

theorem run_succ {m : Machine} (h : run r assigned fuel m t = some out) :
    run r assigned (fuel + 1) m t = some out := by
  induction fuel generalizing m t with
  | zero => cases h
  | succ fuel ih =>
    rw [run] at h ⊢
    cases hs : m.step r <;> simp only [hs] at h ⊢
    case next | operate | fork => exact ih h
    all_goals exact h

/-- A part is evaluated under a frame, its end is what the frame applies, and the rest follows. -/
theorem run_frame {frame : Frame} {a : Application} {ended : Except Halt Value} {t₁ : Trace}
    {n k : Nat} (part : ∀ fuel stack,
      run r assigned (fuel + n) ⟨stack, .eval w⟩ t = handOn r assigned fuel stack t₁ ended)
    (applies : ∀ fuel, handOn r assigned (fuel + 1) (frame :: stack) t₁ ended =
      follow r assigned fuel stack (t₁.apply a) (r.reply a).result)
    (rest : ∀ fuel stack, follow r assigned (fuel + k) stack (t₁.apply a) (r.reply a).result =
      handOn r assigned fuel stack t' result) (fuel : Nat) :
    run r assigned (fuel + (k + 1 + n)) ⟨frame :: stack, .eval w⟩ t =
      handOn r assigned fuel stack t' result := by
  have sum : fuel + (k + 1 + n) = fuel + k + 1 + n := by omega
  calc run r assigned (fuel + (k + 1 + n)) ⟨frame :: stack, .eval w⟩ t
    _ = run r assigned (fuel + k + 1 + n) ⟨frame :: stack, .eval w⟩ t := by rw [sum]
    _ = handOn r assigned (fuel + k + 1) (frame :: stack) t₁ ended := part _ _
    _ = follow r assigned (fuel + k) stack (t₁.apply a) (r.reply a).result := applies _
    _ = handOn r assigned fuel stack t' result := rest fuel stack

/-- Whatever stack a part stands on, the machine evaluates it as the recursion does, and then hands
on how it ended. -/
theorem run_of_gives {depth : Nat} (h : (interpret r assigned depth w).Gives t result t') :
    ∃ spent, ∀ fuel stack, run r assigned (fuel + spent) ⟨stack, .eval w⟩ t =
      handOn r assigned fuel stack t' result := by
  induction depth generalizing w t result t' with
  | zero => cases h
  | succ depth ih =>
    have applied {a : Application} {t₁ : Trace}
        (h : (apply r a >>= interpret r assigned depth).Gives t₁ result t') :
        ∃ spent, ∀ fuel stack, follow r assigned (fuel + spent) stack (t₁.apply a)
          (r.reply a).result = handOn r assigned fuel stack t' result := by
      obtain ⟨next, t₂, call, rest⟩ | ⟨halt, call, rfl⟩ := gives_bind.1 h
      · obtain ⟨hr, rfl⟩ := gives_apply.1 call
        rw [← hr]
        exact ih rest
      · obtain ⟨hr, rfl⟩ := gives_apply.1 call
        rw [← hr]
        exact ⟨0, fun _ _ => rfl⟩
    have awaited {s : Suspension} (h : (await assigned s).Gives t result t') (fuel stack) :
        run r assigned fuel ⟨stack, .resume (assigned t.waited s)⟩ t.wait =
          handOn r assigned fuel stack t' result := by
      obtain ⟨rfl, rfl⟩ := gives_await.1 h
      exact (handOn_outcome _).symm
    cases w with
    | ret v =>
      cases h
      exact ⟨1, fun _ _ => rfl⟩
    | raise e =>
      cases h
      exact ⟨1, fun _ _ => rfl⟩
    | perform op => exact ⟨1, awaited h⟩
    | parallel ws => exact ⟨1, awaited h⟩
    | choice ws => exact ⟨1, awaited h⟩
    | bind w f =>
      obtain ⟨v, t₁, body, rest⟩ | ⟨body, ends⟩ := interpret_bind.1 h
      · obtain ⟨n, hn⟩ := ih body
        obtain ⟨k, hk⟩ := applied rest
        exact ⟨k + 1 + n + 1, fun fuel _ => run_frame hn (fun _ => run_continuation v) hk fuel⟩
      · obtain ⟨n, hn⟩ := ih body
        exact ⟨n + 1, fun fuel stack => (hn fuel _).trans (handOn_bind ends)⟩
    | tryWith w f =>
      obtain ⟨e, t₁, body, rest⟩ | ⟨body, ends⟩ := interpret_tryWith.1 h
      · obtain ⟨n, hn⟩ := ih body
        obtain ⟨k, hk⟩ := applied rest
        exact ⟨k + 1 + n + 1, fun fuel _ => run_frame hn (fun _ => run_handler e) hk fuel⟩
      · obtain ⟨n, hn⟩ := ih body
        exact ⟨n + 1, fun fuel stack => (hn fuel _).trans (handOn_tryWith ends)⟩

/-- A machine that comes to its end has evaluated the part it began with as the recursion does. -/
theorem gives_of_run (h : run r assigned fuel ⟨stack, .eval w⟩ t = some out) :
    ∃ depth result t' left, left < fuel ∧ (interpret r assigned depth w).Gives t result t' ∧
      handOn r assigned left stack t' result = some out := by
  induction fuel using Nat.strongRecOn generalizing stack w t with
  | _ fuel ih =>
    obtain - | fuel := fuel
    · cases h
    have applied {a : Application} {t₁ : Trace} {m : Nat} (hm : m < fuel + 1)
        (h : follow r assigned m stack (t₁.apply a) (r.reply a).result = some out) :
        ∃ depth result t' left, left < fuel + 1 ∧
          (apply r a >>= interpret r assigned depth).Gives t₁ result t' ∧
          handOn r assigned left stack t' result = some out := by
      cases hr : (r.reply a).result with
      | ok next =>
        rw [hr] at h
        obtain ⟨depth, result, t', left, hl, rest, ends⟩ := ih m hm h
        exact ⟨depth, result, t', left, Nat.lt_trans hl hm,
          gives_bind.2 (.inl ⟨next, _, gives_apply.2 ⟨hr.symm, rfl⟩, rest⟩), ends⟩
      | error halt =>
        rw [hr] at h
        exact ⟨0, .error halt, _, m, hm,
          gives_bind.2 (.inr ⟨halt, gives_apply.2 ⟨hr.symm, rfl⟩, rfl⟩), h⟩
    have awaited {s : Suspension}
        (h : run r assigned fuel ⟨stack, .resume (assigned t.waited s)⟩ t.wait = some out) :
        ∃ result t' left, left < fuel + 1 ∧ (await assigned s).Gives t result t' ∧
          handOn r assigned left stack t' result = some out :=
      ⟨_, _, fuel, fuel.lt_succ_self, gives_await.2 ⟨rfl, rfl⟩, (handOn_outcome _).trans h⟩
    cases w with
    | ret v => exact ⟨1, .ok v, t, fuel, fuel.lt_succ_self, rfl, h⟩
    | raise e => exact ⟨1, _, t, fuel, fuel.lt_succ_self, rfl, h⟩
    | perform op => exact ⟨1, awaited h⟩
    | parallel ws => exact ⟨1, awaited h⟩
    | choice ws => exact ⟨1, awaited h⟩
    | bind w f =>
      obtain ⟨d₁, result, t₁, m, hm, body, rest⟩ := ih fuel fuel.lt_succ_self h
      by_cases ends : ∀ v, result ≠ .ok v
      · rw [handOn_bind ends] at rest
        exact ⟨d₁ + 1, result, t₁, m, Nat.lt_succ_of_lt hm,
          interpret_bind.2 (.inr ⟨body, ends⟩), rest⟩
      · obtain ⟨v, hv⟩ := Classical.not_forall.1 ends
        cases Classical.not_not.1 hv
        obtain - | m := m
        · cases rest
        have after := (run_continuation v).symm.trans rest
        obtain ⟨d₂, result, t₂, left, hl, rest, last⟩ :=
          applied (by omega) after
        exact ⟨max d₁ d₂ + 1, result, t₂, left, hl, interpret_bind.2 (.inl ⟨v, t₁,
          interpret_mono (Nat.le_max_left _ _) body,
          gives_bind_mono (fun _ => interpret_mono (Nat.le_max_right _ _)) rest⟩), last⟩
    | tryWith w f =>
      obtain ⟨d₁, result, t₁, m, hm, body, rest⟩ := ih fuel fuel.lt_succ_self h
      by_cases ends : ∀ e, result ≠ .error (.fault (.error e))
      · rw [handOn_tryWith ends] at rest
        exact ⟨d₁ + 1, result, t₁, m, Nat.lt_succ_of_lt hm,
          interpret_tryWith.2 (.inr ⟨body, ends⟩), rest⟩
      · obtain ⟨e, he⟩ := Classical.not_forall.1 ends
        cases Classical.not_not.1 he
        obtain - | m := m
        · cases rest
        have after := (run_handler e).symm.trans rest
        obtain ⟨d₂, result, t₂, left, hl, rest, last⟩ :=
          applied (by omega) after
        exact ⟨max d₁ d₂ + 1, result, t₂, left, hl, interpret_tryWith.2 (.inl ⟨e, t₁,
          interpret_mono (Nat.le_max_left _ _) body,
          gives_bind_mono (fun _ => interpret_mono (Nat.le_max_right _ _)) rest⟩), last⟩

theorem run_mono {m : Machine} (h : run r assigned fuel m t = some out) (more : Nat) :
    run r assigned (fuel + more) m t = some out := by
  induction more with
  | zero => exact h
  | succ more ih => exact run_succ ih

/-- An error passes all continuations on its way to the nearest handler. -/
theorem handOn_error (fs : List FunctionRef) (e : WorkflowError) :
    handOn r assigned fuel (fs.map .bind ++ stack) t (.error (.fault (.error e))) =
      handOn r assigned fuel stack t (.error (.fault (.error e))) := by
  induction fs with
  | nil => rfl
  | cons f fs ih => exact (handOn_bind (by simp)).trans ih

/-- The machine comes to an end exactly where the recursion does, with the same result and the same
applications. -/
theorem run_iff_gives : (∃ fuel, run r assigned fuel (.start w) t = some (result, t')) ↔
    ∃ depth, (interpret r assigned depth w).Gives t result t' := by
  constructor
  · rintro ⟨fuel, h⟩
    obtain ⟨depth, result', t₁, left, -, gives, ends⟩ := gives_of_run h
    cases eq_of_handOn_nil ends
    exact ⟨depth, gives⟩
  · rintro ⟨depth, gives⟩
    obtain ⟨spent, h⟩ := run_of_gives gives
    exact ⟨1 + spent, (h 1 []).trans handOn_nil⟩

variable {depth : Nat} {e : WorkflowError}

/-- An error that no handler stands around is the result, as it is. -/
theorem run_uncaught
    (gives : (interpret r assigned depth w).Gives t (.error (.fault (.error e))) t')
    (fs : List FunctionRef) : ∃ fuel, run r assigned fuel ⟨fs.map .bind, .eval w⟩ t =
      some (.error (.fault (.error e)), t') := by
  obtain ⟨spent, h⟩ := run_of_gives gives
  have passes : handOn r assigned 1 (fs.map .bind ++ []) t' (.error (.fault (.error e))) =
      handOn r assigned 1 [] t' (.error (.fault (.error e))) := handOn_error fs e
  rw [List.append_nil] at passes
  exact ⟨1 + spent, (h 1 _).trans (passes.trans handOn_nil)⟩

/-- Behind any continuations an error is applied to the nearest handler, and what goes on from there
is all that follows. -/
theorem run_caught_iff
    (gives : (interpret r assigned depth w).Gives t (.error (.fault (.error e))) t')
    (fs : List FunctionRef) (f : FunctionRef) (stack : List Frame)
    (out : Except Halt Value × Trace) :
    (∃ fuel, run r assigned fuel ⟨fs.map .bind ++ .tryWith f :: stack, .eval w⟩ t = some out) ↔
      ∃ fuel, follow r assigned fuel stack (t'.apply (.handler f e)) (r.handle f e).result =
        some out := by
  obtain ⟨spent, h⟩ := run_of_gives gives
  have caught (fuel : Nat) :
      run r assigned (fuel + 1 + spent) ⟨fs.map .bind ++ .tryWith f :: stack, .eval w⟩ t =
        follow r assigned fuel stack (t'.apply (.handler f e)) (r.handle f e).result :=
    (h (fuel + 1) _).trans ((handOn_error fs e).trans (run_handler e))
  constructor
  · rintro ⟨fuel, ends⟩
    refine ⟨fuel, (caught fuel).symm.trans ?_⟩
    rw [Nat.add_assoc]
    exact run_mono ends (1 + spent)
  · rintro ⟨fuel, ends⟩
    exact ⟨fuel + 1 + spent, (caught fuel).trans ends⟩

end Machine

end WorkflowEngine
