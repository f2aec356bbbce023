import WorkflowEngine.Cluster.Step
/-!
Registries whose functions raise an error instead of aborting. An operation does the same with one
as with the other, up to how it ends; a machine does the same up to its first abort.
-/
set_option autoImplicit false

namespace WorkflowEngine

open Cluster (abortError)

/-- The reply that raises an error instead of aborting. -/
def Reply.raising {α : Type} : Reply α → Reply α
  | .ok a => .ok a
  | .failed e => .failed e
  | .aborted message => .failed (abortError message)

namespace Registry

/-- Every function of a table, followed by another one. -/
def after {α : Type} (g : α → α) (table : List (String × α)) : List (String × α) :=
  table.map fun entry => (entry.1, g entry.2)

/-- The registry in which every call that would abort raises an error instead. -/
def raising (r : Registry) : Registry where
  continuations := after (fun f input env => (f input env).raising) r.continuations
  handlers := after (fun f e env => (f e env).raising) r.handlers
  updates := after (fun f current env => (f current env).raising) r.updates
  functions := after (fun f arg => ⟨(f arg).millis, (f arg).reply.raising⟩) r.functions

theorem find_after {α : Type} (g : α → α) (table : List (String × α)) (name : String) :
    find (after g table) name = (find table name).map g := by
  have lookup : (after g table).lookup name = (table.lookup name).map g := by
    induction table with
    | nil => rfl
    | cons entry rest ih =>
      obtain ⟨key, a⟩ := entry
      simp only [after, List.map_cons, List.lookup_cons] at ih ⊢
      cases name == key with
      | true => rfl
      | false => exact ih
  unfold find
  rw [lookup]
  cases table.lookup name <;> rfl

theorem continueWith_raising (r : Registry) (f : FunctionRef) (v : Value) :
    r.raising.continueWith f v = (r.continueWith f v).raising := by
  simp only [continueWith, raising, find_after]
  cases find r.continuations f.name <;> rfl

theorem handle_raising (r : Registry) (f : FunctionRef) (e : WorkflowError) :
    r.raising.handle f e = (r.handle f e).raising := by
  simp only [handle, raising, find_after]
  cases find r.handlers f.name <;> rfl

theorem update_raising (r : Registry) (f : FunctionRef) :
    r.raising.update f = (r.update f).map fun u v => (u v).raising := by
  simp only [update, raising, find_after]
  cases find r.updates f.name <;> rfl

theorem invoke_raising (r : Registry) (name : String) (arg : Value) :
    r.raising.invoke name arg =
      (r.invoke name arg).map fun a => ⟨a.millis, a.reply.raising⟩ := by
  simp only [invoke, raising, find_after]
  cases find r.functions name <;> rfl

end Registry

namespace Program

variable {α β γ : Type}

theorem map_bind (f : β → γ) (p : Program α) (g : α → Program β) :
    f <$> (p >>= g) = p >>= fun a => f <$> g a := by
  induction p with
  | done a => rfl
  | ask r next ih => exact congrArg (Program.ask r) (funext ih)

/-- A program that goes on with what another one gives, changed by a function. -/
theorem bind_map (f : α → β) (p : Program α) (g : β → Program γ) :
    (f <$> p) >>= g = p >>= fun a => g (f a) := by
  induction p with
  | done a => rfl
  | ask r next ih => exact congrArg (Program.ask r) (funext ih)

end Program

/-- The end of a transaction that raises an error instead of aborting. -/
def TransactFault.raising : TransactFault → TransactFault
  | .store e => .store e
  | .failed e => .failed e
  | .aborted message => .failed (abortError message)

namespace Atom

/-- The second part of a transaction does what the first one does and raises an error where that
one aborts. -/
def Raises {α : Type} (p p' : ExceptT TransactFault Program α) : Prop :=
  p'.run = Except.mapError TransactFault.raising <$> p.run

section Raises

variable {α β : Type}

theorem raises_pure (a : α) : Raises (pure a : ExceptT TransactFault Program α) (pure a) := rfl

theorem raises_throw (e : TransactFault) :
    Raises (throw e : ExceptT TransactFault Program α) (throw e.raising) := rfl

theorem raises_bind {p p' : ExceptT TransactFault Program α}
    {f f' : α → ExceptT TransactFault Program β} (hp : Raises p p')
    (hf : ∀ a, Raises (f a) (f' a)) : Raises (p >>= f) (p' >>= f') := by
  unfold Raises at hp ⊢
  rw [ExceptT.run_bind, ExceptT.run_bind, hp, Program.bind_map, Program.map_bind]
  congr 1
  funext result
  cases result with
  | ok a => exact hf a
  | error e => rfl

theorem raises_adapt (p : StoreProgram α) :
    Raises (p.adapt TransactFault.store) (p.adapt .store) := by
  have run : (p.adapt TransactFault.store).run = p.run >>= fun r => pure (r.mapError .store) := rfl
  unfold Raises
  rw [run, Program.map_bind]
  congr 1
  funext r
  cases r <;> rfl

theorem raises_lift (p : Program α) :
    Raises (ExceptT.lift p : ExceptT TransactFault Program α) (ExceptT.lift p) := by
  have run : (ExceptT.lift p : ExceptT TransactFault Program α).run = p >>= fun a => pure (.ok a) :=
    rfl
  unfold Raises
  rw [run, Program.map_bind]
  rfl

variable (element : Decoder Value) (a : Atom) (update : Value → Reply (Bool × Value))

theorem raises_attempt :
    Raises (attempt element a update) (attempt element a fun v => (update v).raising) := by
  refine raises_bind (raises_adapt _) fun found => ?_
  cases found with
  | none => exact raises_throw _
  | some entry =>
    refine raises_bind (raises_adapt _) fun current => ?_
    dsimp only
    cases update current with
    | failed e => exact raises_throw (.failed e)
    | aborted message => exact raises_throw (.aborted message)
    | ok result =>
      obtain ⟨applies, next⟩ := result
      cases applies with
      | false => exact raises_pure _
      | true => exact raises_bind (raises_adapt _) fun swapped => raises_pure _

theorem raises_attempts (limit left : Nat) :
    Raises (attempts element a update limit left)
      (attempts element a (fun v => (update v).raising) limit left) := by
  induction left with
  | zero => exact raises_throw _
  | succ left ih =>
    refine raises_bind (raises_attempt element a update) fun applied => ?_
    cases applied with
    | some applied => exact raises_pure _
    | none => exact raises_bind (raises_lift _) fun _ => ih

end Raises

theorem always_raising (update : Value → Reply (Bool × Value)) :
    always (fun v => (update v).raising) = fun v => (always update v).raising := by
  funext v
  unfold always
  dsimp only
  cases update v <;> rfl

end Atom

namespace Effect

def raising : Effect → Effect
  | .immediate r => .immediate r
  | .guarded p => .guarded (Reply.raising <$> p)

theorem raising_ofStore {α : Type} (encode : α → Value) (p : StoreProgram α) :
    (ofStore encode p).raising = ofStore encode p := by
  simp only [ofStore, raising, Program.map_bind]
  congr 2
  funext r
  cases r <;> rfl

theorem raising_ofTransaction (encode : Bool → Value) {p p' : ExceptT TransactFault Program Bool}
    (h : Atom.Raises p p') : (ofTransaction encode p).raising = ofTransaction encode p' := by
  unfold Atom.Raises at h
  simp only [ofTransaction, raising, h, Program.map_bind, Program.bind_map]
  congr 2
  funext r
  cases r with
  | ok applied => rfl
  | error e => cases e <;> rfl

theorem raising_ofMessage (s : Surroundings) (message : String) :
    (ofMessage s message).raising = ofMessage s message := by
  refine congrArg Effect.guarded ((Program.map_bind _ _ _).trans ?_)
  exact congrArg (Program.now >>= ·) (funext fun time => Program.map_bind _ _ _)

theorem raising_ofActivity (a : Activity) :
    (ofActivity a).raising = ofActivity ⟨a.millis, a.reply.raising⟩ := by
  simp only [ofActivity, raising, Program.map_bind]
  rfl

end Effect

/-- An operation raises an error where it would abort, and does the same up to there. -/
theorem Operation.effect_raising (s : Surroundings) (op : Operation) :
    op.effect { s with registry := s.registry.raising } = (op.effect s).raising := by
  cases op with
  | sleep millis => exact (Effect.raising_ofActivity ⟨millis.toNat, .ok .null⟩).symm
  | log message => exact (Effect.raising_ofMessage _ _).symm
  | logFormat format args => exact (Effect.raising_ofMessage _ _).symm
  | workerCount => rfl
  | processId => rfl
  | workerId => rfl
  | invoke function arg =>
    simp only [effect, Registry.invoke_raising]
    cases s.registry.invoke function arg with
    | ok activity => exact (Effect.raising_ofActivity activity).symm
    | error e => rfl
  | cellNew v name =>
    cases name with
    | none => exact (Effect.raising_ofStore _ _).symm
    | some name => exact (Effect.raising_ofStore _ _).symm
  | atomSet a update =>
    simp only [effect, Registry.update_raising]
    cases s.registry.update update with
    | ok f =>
      refine (Effect.raising_ofTransaction _ ?_).symm
      have h := Atom.raises_attempts Decoder.value a (Atom.always f) (Atom.attemptLimit s.settings)
        (Atom.attemptLimit s.settings)
      rwa [← Atom.always_raising] at h
    | error e => rfl
  | atomTransact a update =>
    simp only [effect, Registry.update_raising]
    cases s.registry.update update with
    | ok f =>
      exact (Effect.raising_ofTransaction _ (Atom.raises_attempts Decoder.value a f _ _)).symm
    | error e => rfl
  | _ => exact (Effect.raising_ofStore _ _).symm

namespace Machine

/-- The machine that goes on with the error of an abort. -/
abbrev raising (stack : List Frame) (message : Option String) : Machine :=
  ⟨stack, .resume (.error (.error (abortError message)))⟩

/-- The frames around what a machine is about to do. -/
def around (m : Machine) : List Frame :=
  match m.control with
  | .eval _ => m.stack
  | .resume (.ok _) => ((nearestContinuation m.stack).map Prod.snd).getD []
  | .resume (.error _) => ((nearestHandler m.stack).map Prod.snd).getD []

theorem Step.ofReply_raising (stack : List Frame) (reply : Reply Workflow) :
    (∃ message, Step.ofReply stack reply = .aborted message ∧
      Step.ofReply stack reply.raising = .next (raising stack message)) ∨
    ((∀ message, Step.ofReply stack reply ≠ .aborted message) ∧
      Step.ofReply stack reply.raising = Step.ofReply stack reply) := by
  cases reply with
  | ok w => exact .inr ⟨by simp [Step.ofReply], rfl⟩
  | failed e => exact .inr ⟨by simp [Step.ofReply], rfl⟩
  | aborted message => exact .inl ⟨message, rfl, rfl⟩

/-- A machine does the same with both registries unless it aborts with the one; with the other it
goes on with an error then, among the frames around the call. -/
theorem step_raising (m : Machine) (r : Registry) :
    (∃ message, m.step r = .aborted message ∧
      m.step r.raising = .next (raising m.around message)) ∨
    ((∀ message, m.step r ≠ .aborted message) ∧ m.step r.raising = m.step r) := by
  obtain ⟨stack, control⟩ := m
  cases control with
  | eval w => cases w <;> exact .inr ⟨by simp [step, eval], rfl⟩
  | resume o =>
    rcases o with (e | -) | v
    · simp only [step, resume, around]
      cases nearestHandler stack with
      | none => exact .inr ⟨by simp, rfl⟩
      | some found =>
        simp only [Registry.handle_raising]
        exact Step.ofReply_raising _ _
    · exact .inr ⟨by simp [step, resume], rfl⟩
    · simp only [step, resume, around]
      cases nearestContinuation stack with
      | none => exact .inr ⟨by simp, rfl⟩
      | some found =>
        simp only [Registry.continueWith_raising]
        exact Step.ofReply_raising _ _

/-- Without a handler an error ends a machine. -/
theorem step_unhandled (r : Registry) {stack : List Frame} (bare : nearestHandler stack = none)
    (e : WorkflowError) :
    (⟨stack, .resume (.error (.error e))⟩ : Machine).step r = .finished (.error (.error e)) := by
  simp only [step, resume, bare]

end Machine

end WorkflowEngine
