import WorkflowEngine.Evaluation.Effect
/-!
Registries whose functions never abort. Nothing that a workflow asks for aborts with such a
registry, whatever the store answers.
-/
set_option autoImplicit false

namespace WorkflowEngine

structure Registry.Calm (r : Registry) : Prop where
  continueWith : ∀ {f v message}, r.continueWith f v ≠ .aborted message
  handle : ∀ {f e message}, r.handle f e ≠ .aborted message
  update : ∀ {f u v message}, r.update f = .ok u → u v ≠ .aborted message
  invoke : ∀ {name arg a message}, r.invoke name arg = .ok a → a.reply ≠ .aborted message

namespace Program

/-- The results of a program, whatever the answers to its requests are. -/
inductive Gives {α : Type} : Program α → α → Prop
  | done (a : α) : Gives (.done a) a
  | ask {r : Request} {next : r.Answer → Program α} {a : α} (answer : r.Answer)
      (gives : Gives (next answer) a) : Gives (.ask r next) a

theorem gives_pure {α : Type} {a b : α} : (pure a : Program α).Gives b ↔ b = a := by
  constructor
  · intro h
    cases h
    rfl
  · rintro rfl
    exact .done b

theorem gives_bind {α β : Type} {p : Program α} {f : α → Program β} {b : β} :
    (p >>= f).Gives b ↔ ∃ a, p.Gives a ∧ (f a).Gives b := by
  constructor
  · intro h
    induction p with
    | done a => exact ⟨a, .done a, h⟩
    | ask r next ih =>
      cases h with
      | ask answer gives =>
        obtain ⟨a, ha, hb⟩ := ih answer gives
        exact ⟨a, .ask answer ha, hb⟩
  · rintro ⟨a, ha, hb⟩
    induction ha with
    | done a => exact hb
    | ask answer _ ih => exact .ask answer (ih hb)

end Program

namespace Atom

/-- A part of a transaction that never aborts. -/
def Mild {α : Type} (p : ExceptT TransactFault Program α) : Prop :=
  ∀ message, ¬ p.run.Gives (.error (.aborted message))

theorem mild_pure {α : Type} (a : α) : Mild (pure a) := by
  intro message h
  cases Program.gives_pure.1 h

theorem mild_throw {α : Type} {e : TransactFault} (he : ∀ message, e ≠ .aborted message) :
    Mild (throw e : ExceptT TransactFault Program α) := by
  intro message h
  cases Program.gives_pure.1 h
  exact he message rfl

theorem mild_bind {α β : Type} {p : ExceptT TransactFault Program α}
    {f : α → ExceptT TransactFault Program β} (hp : Mild p) (hf : ∀ a, Mild (f a)) :
    Mild (p >>= f) := by
  intro message h
  rw [ExceptT.run_bind] at h
  obtain ⟨a, ha, hb⟩ := Program.gives_bind.1 h
  cases a with
  | ok a => exact hf a message hb
  | error e =>
    cases Program.gives_pure.1 hb
    exact hp message ha

theorem mild_adapt {α : Type} (p : StoreProgram α) : Mild (p.adapt .store) := by
  intro message h
  obtain ⟨a, -, hb⟩ := Program.gives_bind.1 h
  cases a with
  | ok a => cases Program.gives_pure.1 hb
  | error e => cases Program.gives_pure.1 hb

theorem mild_lift {α : Type} (p : Program α) : Mild (ExceptT.lift p) := by
  intro message h
  obtain ⟨a, -, hb⟩ := Program.gives_bind.1 h
  cases Program.gives_pure.1 hb

variable {element : Decoder Value} {a : Atom} {update : Value → Reply (Bool × Value)}

theorem mild_attempt (calm : ∀ v message, update v ≠ .aborted message) :
    Mild (attempt element a update) := by
  refine mild_bind (mild_adapt _) fun found => ?_
  cases found with
  | none => exact mild_throw (by simp)
  | some entry =>
    refine mild_bind (mild_adapt _) fun current => ?_
    split
    · exact mild_throw (by simp)
    · next message hu => exact absurd hu (calm current message)
    · exact mild_pure _
    · exact mild_bind (mild_adapt _) fun swapped => mild_pure _

theorem mild_attempts (calm : ∀ v message, update v ≠ .aborted message) (limit left : Nat) :
    Mild (attempts element a update limit left) := by
  induction left with
  | zero => exact mild_throw (by simp)
  | succ left ih =>
    refine mild_bind (mild_attempt calm) fun applied => ?_
    cases applied with
    | some applied => exact mild_pure _
    | none => exact mild_bind (mild_lift _) fun _ => ih

theorem always_calm (calm : ∀ v message, update v ≠ .aborted message) (v : Value)
    (message : Option String) : always update v ≠ .aborted message := by
  unfold always
  cases hu : update v with
  | ok result => simp [Reply.map]
  | failed e => simp [Reply.map]
  | aborted m => exact absurd hu (calm v m)

end Atom

namespace Effect

def Calm : Effect → Prop
  | .immediate _ => True
  | .guarded p => ∀ message, ¬ p.Gives (.aborted message)

theorem calm_ofStore {α : Type} (encode : α → Value) (p : StoreProgram α) :
    (ofStore encode p).Calm := by
  intro message h
  obtain ⟨a, -, hb⟩ := Program.gives_bind.1 h
  cases a with
  | ok a => cases Program.gives_pure.1 hb
  | error e => cases Program.gives_pure.1 hb

theorem calm_ofTransaction (encode : Bool → Value) {p : ExceptT TransactFault Program Bool}
    (mild : Atom.Mild p) : (ofTransaction encode p).Calm := by
  intro message h
  obtain ⟨a, ha, hb⟩ := Program.gives_bind.1 h
  cases a with
  | ok applied => cases Program.gives_pure.1 hb
  | error fault =>
    cases fault with
    | store e => cases Program.gives_pure.1 hb
    | failed e => cases Program.gives_pure.1 hb
    | aborted m => exact mild m ha

theorem calm_ofMessage (s : Surroundings) (text : String) : (ofMessage s text).Calm := by
  intro message h
  obtain ⟨time, -, h⟩ := Program.gives_bind.1 h
  obtain ⟨delivered, -, h⟩ := Program.gives_bind.1 h
  cases Program.gives_pure.1 h

theorem calm_ofActivity {a : Activity} (ha : ∀ message, a.reply ≠ .aborted message) :
    (ofActivity a).Calm := by
  intro message h
  obtain ⟨_, -, h⟩ := Program.gives_bind.1 h
  exact ha message (Program.gives_pure.1 h).symm

theorem calm_failed (e : WorkflowError) : (failed e).Calm := by
  intro message h
  cases Program.gives_pure.1 h

end Effect

/-- Operations abort only where a function does. -/
theorem Operation.calm_effect {s : Surroundings} (calm : s.registry.Calm) (op : Operation) :
    (op.effect s).Calm := by
  cases op with
  | sleep millis => exact Effect.calm_ofActivity (by simp)
  | log text => exact Effect.calm_ofMessage s text
  | logFormat format args => exact Effect.calm_ofMessage s _
  | workerCount => trivial
  | processId => trivial
  | workerId => trivial
  | invoke function arg =>
    simp only [effect]
    split
    · next activity found => exact Effect.calm_ofActivity fun _ => calm.invoke found
    · trivial
  | cellNew v name =>
    cases name with
    | none => exact Effect.calm_ofStore _ _
    | some name => exact Effect.calm_ofStore _ _
  | atomSet a update =>
    simp only [effect]
    split
    · next f found =>
      have mild : ∀ v m, f v ≠ .aborted m := fun v m => calm.update found
      exact Effect.calm_ofTransaction _ (Atom.mild_attempts (Atom.always_calm mild) _ _)
    · exact Effect.calm_failed _
  | atomTransact a update =>
    simp only [effect]
    split
    · next f found =>
      have mild : ∀ v m, f v ≠ .aborted m := fun v m => calm.update found
      exact Effect.calm_ofTransaction _ (Atom.mild_attempts mild _ _)
    · exact Effect.calm_failed _
  | _ => exact Effect.calm_ofStore _ _

end WorkflowEngine
