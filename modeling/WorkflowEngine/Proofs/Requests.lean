import WorkflowEngine.Data.Cell
import WorkflowEngine.Proofs.AtomCalls
import WorkflowEngine.Proofs.Calm
/-!
What programs ask for, whatever they are answered. Operations on an atom ask the store for its entry
and wait; they ask for nothing else.
-/
set_option autoImplicit false

namespace WorkflowEngine

namespace Program

variable {α β : Type} {P Q : Request → Prop}

/-- Whether all requests of a program have a property. -/
def Asks (P : Request → Prop) : Program α → Prop
  | .done _ => True
  | .ask r next => P r ∧ ∀ answer, (next answer).Asks P

theorem asks_pure (a : α) : (pure a : Program α).Asks P := trivial

theorem asks_request {r : Request} (h : P r) : (request r).Asks P := ⟨h, fun _ => trivial⟩

theorem Asks.bind {p : Program α} {f : α → Program β} (hp : p.Asks P)
    (hf : ∀ a, p.Gives a → (f a).Asks P) : (p >>= f).Asks P := by
  induction p with
  | done a => exact hf a (.done a)
  | ask r next ih =>
    exact ⟨hp.1, fun answer => ih answer (hp.2 answer) fun a ha => hf a (.ask answer ha)⟩

theorem Asks.map {p : Program α} (hp : p.Asks P) (f : α → β) : (f <$> p).Asks P :=
  hp.bind fun a _ => asks_pure (f a)

theorem Asks.mono {p : Program α} (hp : p.Asks P) (h : ∀ r, P r → Q r) : p.Asks Q := by
  induction p with
  | done a => trivial
  | ask r next ih => exact ⟨h r hp.1, fun answer => ih answer (hp.2 answer)⟩

end Program

/-! Programs that may fail. -/

section Failing

variable {ε ε' α β : Type} {P : Request → Prop}

theorem asks_throw (e : ε) : (throw e : ExceptT ε Program α).run.Asks P := trivial

theorem asks_ok (a : α) : (pure a : ExceptT ε Program α).run.Asks P := trivial

theorem asks_bind {p : ExceptT ε Program α} {f : α → ExceptT ε Program β} (hp : p.run.Asks P)
    (hf : ∀ a, p.run.Gives (.ok a) → (f a).run.Asks P) : (p >>= f).run.Asks P := by
  rw [ExceptT.run_bind]
  refine hp.bind fun result given => ?_
  cases result with
  | ok a => exact hf a given
  | error e => exact Program.asks_pure _

theorem asks_adapt {p : ExceptT ε Program α} (hp : p.run.Asks P) (f : ε → ε') :
    (p.adapt f).run.Asks P :=
  hp.map _

theorem asks_lift {p : Program α} (hp : p.Asks P) :
    (ExceptT.lift p : ExceptT ε Program α).run.Asks P :=
  hp.map _

theorem gives_ok_bind {p : ExceptT ε Program α} {f : α → ExceptT ε Program β} {b : β}
    (h : (p >>= f).run.Gives (.ok b)) : ∃ a, p.run.Gives (.ok a) ∧ (f a).run.Gives (.ok b) := by
  rw [ExceptT.run_bind] at h
  obtain ⟨result, hp, hf⟩ := Program.gives_bind.1 h
  cases result with
  | ok a => exact ⟨a, hp, hf⟩
  | error e => cases Program.gives_pure.1 hf

theorem gives_ok {a b : α} (h : (pure a : ExceptT ε Program α).run.Gives (.ok b)) : b = a :=
  Except.ok.inj (Program.gives_pure.1 h)

end Failing

namespace StoreProgram

variable {P : Request → Prop}

theorem asks_command {c : StoreCommand} (h : P (.store c)) : (command c).run.Asks P :=
  Program.asks_request h

theorem asks_ask {r : Request} (h : P r) : (ask r).run.Asks P :=
  asks_lift (Program.asks_request h)

theorem asks_decode {α : Type} (d : Decoder α) (data : Bytes) : (decode d data).run.Asks P :=
  trivial

theorem asks_readImmutable {key : Key} (cached : P (.cached key)) (get : P (.store (.get key)))
    (remember : ∀ data, P (.remember key data)) : (readImmutable key).run.Asks P := by
  refine asks_bind (asks_ask cached) fun found _ => ?_
  cases found with
  | some data => exact asks_ok data
  | none =>
    refine asks_bind (asks_command get) fun stored _ => ?_
    cases stored with
    | some data => exact asks_bind (asks_ask (remember data)) fun _ _ => asks_ok data
    | none => exact asks_throw _

theorem asks_createImmutable {key : Key} {data : Bytes} (create : P (.store (.create key data)))
    (remember : P (.remember key data)) : (createImmutable key data).run.Asks P :=
  asks_bind (asks_command create) fun _ _ => asks_ask remember

end StoreProgram

/-- A request about one entry of the store, or a pause. -/
def Request.Concerns (key : Key) : Request → Prop
  | .store c => c.key = key
  | .pause _ => True
  | _ => False

theorem DataSettings.asks_freshKey {s : DataSettings} {P : Request → Prop} (fresh : P .freshId) :
    s.freshKey.run.Asks P :=
  asks_bind (StoreProgram.asks_ask fresh) fun _ _ => asks_ok _

theorem DataSettings.gives_freshKey {s : DataSettings} {key : Key}
    (h : s.freshKey.run.Gives (.ok key)) : ∃ u : Uuid, key = s.key u.text := by
  obtain ⟨u, -, h⟩ := gives_ok_bind h
  exact ⟨u, gives_ok h⟩

/-- Fresh keys of mutable data are in a container of their own. -/
theorem DataSettings.gives_freshMutableKey {s : DataSettings} {key : Key}
    (h : s.freshMutableKey.run.Gives (.ok key)) : key.container = s.mutableContainer := by
  obtain ⟨u, -, h⟩ := gives_ok_bind h
  obtain rfl := gives_ok h
  rfl

theorem StoreProgram.asks_concerns (c : StoreCommand) :
    (command c).run.Asks (Request.Concerns c.key) :=
  asks_command rfl

namespace Cell

variable {P : Request → Prop} {s : DataSettings} {key : Key} {v : Value} {name : String}

theorem asks_write (create : P (.store (.create key v.json.toBytes)))
    (remember : P (.remember key v.json.toBytes)) : (write key v).run.Asks P :=
  asks_bind (StoreProgram.asks_createImmutable create remember) fun _ _ => asks_ok _

theorem gives_write {c : Cell} (h : (write key v).run.Gives (.ok c)) : c = ⟨key⟩ := by
  obtain ⟨_, -, h⟩ := gives_ok_bind h
  exact gives_ok h

theorem asks_find (contains : P (.store (.contains (s.key name)))) : (find s name).run.Asks P := by
  refine asks_bind (StoreProgram.asks_command contains) fun present _ => ?_
  cases present with
  | true => exact asks_ok _
  | false => exact asks_throw _

theorem gives_find {c : Cell} (h : (find s name).run.Gives (.ok c)) : c = ⟨s.key name⟩ := by
  obtain ⟨present, -, h⟩ := gives_ok_bind h
  cases present with
  | true => exact gives_ok h
  | false => exact nomatch Program.gives_pure.1 h

end Cell

namespace Atom

theorem asks_create {P : Request → Prop} {s : DataSettings} {v : Value} (fresh : P .freshId)
    (create : ∀ key, key.container = s.mutableContainer →
      P (.store (.create key v.json.toBytes))) : (Atom.create s v).run.Asks P := by
  refine asks_bind (asks_bind (StoreProgram.asks_ask fresh) fun _ _ => asks_ok _) fun key h => ?_
  have mutable := DataSettings.gives_freshMutableKey h
  exact asks_bind (StoreProgram.asks_command (create key mutable)) fun _ _ => asks_ok _

/-- Atoms are made in the container of mutable data. -/
theorem gives_create {s : DataSettings} {v : Value} {a : Atom}
    (h : (Atom.create s v).run.Gives (.ok a)) : a.key.container = s.mutableContainer := by
  obtain ⟨key, fresh, h⟩ := gives_ok_bind h
  obtain ⟨_, -, h⟩ := gives_ok_bind h
  obtain rfl := gives_ok h
  exact DataSettings.gives_freshMutableKey fresh

variable {element : Decoder Value} {a : Atom} {update : Value → Reply (Bool × Value)}

theorem asks_read (element : Decoder Value) (a : Atom) :
    (a.read element).run.Asks (Request.Concerns a.key) := by
  refine asks_bind (StoreProgram.asks_concerns _) fun found _ => ?_
  cases found with
  | some data => exact StoreProgram.asks_decode element data
  | none => exact asks_throw _

theorem asks_force (a : Atom) (v : Value) : (a.force v).run.Asks (Request.Concerns a.key) :=
  StoreProgram.asks_concerns _

theorem asks_free (a : Atom) : a.free.run.Asks (Request.Concerns a.key) := by
  refine asks_bind (StoreProgram.asks_concerns _) fun deleted _ => ?_
  cases deleted with
  | true => exact asks_ok _
  | false => exact asks_throw _

theorem asks_attempt : (attempt element a update).run.Asks (Request.Concerns a.key) := by
  refine asks_bind (asks_adapt (StoreProgram.asks_concerns _) _) fun found _ => ?_
  cases found with
  | none => exact asks_throw _
  | some entry =>
    refine asks_bind (asks_adapt (StoreProgram.asks_decode _ _) _) fun current _ => ?_
    split
    · exact asks_throw _
    · exact asks_throw _
    · exact asks_ok _
    · exact asks_bind (asks_adapt (StoreProgram.asks_concerns _) _) fun swapped _ => asks_ok _

theorem asks_attempts (limit left : Nat) :
    (attempts element a update limit left).run.Asks (Request.Concerns a.key) := by
  induction left with
  | zero => exact asks_throw _
  | succ left ih =>
    refine asks_bind asks_attempt fun applied _ => ?_
    cases applied with
    | some applied => exact asks_ok _
    | none => exact asks_bind (asks_lift (Program.asks_request trivial)) fun _ _ => ih

/-- An operation on an atom asks for its entry alone. -/
theorem Call.asks_program (s : DataSettings) (call : Call) :
    (call.program element s a).Asks (Request.Concerns a.key) := by
  cases call with
  | read => exact (asks_read element a).map _
  | force v => exact (asks_force a v).map _
  | set f => exact (asks_attempts _ _).map _
  | transact f => exact (asks_attempts _ _).map _
  | free => exact (asks_free a).map _

end Atom

end WorkflowEngine
