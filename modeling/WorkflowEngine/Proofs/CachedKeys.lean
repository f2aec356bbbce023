import WorkflowEngine.Evaluation.Effect
import WorkflowEngine.Proofs.Requests
/-!
The keys under which operations cache data: those of the container in the settings, and those that
their names and handles give. Operations on atoms cache nothing, and operations other than those
that log append nothing to a log.
-/
set_option autoImplicit false

namespace WorkflowEngine

/-- A request that caches nothing except under certain keys. -/
def Request.Caches (K : Key → Prop) : Request → Prop
  | .remember key _ => K key
  | _ => True

/-- A request that appends nothing to a log, and caches nothing except under certain keys. -/
def Request.Quiet (K : Key → Prop) : Request → Prop
  | .remember key _ => K key
  | .append _ _ => False
  | _ => True

theorem Request.Quiet.caches {K : Key → Prop} {r : Request} (h : r.Quiet K) : r.Caches K := by
  cases r with
  | remember => exact h
  | append => exact h.elim
  | store | cached | freshId | now | pause => trivial

theorem Request.quiet_of_concerns {K : Key → Prop} {key : Key} {r : Request}
    (h : r.Concerns key) : r.Quiet K := by
  cases r with
  | remember | append => exact h.elim
  | store | cached | freshId | now | pause => trivial

/-! ## Programs -/

section Programs

variable {K : Key → Prop} {s : DataSettings} {element : Decoder Value} {key : Key}

open StoreProgram

theorem quiet_readImmutable (h : K key) : (readImmutable key).run.Asks (Request.Quiet K) :=
  asks_readImmutable trivial trivial fun _ => h

theorem quiet_createImmutable {data : Bytes} (h : K key) :
    (createImmutable key data).run.Asks (Request.Quiet K) :=
  asks_createImmutable trivial h

namespace Cell

theorem quiet_write {v : Value} (h : K key) : (write key v).run.Asks (Request.Quiet K) :=
  asks_write trivial h

theorem quiet_create {v : Value} (h : ∀ name, K (s.key name)) :
    (create s v).run.Asks (Request.Quiet K) := by
  refine asks_bind (DataSettings.asks_freshKey trivial) fun k fresh => ?_
  obtain ⟨u, rfl⟩ := DataSettings.gives_freshKey fresh
  exact quiet_write (h u.text)

theorem quiet_read {c : Cell} (h : K c.key) : (c.read element).run.Asks (Request.Quiet K) :=
  asks_bind (quiet_readImmutable h) fun _ _ => asks_decode _ _

end Cell

namespace Sequence

theorem quiet_writeChunks (h : ∀ i, K (chunkKey key i)) (i : Nat) (chunks : List (List Value)) :
    (writeChunks key i chunks).run.Asks (Request.Quiet K) := by
  induction chunks generalizing i with
  | nil => exact asks_ok _
  | cons chunk rest ih => exact asks_bind (quiet_createImmutable (h i)) fun _ _ => ih (i + 1)

theorem quiet_create {items : List Value} (header : ∀ name, K (s.key name))
    (chunk : ∀ name i, K (chunkKey (s.key name) i)) :
    (create s items).run.Asks (Request.Quiet K) := by
  refine asks_bind (DataSettings.asks_freshKey trivial) fun k fresh => ?_
  obtain ⟨u, rfl⟩ := DataSettings.gives_freshKey fresh
  refine asks_bind (quiet_writeChunks (chunk _) 0 _) fun _ _ => ?_
  exact asks_bind (quiet_createImmutable (header _)) fun _ _ => asks_ok _

variable {q : Sequence}

theorem quiet_readChunk (h : ∀ i, K (chunkKey q.key i)) (i : Nat) :
    (readChunk element q i).run.Asks (Request.Quiet K) :=
  asks_bind (quiet_readImmutable (h i)) fun _ _ => asks_decode _ _

theorem quiet_get (h : ∀ i, K (chunkKey q.key i)) (index : Nat) :
    (get element q index).run.Asks (Request.Quiet K) := by
  unfold get
  split
  · exact asks_throw _
  · refine asks_bind (quiet_readChunk h _) fun _ _ => ?_
    split
    · exact asks_ok _
    · exact asks_throw _

theorem quiet_readChunks (h : ∀ i, K (chunkKey q.key i)) (i count : Nat) :
    (readChunks element q i count).run.Asks (Request.Quiet K) := by
  induction count generalizing i with
  | zero => exact asks_ok _
  | succ count ih =>
    refine asks_bind (quiet_readChunk h i) fun _ _ => ?_
    exact asks_bind (ih (i + 1)) fun _ _ => asks_ok _

theorem quiet_toList (h : ∀ i, K (chunkKey q.key i)) :
    (q.toList element).run.Asks (Request.Quiet K) :=
  quiet_readChunks h 0 _

end Sequence

theorem PartitionVector.quiet_readAll {qs : List Sequence}
    (h : ∀ q ∈ qs, ∀ i, K (Sequence.chunkKey q.key i)) :
    (readAll element qs).run.Asks (Request.Quiet K) := by
  induction qs with
  | nil => exact asks_ok _
  | cons q rest ih =>
    refine asks_bind (Sequence.quiet_toList (h q (by simp))) fun _ _ => ?_
    exact asks_bind (ih fun q' hq' => h q' (by simp [hq'])) fun _ _ => asks_ok _

theorem Atom.quiet_transact {a : Atom} {f : Value → Reply (Bool × Value)} :
    (a.transact element s f).run.Asks (Request.Quiet K) :=
  (asks_attempts _ _).mono fun _ => Request.quiet_of_concerns

theorem DeliveryPolicy.caches_deliver (p : DeliveryPolicy) (e : LogEntry) :
    (p.deliver e).Asks (Request.Caches K) := by
  unfold deliver
  generalize p.attempts - 1 = left
  generalize 0 = attempt
  induction left generalizing attempt with
  | zero => exact Program.asks_request trivial
  | succ left ih =>
    refine (Program.asks_request trivial).bind fun stored _ => ?_
    cases stored with
    | true => exact Program.asks_pure _
    | false => exact (Program.asks_request trivial).bind fun _ _ => ih (attempt + 1)

end Programs

/-! ## Operations -/

/-- The keys under which an operation may cache data. -/
def Operation.MayCache (s : DataSettings) (key : Key) : Operation → Prop
  | .cellNew _ (some name) => key = s.key name
  | .cellNew _ none | .sequenceNew _ => key.container = s.container
  | .cellValue c => key = c.key
  | .sequenceItems q | .sequenceGet q _ => ∃ i, key = Sequence.chunkKey q.key i
  | .vectorItems v => ∃ q ∈ v.partitions, ∃ i, key = Sequence.chunkKey q.key i
  | _ => False

/-- Whether the cells and sequences that an operation reads are apart from mutable data. -/
def Operation.ReadsImmutable (s : DataSettings) : Operation → Prop
  | .cellValue c => c.key.container ≠ s.mutableContainer
  | .sequenceItems q | .sequenceGet q _ => q.key.container ≠ s.mutableContainer
  | .vectorItems v => ∀ q ∈ v.partitions, q.key.container ≠ s.mutableContainer
  | _ => True

theorem DataSettings.container_ne (s : DataSettings) : s.container ≠ s.mutableContainer := by
  intro heq
  have chars := congrArg String.length heq
  simp [mutableContainer] at chars

/-- Operations that read no mutable data as if it never changed do not cache any. -/
theorem Operation.ReadsImmutable.container_ne {s : DataSettings} {op : Operation} {key : Key}
    (reads : op.ReadsImmutable s) (caches : op.MayCache s key) :
    key.container ≠ s.mutableContainer := by
  cases op with
  | cellNew v name =>
    cases name with
    | none =>
      rw [show key.container = s.container from caches]
      exact s.container_ne
    | some name =>
      rw [show key = s.key name from caches]
      exact s.container_ne
  | sequenceNew items =>
    rw [show key.container = s.container from caches]
    exact s.container_ne
  | cellValue c =>
    rw [show key = c.key from caches]
    exact reads
  | sequenceItems q | sequenceGet q =>
    obtain ⟨i, rfl⟩ := caches
    exact reads
  | vectorItems v =>
    obtain ⟨q, hq, i, rfl⟩ := caches
    exact reads q hq
  | _ => exact caches.elim

/-- The message that an operation logs. -/
def Operation.message? : Operation → Option String
  | .log message => some message
  | .logFormat format args => some (formatMessage format args)
  | _ => none

namespace Effect

variable {K : Key → Prop} {α : Type}

/-- Whether an operation caches nothing except under certain keys. -/
def Caches (K : Key → Prop) : Effect → Prop
  | .immediate _ => True
  | .guarded p => p.Asks (Request.Caches K)

/-- Whether an operation logs nothing, and caches nothing except under certain keys. -/
def Quiet (K : Key → Prop) : Effect → Prop
  | .immediate _ => True
  | .guarded p => p.Asks (Request.Quiet K)

theorem Quiet.caches {effect : Effect} (h : effect.Quiet K) : effect.Caches K := by
  cases effect with
  | immediate r => trivial
  | guarded p => exact Program.Asks.mono h fun _ => Request.Quiet.caches

theorem quiet_ofStore {encode : α → Value} {p : StoreProgram α}
    (h : p.run.Asks (Request.Quiet K)) : (ofStore encode p).Quiet K :=
  h.bind fun r _ => by cases r <;> exact Program.asks_pure _

theorem quiet_ofTransaction {encode : Bool → Value} {p : ExceptT TransactFault Program Bool}
    (h : p.run.Asks (Request.Quiet K)) : (ofTransaction encode p).Quiet K := by
  refine h.bind fun r _ => ?_
  rcases r with (_ | _ | _) | _ <;> exact Program.asks_pure _

theorem quiet_ofActivity (a : Activity) : (ofActivity a).Quiet K :=
  (Program.asks_request trivial).bind fun _ _ => Program.asks_pure _

theorem quiet_failed (e : WorkflowError) : (failed e).Quiet K := trivial

theorem caches_ofMessage (s : Surroundings) (message : String) :
    (ofMessage s message).Caches K :=
  (Program.asks_request trivial).bind fun _ _ =>
    (s.policy.caches_deliver _).bind fun _ _ => Program.asks_pure _

theorem Caches.mono {K' : Key → Prop} {effect : Effect} (h : effect.Caches K)
    (wider : ∀ key, K key → K' key) : effect.Caches K' := by
  cases effect with
  | immediate r => trivial
  | guarded p =>
    refine Program.Asks.mono h fun r hr => ?_
    cases r with
    | remember key data => exact wider key hr
    | store | cached | freshId | now | pause | append => trivial

end Effect

namespace Operation

theorem effect_of_message {op : Operation} {message : String} (h : op.message? = some message)
    (s : Surroundings) : op.effect s = .ofMessage s message := by
  cases op with
  | log text =>
    cases h
    rfl
  | logFormat format args =>
    cases h
    rfl
  | _ => cases h

/-- An operation that logs no message appends nothing to a log, and caches data under no other keys
than it may. -/
theorem quiet_effect (s : Surroundings) {op : Operation} (h : op.message? = none) :
    (op.effect s).Quiet fun key => op.MayCache s.settings key := by
  cases op with
  | log | logFormat => cases h
  | sleep millis => exact Effect.quiet_ofActivity _
  | workerCount | processId | workerId => trivial
  | invoke function arg =>
    simp only [effect]
    cases s.registry.invoke function arg with
    | ok activity => exact Effect.quiet_ofActivity _
    | error e => trivial
  | cellNew v name =>
    cases name with
    | none => exact Effect.quiet_ofStore (Cell.quiet_create fun _ => rfl)
    | some name => exact Effect.quiet_ofStore (Cell.quiet_write rfl)
  | cellValue c => exact Effect.quiet_ofStore (Cell.quiet_read rfl)
  | cellParse name => exact Effect.quiet_ofStore (Cell.asks_find trivial)
  | sequenceNew items =>
    exact Effect.quiet_ofStore (Sequence.quiet_create (fun _ => rfl) fun _ _ => rfl)
  | sequenceItems q => exact Effect.quiet_ofStore (Sequence.quiet_toList fun i => ⟨i, rfl⟩)
  | sequenceGet q index => exact Effect.quiet_ofStore (Sequence.quiet_get (fun i => ⟨i, rfl⟩) _)
  | vectorOf partitions => exact Effect.quiet_ofStore (asks_ok _)
  | vectorItems v =>
    exact Effect.quiet_ofStore (PartitionVector.quiet_readAll fun q hq i => ⟨q, hq, i, rfl⟩)
  | atomNew v => exact Effect.quiet_ofStore (Atom.asks_create trivial fun _ _ => trivial)
  | atomRead a =>
    exact Effect.quiet_ofStore ((a.asks_read _).mono fun _ => Request.quiet_of_concerns)
  | atomForce a v =>
    exact Effect.quiet_ofStore ((a.asks_force v).mono fun _ => Request.quiet_of_concerns)
  | atomSet a update =>
    simp only [effect]
    cases s.registry.update update with
    | ok f => exact Effect.quiet_ofTransaction Atom.quiet_transact
    | error e => exact Effect.quiet_failed e
  | atomTransact a update =>
    simp only [effect]
    cases s.registry.update update with
    | ok f => exact Effect.quiet_ofTransaction Atom.quiet_transact
    | error e => exact Effect.quiet_failed e
  | atomFree a =>
    exact Effect.quiet_ofStore (a.asks_free.mono fun _ => Request.quiet_of_concerns)

/-- An operation caches data under no other keys than it may. -/
theorem caches_effect (s : Surroundings) (op : Operation) :
    (op.effect s).Caches fun key => op.MayCache s.settings key := by
  cases h : op.message? with
  | none => exact (quiet_effect s h).caches
  | some message =>
    rw [effect_of_message h]
    exact Effect.caches_ofMessage s message

end Operation

end WorkflowEngine
