import Mathlib
import WorkflowEngine.Proofs.OneWriter
import WorkflowEngine.Proofs.SequenceItems
/-!
The entries of a sequence, one after the other: first those of its chunks, then its header. Whoever
makes a sequence may be stopped between any two of them, and readers come by at any time and on any
worker, one request of anybody at a time.
-/
set_option autoImplicit false

namespace WorkflowEngine

/-- Entries in the order in which they are written. -/
abbrev Writes := List (Key × Bytes)

namespace Program

variable {α : Type}

/-- How a program goes on that has asked for an entry to be created. -/
def created (key : Key) (data : Bytes) (rest : Program (Except StoreError α)) :
    Except StoreError Unit → Program (Except StoreError α)
  | .ok _ => .ask (.remember key data) fun _ => rest
  | .error e => .done (.error e)

/-- A program that creates entries, and remembers each one before it creates the next. -/
def createAll (rest : Program (Except StoreError α)) : Writes → Program (Except StoreError α)
  | [] => rest
  | (key, data) :: left => .ask (.store (.create key data)) (created key data (createAll rest left))

theorem createAll_append (rest : Program (Except StoreError α)) (first last : Writes) :
    createAll rest (first ++ last) = createAll (createAll rest last) first := by
  induction first with
  | nil => rfl
  | cons entry first ih =>
    obtain ⟨key, data⟩ := entry
    simp only [List.cons_append, createAll, ih]

end Program

theorem StoreProgram.run_createImmutable_bind {α : Type} (key : Key) (data : Bytes)
    (f : Unit → StoreProgram α) :
    (createImmutable key data >>= f).run =
      .ask (.store (.create key data)) (Program.created key data (f ()).run) := by
  refine congrArg (Program.ask (.store (.create key data))) (funext fun answer => ?_)
  cases answer with
  | ok => rfl
  | error e => rfl

namespace Sequence

/-- The entries of chunks, from the one with a number on. -/
def chunkEntries (key : Key) : Nat → List (List Value) → Writes
  | _, [] => []
  | i, c :: rest => (chunkKey key i, (Value.array c).json.toBytes) :: chunkEntries key (i + 1) rest

/-- The entries of a sequence. The header is the last one. -/
def entries (q : Sequence) (items : List Value) : Writes :=
  chunkEntries q.key 0 (chunksOf q.chunkSize.toNat items) ++
    [(q.key, (headerJson q.length q.chunkSize).toBytes)]

theorem run_writeChunks_bind {α : Type} (key : Key) (i : Nat) (chunks : List (List Value))
    (f : Unit → StoreProgram α) :
    (writeChunks key i chunks >>= f).run =
      Program.createAll (f ()).run (chunkEntries key i chunks) := by
  induction chunks generalizing i with
  | nil => rfl
  | cons c rest ih =>
    have later := ih (i + 1)
    refine congrArg (Program.ask (.store (.create _ _))) (funext fun answer => ?_)
    cases answer with
    | ok => exact congrArg (Program.ask (.remember _ _)) (funext fun _ => later)
    | error e => rfl

/-- Making a sequence is to write its entries. -/
theorem run_create_eq (t : DataSettings) (items : List Value) :
    (create t items).run = .ask .freshId fun id =>
      Program.createAll (.done (.ok (made t id items.length)))
        ((made t id items.length).entries items) := by
  refine congrArg (Program.ask .freshId) (funext fun id => ?_)
  rw [entries, Program.createAll_append]
  refine (run_writeChunks_bind _ _ _ _).trans ?_
  refine congrArg (Program.createAll · _) ?_
  exact StoreProgram.run_createImmutable_bind _ _ _

/-- What a reader gets: the sequence of a name, and what its items are read as. -/
abbrev Reading := Except StoreError (Sequence × Except StoreError (List Value))

def readAfter : Except StoreError Sequence → Program Reading
  | .ok q => (fun items => .ok (q, items)) <$> (q.toList Decoder.value).run
  | .error e => .done (.error e)

/-- A reader looks for the sequence of a name, and reads all of it if there is one. -/
def reader (u : DataSettings) (name : String) : Program Reading :=
  (find u name).run >>= readAfter

/-- What the chunks of a list are read as, once they are written. -/
def restored : List (List Value) → Except StoreError (List Value)
  | [] => .ok []
  | c :: rest => do
    let items ← (Decoder.value.list.ofBytes (Value.array c).json.toBytes).mapError
      StoreError.serialization
    return items ++ (← restored rest)

/-- What a reader gets when all the entries of a sequence are there. -/
def whole (q : Sequence) (items : List Value) : Reading :=
  .ok (q, restored (chunksOf q.chunkSize.toNat items))

theorem restored_of_legible {chunks : List (List Value)} (h : ∀ c ∈ chunks, Legible c) :
    restored chunks = .ok chunks.flatten := by
  induction chunks with
  | nil => rfl
  | cons c rest ih =>
    have first := (h c List.mem_cons_self).ofBytes_toBytes
    have later := ih fun c hc => h c (List.mem_cons_of_mem _ hc)
    simp only [restored, first, later]
    rfl

theorem whole_of_legible {q : Sequence} {items : List Value} (h : Legible items) :
    q.whole items = .ok (q, .ok items) := by
  have pos := q.chunkSize_pos
  have each : ∀ c ∈ chunksOf q.chunkSize.toNat items, Legible c := fun c hc v hv =>
    h v (mem_of_mem_chunksOf pos hc hv)
  rw [whole, restored_of_legible each, flatten_chunksOf pos]

end Sequence

/-- A store and the caches of the workers, the call that makes a sequence, on its worker, and the
readers by their numbers. -/
structure Publication (ω : Type) where
  backend : Backend
  caches : ω → Table Key Bytes
  maker : Option (ω × Program (Except StoreError Sequence))
  readers : Nat → Option (Program Sequence.Reading)

namespace Publication

variable {ω : Type}

/-- A sequence is about to be made on a worker. -/
def start (b : Backend) (caches : ω → Table Key Bytes) (w : ω) (t : DataSettings)
    (items : List Value) : Publication ω :=
  ⟨b, caches, some (w, (Sequence.create t items).run), fun _ => none⟩

/-- What a request on a worker may be answered, when the world gives a certain identifier. -/
def Replies (id : Uuid) (s : Publication ω) (w : ω) : (r : Request) → r.Answer → Prop
  | .store command, answer => answer = (s.backend.run command).1
  | .cached key, answer => answer = (s.caches w).get? key
  | .freshId, answer => answer = id
  | _, _ => True

theorem exists_replies (id : Uuid) (s : Publication ω) (w : ω) (r : Request) :
    ∃ answer, s.Replies id w r answer := by
  cases r with
  | store command => exact ⟨_, rfl⟩
  | cached key => exact ⟨_, rfl⟩
  | freshId => exact ⟨id, rfl⟩
  | remember | now | pause | append => exact ⟨Request.refused _, trivial⟩

variable [DecidableEq ω]

/-- The store and the caches after a request on a worker. -/
def serve (s : Publication ω) (w : ω) : Request → Publication ω
  | .store command => { s with backend := (s.backend.run command).2 }
  | .remember key data =>
    { s with caches := Function.update s.caches w ((s.caches w).insert key data) }
  | _ => s

/-- What happens while a sequence is made under a fresh name. The call that makes it goes on, is
refused a write, which may have been made nevertheless, is dropped, or is left alone by its caller
while the store is at work. A reader comes, or one of its requests is answered on some worker. All
the others may do what they like with other keys, and may keep what is stored. -/
inductive Step (t : DataSettings) (id : Uuid) (K : Key → Prop) (s : Publication ω) :
    Publication ω → Prop
  | make {w : ω} {r : Request} {next : r.Answer → Program (Except StoreError Sequence)}
      {answer : r.Answer} (asks : s.maker = some (w, .ask r next))
      (replies : s.Replies id w r answer) :
      Step t id K s { s.serve w r with maker := some (w, next answer) }
  | fail {w : ω} {c : StoreCommand}
      {next : (Request.store c).Answer → Program (Except StoreError Sequence)} (e : StoreError)
      (done : Bool) (asks : s.maker = some (w, .ask (.store c) next)) :
      Step t id K s { s with
        backend := if done then (s.backend.run c).2 else s.backend
        maker := some (w, next (.error e)) }
  | drop : Step t id K s { s with maker := none }
  | abandon {w : ω} {c : StoreCommand}
      {next : (Request.store c).Answer → Program (Except StoreError Sequence)} (e : StoreError)
      (asks : s.maker = some (w, .ask (.store c) next)) :
      Step t id K s { s with maker := some (w, .ask (.store c) fun _ => .done (.error e)) }
  | come {i : Nat} {u : DataSettings} (container : u.container = t.container)
      (new : s.readers i = none) :
      Step t id K s { s with
        readers := Function.update s.readers i (some (Sequence.reader u id.text)) }
  | read {i : Nat} (w : ω) {r : Request} {next : r.Answer → Program Sequence.Reading}
      {answer : r.Answer} (asks : s.readers i = some (.ask r next))
      (replies : s.Replies id w r answer) :
      Step t id K s { s.serve w r with
        readers := Function.update s.readers i (some (next answer)) }
  | other (w : ω) {r : Request} (foreign : ∀ key, K key → r.Foreign key) :
      Step t id K s (s.serve w r)
  | keep (w : ω) {key : Key} {data : Bytes} (stored : s.backend.fetch key = .ok data) :
      Step t id K s (s.serve w (.remember key data))

inductive Run (t : DataSettings) (id : Uuid) (K : Key → Prop) :
    Publication ω → Publication ω → Prop
  | refl (s : Publication ω) : Run t id K s s
  | step {s s' s'' : Publication ω} (run : Run t id K s s') (next : s'.Step t id K s'') :
      Run t id K s s''

variable {t : DataSettings} {id : Uuid} {K : Key → Prop} {s s' s'' : Publication ω}

theorem Run.trans (first : Run t id K s s') (last : Run t id K s' s'') : Run t id K s s'' := by
  induction last with
  | refl => exact first
  | step _ next ih => exact .step ih next

@[simp] theorem maker_serve (s : Publication ω) (w : ω) (r : Request) :
    (s.serve w r).maker = s.maker := by
  cases r <;> rfl

@[simp] theorem readers_serve (s : Publication ω) (w : ω) (r : Request) :
    (s.serve w r).readers = s.readers := by
  cases r <;> rfl

/-- A reader gets to its end on any worker, whatever becomes of the call that makes the sequence. -/
theorem exists_read {i : Nat} {p : Program Sequence.Reading} (w : ω) (h : s.readers i = some p) :
    ∃ reading s', Run t id K s s' ∧ s'.maker = s.maker ∧
      s'.readers i = some (.done reading) := by
  induction p generalizing s with
  | done reading => exact ⟨reading, s, .refl s, rfl, h⟩
  | ask r next ih =>
    obtain ⟨answer, replies⟩ := exists_replies id s w r
    let s₁ : Publication ω := { s.serve w r with
      readers := Function.update s.readers i (some (next answer)) }
    have first : Run t id K s s₁ := (Run.refl s).step (.read w h replies)
    obtain ⟨reading, s', run, maker, ended⟩ :=
      ih answer (s := s₁) (Function.update_self i (some (next answer)) s.readers)
    exact ⟨reading, s', first.trans run, maker.trans (maker_serve s w r), ended⟩

end Publication

end WorkflowEngine
