import Mathlib
import WorkflowEngine.Data.PartitionVector
import WorkflowEngine.Program.Session
import WorkflowEngine.Proofs.OneWriter
/-!
Programs that read immutable data, run in a session. They look for keys in the cache and then in the
store. What is found under a key does not change by looking for it, so that what such a program
gives follows from what is found, and the store is asked for nothing that is in the cache.
-/
set_option autoImplicit false

namespace WorkflowEngine

namespace Program

variable {σ α β : Type} (serve : σ → (r : Request) → r.Answer × σ)

theorem run_bind (s : σ) (p : Program α) (f : α → Program β) :
    (p >>= f).run serve s = (f (p.run serve s).1).run serve (p.run serve s).2 := by
  induction p generalizing s with
  | done a => rfl
  | ask r next ih => exact ih (serve s r).1 (serve s r).2

/-- The store commands that a program asks for when it runs alone. -/
def commands : σ → Program α → List StoreCommand
  | _, .done _ => []
  | s, .ask r next =>
    let later := commands (serve s r).2 (next (serve s r).1)
    match r with
    | .store c => c :: later
    | _ => later

theorem commands_bind (s : σ) (p : Program α) (f : α → Program β) :
    (p >>= f).commands serve s =
      p.commands serve s ++ (f (p.run serve s).1).commands serve (p.run serve s).2 := by
  induction p generalizing s with
  | done a => rfl
  | ask r next ih =>
    have later := ih (serve s r).1 (serve s r).2
    cases r with
    | store c => exact congrArg (c :: ·) later
    | cached | remember | freshId | now | pause | append => exact later

end Program

/-- The data of an entry, which has to be there. -/
def Backend.fetch (b : Backend) (key : Key) : Except StoreError Bytes :=
  match (b.run (.get key)).1 with
  | .ok (some data) => .ok data
  | .ok none => .error (.notFound key.text)
  | .error e => .error e

namespace StoreProgram

/-- How a look for a key goes on when the store has answered. -/
def fetched (key : Key) : Except StoreError (Option Bytes) → Program (Except StoreError Bytes)
  | .ok (some data) => .ask (.remember key data) fun _ => .done (.ok data)
  | .ok none => .done (.error (.notFound key.text))
  | .error e => .done (.error e)

/-- How a look for a key goes on after the look into the cache. -/
def sought (key : Key) : Option Bytes → Program (Except StoreError Bytes)
  | some data => .done (.ok data)
  | none => .ask (.store (.get key)) (fetched key)

theorem run_readImmutable (key : Key) :
    (readImmutable key).run = .ask (.cached key) (sought key) := by
  refine congrArg (Program.ask (.cached key)) (funext fun found => ?_)
  cases found with
  | some data => rfl
  | none =>
    refine congrArg (Program.ask (.store (.get key))) (funext fun answer => ?_)
    rcases answer with e | _ | data <;> rfl

end StoreProgram

namespace Session

/-- The store commands that a program asks for in a session. -/
def commands {α : Type} (s : Session) (p : Program α) : List StoreCommand := p.commands serve s

/-- What a session finds under a key of immutable data. -/
def lookup (s : Session) (key : Key) : Except StoreError Bytes :=
  ((s.cache.get? key).map .ok).getD (s.backend.fetch key)

/-- Whether another session of the store as it is finds the same. -/
structure Alike (s s' : Session) : Prop where
  backend : s'.backend = s.backend
  lookup : s'.lookup = s.lookup

/-- Whether a program changes nothing that a session finds and asks the store for nothing but
certain commands, and what it gives. -/
structure Reads {α : Type} (s : Session) (asks : StoreCommand → Prop) (p : Program α) (a : α) :
    Prop where
  result : (s.run p).1 = a
  alike : s.Alike (s.run p).2
  asks : ∀ c ∈ s.commands p, asks c

variable {s s' s'' : Session} {α β : Type} {P Q : StoreCommand → Prop}

theorem run_bind_ok {p : StoreProgram α} {f : α → StoreProgram β} {a : α}
    (h : s.run p.run = (.ok a, s')) : s.run (p >>= f).run = s'.run (f a).run := by
  rw [ExceptT.run_bind]
  refine (Program.run_bind serve s p.run _).trans ?_
  rw [show p.run.run serve s = (.ok a, s') from h]
  rfl

theorem run_bind_error {p : StoreProgram α} {f : α → StoreProgram β} {e : StoreError}
    (h : s.run p.run = (.error e, s')) : s.run (p >>= f).run = (.error e, s') := by
  rw [ExceptT.run_bind]
  refine (Program.run_bind serve s p.run _).trans ?_
  rw [show p.run.run serve s = (.error e, s') from h]
  rfl

theorem of_run_bind_ok {p : StoreProgram α} {f : α → StoreProgram β} {b : β}
    (h : s.run (p >>= f).run = (.ok b, s'')) :
    ∃ a s', s.run p.run = (.ok a, s') ∧ s'.run (f a).run = (.ok b, s'') := by
  rcases hp : s.run p.run with ⟨e | a, s'⟩
  · exact nomatch (run_bind_error hp).symm.trans h
  · exact ⟨a, s', rfl, (run_bind_ok hp).symm.trans h⟩

theorem Alike.refl (s : Session) : s.Alike s := ⟨rfl, rfl⟩

theorem Alike.trans (h : s.Alike s') (h' : s'.Alike s'') : s.Alike s'' :=
  ⟨h'.backend.trans h.backend, h'.lookup.trans h.lookup⟩

theorem reads_done (a : α) : s.Reads P (.done a) a := ⟨rfl, .refl s, nofun⟩

theorem Reads.mono {p : Program α} {a : α} (h : s.Reads P p a) (le : ∀ c, P c → Q c) :
    s.Reads Q p a :=
  ⟨h.result, h.alike, fun c hc => le c (h.asks c hc)⟩

theorem Reads.bind {p : Program α} {f : α → Program β} {a : α} {b : β} (hp : s.Reads P p a)
    (hf : ∀ s', s.Alike s' → s'.Reads P (f a) b) : s.Reads P (p >>= f) b := by
  obtain ⟨rfl, halike, hasks⟩ := hp
  obtain ⟨hresult, halike', hasks'⟩ := hf _ halike
  have hrun : s.run (p >>= f) = (s.run p).2.run (f (s.run p).1) := Program.run_bind serve s p f
  have hcommands : s.commands (p >>= f) = s.commands p ++ (s.run p).2.commands (f (s.run p).1) :=
    Program.commands_bind serve s p f
  refine ⟨?_, ?_, ?_⟩
  · rw [hrun, hresult]
  · rw [hrun]
    exact halike.trans halike'
  · rw [hcommands]
    exact List.forall_mem_append.2 ⟨hasks, hasks'⟩

theorem reads_pure (a : α) : s.Reads P (pure a : StoreProgram α).run (.ok a) := reads_done _

theorem reads_throw (e : StoreError) : s.Reads P (throw e : StoreProgram α).run (.error e) :=
  reads_done _

theorem reads_decode (d : Decoder α) (data : Bytes) :
    s.Reads P (StoreProgram.decode d data).run ((d.ofBytes data).mapError .serialization) :=
  reads_done _

/-- A program that fails does not go on. -/
theorem Reads.andThen {p : StoreProgram α} {f : α → StoreProgram β} {result : Except StoreError α}
    {next : α → Except StoreError β} (hp : s.Reads P p.run result)
    (hf : ∀ a, result = .ok a → ∀ s', s.Alike s' → s'.Reads P (f a).run (next a)) :
    s.Reads P (p >>= f).run (result >>= next) := by
  rw [ExceptT.run_bind]
  refine hp.bind fun s' alike => ?_
  cases result with
  | ok a => exact hf a rfl s' alike
  | error e => exact reads_done _

theorem Reads.andThen_ok {p : StoreProgram α} {f : α → StoreProgram β} {a : α}
    {result : Except StoreError β} (hp : s.Reads P p.run (.ok a))
    (hf : ∀ s', s.Alike s' → s'.Reads P (f a).run result) : s.Reads P (p >>= f).run result := by
  rw [ExceptT.run_bind]
  exact hp.bind hf

/-- A request that changes nothing that is found. -/
theorem Reads.ask {r : Request} {next : r.Answer → Program α} {a : α}
    (alike : s.Alike (s.serve r).2) (asks : ∀ c, r = .store c → P c)
    (later : (s.serve r).2.Reads P (next (s.serve r).1) a) :
    s.Reads P (.ask r next) a where
  result := later.result
  alike := alike.trans later.alike
  asks := by
    cases r with
    | store c => exact List.forall_mem_cons.2 ⟨asks c rfl, later.asks⟩
    | cached | remember | freshId | now | pause | append => exact later.asks

/-- What is in the store is found as well when it is kept in the cache. -/
theorem alike_remember {key : Key} {data : Bytes} (absent : s.cache.get? key = none)
    (stored : s.backend.fetch key = .ok data) :
    s.Alike { s with cache := s.cache.insert key data } where
  backend := rfl
  lookup := by
    funext k
    by_cases hk : key = k
    · subst hk
      simp [lookup, absent, stored]
    · simp [lookup, hk]

/-- Looking for a key changes nothing that is found. -/
theorem reads_readImmutable (s : Session) (key : Key) :
    s.Reads (· = .get key) (StoreProgram.readImmutable key).run (s.lookup key) := by
  rw [StoreProgram.run_readImmutable]
  refine .ask (.refl s) (fun c hc => by cases hc) ?_
  cases hcached : s.cache.get? key with
  | some data =>
    have found : s.lookup key = .ok data := by simp [lookup, hcached]
    simp only [serve, hcached, found]
    exact reads_done _
  | none =>
    have found : s.lookup key = s.backend.fetch key := by simp [lookup, hcached]
    have unchanged : (s.backend.run (.get key)).2 = s.backend := Backend.run_of_isRead rfl
    simp only [serve, hcached]
    refine .ask ⟨unchanged, by simp only [serve, unchanged]⟩ (fun c hc => by cases hc; rfl) ?_
    simp only [serve, unchanged]
    rcases hstored : (s.backend.run (.get key)).1 with e | _ | data
    · have fetch : s.backend.fetch key = .error e := by simp only [Backend.fetch, hstored]
      exact found.trans fetch ▸ reads_done _
    · have fetch : s.backend.fetch key = .error (.notFound key.text) := by
        simp only [Backend.fetch, hstored]
      exact found.trans fetch ▸ reads_done _
    · have fetch : s.backend.fetch key = .ok data := by simp only [Backend.fetch, hstored]
      have kept := alike_remember hcached fetch
      exact found.trans fetch ▸ .ask kept (fun c hc => by cases hc) (reads_done _)

end Session

end WorkflowEngine
