import WorkflowEngine.Log.Entry
import WorkflowEngine.Store.Command
/-!
Programs that ask the world for one thing after another: store commands, the cache of immutable
data, fresh identifiers, the time, pauses, and log entries to append. A program says what it
does with each answer and nothing of where the answer comes from, so that one program can run
alone or between the requests of others.
-/
set_option autoImplicit false

namespace WorkflowEngine

inductive Request where
  | store (c : StoreCommand)
  | cached (key : Key)
  | remember (key : Key) (data : Bytes)
  | freshId
  | now
  | pause (micros : Nat)
  | append (entry : LogEntry) (limitMillis : Nat)

/-- An append answers whether the entry was stored within the limit. -/
def Request.Answer : Request → Type
  | .store c => Except StoreError c.Answer
  | .cached _ => Option Bytes
  | .remember _ _ | .pause _ => Unit
  | .freshId => Uuid
  | .now => Timestamp
  | .append _ _ => Bool

/-- The answer of a world in which nothing is stored. -/
def Request.refused : (r : Request) → r.Answer
  | .store _ => .error (.backend "no store")
  | .cached _ => none
  | .remember _ _ | .pause _ => ()
  | .freshId => Uuid.fresh 0
  | .now => Timestamp.ofMillis 0
  | .append _ _ => false

/-- No wait is longer than thirty years of 365 days. -/
def longestWait : Nat := 946080000000

def waitMillis (millis : Nat) : Nat := min millis longestWait

/-- Pauses end at whole milliseconds. -/
def millisOf (micros : Nat) : Nat := waitMillis ((micros + 999) / 1000)

inductive Program (α : Type) : Type where
  | done (a : α)
  | ask (r : Request) (next : r.Answer → Program α)

namespace Program

def bind {α β : Type} : Program α → (α → Program β) → Program β
  | .done a, f => f a
  | .ask r next, f => .ask r fun answer => (next answer).bind f

instance : Monad Program where
  pure := .done
  bind := bind

def request (r : Request) : Program r.Answer := .ask r .done

def pause (micros : Nat) : Program Unit := request (.pause micros)

def append (e : LogEntry) (limitMillis : Nat) : Program Bool := request (.append e limitMillis)

def now : Program Timestamp := request .now

/-- Runs a program alone: each request is answered before the next one is asked. -/
def run {σ α : Type} (serve : σ → (r : Request) → r.Answer × σ) : σ → Program α → α × σ
  | s, .done a => (a, s)
  | s, .ask r next =>
    let (answer, s) := serve s r
    run serve s (next answer)

end Program

/-- Programs that may end with a store error. -/
abbrev StoreProgram (α : Type) := ExceptT StoreError Program α

namespace StoreProgram

/-- Asks a store command; its failure ends the program. -/
def command (c : StoreCommand) : StoreProgram c.Answer :=
  ExceptT.mk (Program.request (.store c))

def create (key : Key) (data : Bytes) : StoreProgram Unit := command (.create key data)

def overwrite (key : Key) (data : Bytes) : StoreProgram Unit := command (.overwrite key data)

def get (key : Key) : StoreProgram (Option Bytes) := command (.get key)

def getVersioned (key : Key) : StoreProgram (Option Entry) := command (.getVersioned key)

def compareAndSwap (key : Key) (expected : UInt64) (data : Bytes) : StoreProgram Bool :=
  command (.compareAndSwap key expected data)

def contains (key : Key) : StoreProgram Bool := command (.contains key)

def delete (key : Key) : StoreProgram Bool := command (.delete key)

def ask (r : Request) : StoreProgram r.Answer := ExceptT.lift (Program.request r)

def cached (key : Key) : StoreProgram (Option Bytes) := ask (.cached key)

def remember (key : Key) (data : Bytes) : StoreProgram Unit := ask (.remember key data)

def freshId : StoreProgram Uuid := ask .freshId

/-- Decodes stored data. -/
def decode {α : Type} (d : Decoder α) (data : Bytes) : StoreProgram α :=
  ExceptT.mk (.done ((d.ofBytes data).mapError .serialization))

end StoreProgram

end WorkflowEngine
