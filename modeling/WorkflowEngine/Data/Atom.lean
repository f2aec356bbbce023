import WorkflowEngine.Data.Handle
import WorkflowEngine.Data.Settings
import WorkflowEngine.Registry.Basic
/-!
Operations on atoms. They never use the cache. A transaction reads the entry with its version
and writes only if the version is still the same; otherwise it waits and starts anew, a limited
number of times.
-/
set_option autoImplicit false

namespace WorkflowEngine

/-- Why a transaction gives no answer. -/
inductive TransactFault where
  | store (e : StoreError)
  | failed (e : WorkflowError)
  | aborted (message : Option String)

namespace Atom

def create (s : DataSettings) (v : Value) : StoreProgram Atom := do
  let key ← s.freshMutableKey
  StoreProgram.create key v.json.toBytes
  return ⟨key⟩

def read (element : Decoder Value) (a : Atom) : StoreProgram Value := do
  match ← StoreProgram.get a.key with
  | some data => StoreProgram.decode element data
  | none => throw (.notFound a.key.text)

def force (a : Atom) (v : Value) : StoreProgram Unit :=
  StoreProgram.overwrite a.key v.json.toBytes

def free (a : Atom) : StoreProgram Unit := do
  if !(← StoreProgram.delete a.key) then throw (.notFound a.key.text)

/-- The wait after a conflict doubles from 50 microseconds on, seven times. -/
def conflictMicros (attempt : Nat) : Nat := 50 * Nat.pow 2 (min attempt 7)

/-- One attempt: true when written, false when the update does not apply, none on a conflict. -/
def attempt (element : Decoder Value) (a : Atom) (update : Value → Reply (Bool × Value)) :
    ExceptT TransactFault Program (Option Bool) := do
  let found ← (StoreProgram.getVersioned a.key).adapt .store
  match found with
  | none => throw (.store (.notFound a.key.text))
  | some entry =>
    let current ← (StoreProgram.decode element entry.data).adapt .store
    match update current with
    | .failed e => throw (.failed e)
    | .aborted message => throw (.aborted message)
    | .ok (false, _) => return some false
    | .ok (true, next) =>
      let swapped ←
        (StoreProgram.compareAndSwap a.key entry.version next.json.toBytes).adapt .store
      return if swapped then some true else none

/-- Attempts until one decides; `left` of `attempts` are left. -/
def attempts (element : Decoder Value) (a : Atom) (update : Value → Reply (Bool × Value))
    (limit : Nat) : Nat → ExceptT TransactFault Program Bool
  | 0 => throw (.store (.exhausted a.key.text limit))
  | left + 1 => do
    match ← attempt element a update with
    | some applied => return applied
    | none =>
      ExceptT.lift (Program.pause (conflictMicros (limit - (left + 1))))
      attempts element a update limit left

/-- Attempts are counted in 32 bits. -/
def attemptLimit (s : DataSettings) : Nat := min (s.retries.toNat + 1) 0xffffffff

def transact (element : Decoder Value) (s : DataSettings) (a : Atom)
    (update : Value → Reply (Bool × Value)) : ExceptT TransactFault Program Bool :=
  attempts element a update (attemptLimit s) (attemptLimit s)

/-- An update that always applies. -/
def always (update : Value → Reply (Bool × Value)) (current : Value) : Reply (Bool × Value) :=
  (update current).map fun (_, next) => (true, next)

end Atom

end WorkflowEngine
