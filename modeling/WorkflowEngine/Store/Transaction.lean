import WorkflowEngine.Store.Packed
/-!
Packed stores in a database every call of which may fail. A command works inside a transaction, on
a table of its own. What it has done there is kept when the transaction is committed; a transaction
that is dropped before, or whose commit fails, leaves nothing behind.
-/
set_option autoImplicit false

namespace WorkflowEngine

/-- What is asked of the database on behalf of a command, each at most once. -/
inductive DatabaseCall where
  | start
  | openTable
  | look
  | insert
  | remove
  | commit

/-- The calls that fail, with the reason that the database gives. -/
abbrev Outages := DatabaseCall → Option String

namespace Outages

def none : Outages := fun _ => .none

end Outages

/-- Work on the table of a transaction. An error ends it where it stands. -/
abbrev TableWork (α : Type) := ExceptT StoreError (StateM (Table String Bytes)) α

namespace TableWork

def call (outages : Outages) (c : DatabaseCall) : TableWork Unit :=
  match outages c with
  | none => pure ()
  | some reason => throw (.backend reason)

/-- The entry under a text. -/
def entry (outages : Outages) (flat : String) : TableWork (Option Entry) := do
  call outages .look
  MonadExcept.ofExcept ((PackedStore.mk (← get)).read flat)

/-- Looks at an entry and writes what is to take its place, if anything is. -/
def change {α : Type} (outages : Outages) (flat : String)
    (update : Option Entry → Except StoreError (Option Entry × α)) : TableWork α := do
  match update (← entry outages flat) with
  | .error e => throw e
  | .ok (none, a) => return a
  | .ok (some next, a) =>
    call outages .insert
    modify (·.insert flat next.pack)
    return a

/-- Removes what stands under a text, whatever it is. -/
def remove (outages : Outages) (flat : String) : TableWork Bool := do
  call outages .remove
  let table ← get
  set (table.erase flat)
  return (table.get? flat).isSome

end TableWork

namespace PackedStore

/-- Work in a transaction that only reads. -/
def reading {α : Type} (outages : Outages) (p : PackedStore) (work : TableWork α) :
    Except StoreError α × PackedStore :=
  let session : TableWork α := do
    TableWork.call outages .start
    TableWork.call outages .openTable
    work
  ((session.run.run p.table).1, p)

/-- The store when work on its table has ended: what failed has not been kept. -/
def settle {α : Type} (p : PackedStore) :
    Except StoreError α × Table String Bytes → Except StoreError α × PackedStore
  | (.ok a, table) => (.ok a, ⟨table⟩)
  | (.error e, _) => (.error e, p)

/-- Work in a transaction that is committed at its end. -/
def writing {α : Type} (outages : Outages) (p : PackedStore) (work : TableWork α) :
    Except StoreError α × PackedStore :=
  let session : TableWork α := do
    TableWork.call outages .start
    TableWork.call outages .openTable
    let a ← work
    TableWork.call outages .commit
    return a
  p.settle (session.run.run p.table)

/-- A command in its transaction. -/
def attempt (outages : Outages) (p : PackedStore) :
    (c : StoreCommand) → Except StoreError c.Answer × PackedStore
  | .create key data =>
    p.writing outages <| TableWork.change outages key.text fun
      | some _ => .error (.alreadyExists key.text)
      | none => .ok (some ⟨0, data⟩, ())
  | .overwrite key data =>
    p.writing outages <| TableWork.change outages key.text fun
      | some entry => .ok (some ⟨entry.version + 1, data⟩, ())
      | none => .error (.notFound key.text)
  | .get key =>
    p.reading outages do return (← TableWork.entry outages key.text).map Entry.data
  | .getVersioned key => p.reading outages (TableWork.entry outages key.text)
  | .compareAndSwap key expected data =>
    p.writing outages <| TableWork.change outages key.text fun
      | some entry =>
        if entry.version = expected then .ok (some ⟨entry.version + 1, data⟩, true)
        else .ok (none, false)
      | none => .error (.notFound key.text)
  | .contains key =>
    p.reading outages do return (← TableWork.entry outages key.text).isSome
  | .delete key => p.writing outages (TableWork.remove outages key.text)

end PackedStore

end WorkflowEngine
