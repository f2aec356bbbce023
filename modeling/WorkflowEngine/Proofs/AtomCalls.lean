import WorkflowEngine.Program.Session
import WorkflowEngine.Data.Atom
import WorkflowEngine.Proofs.Entries
import Mathlib
/-!
Calls that race for one atom. Each is a program of its own; the store answers one request of one
call at a time, in any order. What the callers see is a history of calls and their answers, which
is to be explained by calls that run alone, one after the other.
-/
set_option autoImplicit false

namespace WorkflowEngine

namespace Atom

inductive Call where
  | read
  | force (v : Value)
  | set (update : Value → Reply (Bool × Value))
  | transact (update : Value → Reply (Bool × Value))
  | free

inductive Answer where
  | value (v : Value)
  | done
  | applied (yes : Bool)
  | fault (f : TransactFault)

def Answer.ofStore {α : Type} (encode : α → Answer) : Except StoreError α → Answer
  | .ok a => encode a
  | .error e => .fault (.store e)

def Answer.ofTransaction (encode : Bool → Answer) : Except TransactFault Bool → Answer
  | .ok yes => encode yes
  | .error f => .fault f

def Answer.isApplied : Answer → Bool
  | .done => true
  | .applied yes => yes
  | _ => false

namespace Call

def program (element : Decoder Value) (s : DataSettings) (a : Atom) : Call → Program Answer
  | .read => Answer.ofStore .value <$> (a.read element).run
  | .force v => Answer.ofStore (fun _ => .done) <$> (a.force v).run
  | .set f => Answer.ofTransaction (fun _ => .done) <$> (a.transact element s (always f)).run
  | .transact f => Answer.ofTransaction .applied <$> (a.transact element s f).run
  | .free => Answer.ofStore (fun _ => .done) <$> a.free.run

/-- What a call does that runs alone. Nothing is left of an atom that was freed. -/
inductive Yields (a : Atom) : Call → Option Value → Answer → Option Value → Prop
  | freed (call : Call) : Yields a call none (.fault (.store (.notFound a.key.text))) none
  | read (v : Value) : Yields a .read (some v) (.value v) (some v)
  | force (v w : Value) : Yields a (.force w) (some v) .done (some w)
  | free (v : Value) : Yields a .free (some v) .done none
  | set {f : Value → Reply (Bool × Value)} {v next : Value} {flag : Bool}
      (updated : f v = .ok (flag, next)) : Yields a (.set f) (some v) .done (some next)
  | setFailed {f : Value → Reply (Bool × Value)} {v : Value} {e : WorkflowError}
      (failed : f v = .failed e) : Yields a (.set f) (some v) (.fault (.failed e)) (some v)
  | setAborted {f : Value → Reply (Bool × Value)} {v : Value} {message : Option String}
      (aborted : f v = .aborted message) :
      Yields a (.set f) (some v) (.fault (.aborted message)) (some v)
  | setExhausted (f : Value → Reply (Bool × Value)) (v : Value) (limit : Nat) :
      Yields a (.set f) (some v) (.fault (.store (.exhausted a.key.text limit))) (some v)
  | applied {f : Value → Reply (Bool × Value)} {v next : Value} (updated : f v = .ok (true, next)) :
      Yields a (.transact f) (some v) (.applied true) (some next)
  | declined {f : Value → Reply (Bool × Value)} {v next : Value}
      (declines : f v = .ok (false, next)) :
      Yields a (.transact f) (some v) (.applied false) (some v)
  | failed {f : Value → Reply (Bool × Value)} {v : Value} {e : WorkflowError}
      (failed : f v = .failed e) : Yields a (.transact f) (some v) (.fault (.failed e)) (some v)
  | aborted {f : Value → Reply (Bool × Value)} {v : Value} {message : Option String}
      (aborted : f v = .aborted message) :
      Yields a (.transact f) (some v) (.fault (.aborted message)) (some v)
  | exhausted (f : Value → Reply (Bool × Value)) (v : Value) (limit : Nat) :
      Yields a (.transact f) (some v) (.fault (.store (.exhausted a.key.text limit))) (some v)

/-- The values that a call may write. -/
inductive Writes : Call → Value → Prop
  | force (w : Value) : Writes (.force w) w
  | set {f : Value → Reply (Bool × Value)} {v next : Value} {flag : Bool}
      (updated : f v = .ok (flag, next)) : Writes (.set f) next
  | transact {f : Value → Reply (Bool × Value)} {v next : Value}
      (updated : f v = .ok (true, next)) : Writes (.transact f) next

/-- Whether a call does nothing to the atom but to add one to its size, when it is applied. -/
def Increments (size : Value → Nat) : Call → Prop
  | .read => True
  | .set f => ∀ v flag next, f v = .ok (flag, next) → size next = size v + 1
  | .transact f => ∀ v next, f v = .ok (true, next) → size next = size v + 1
  | .force _ | .free => False

end Call

/-- A call that has taken effect, with its number. -/
structure Completed where
  number : Nat
  call : Call
  answer : Answer

/-- Calls one after the other, from one state of the atom to another one. -/
inductive Replays (a : Atom) : Option Value → List Completed → Option Value → Prop
  | nil (v : Option Value) : Replays a v [] v
  | cons {before between after : Option Value} {first : Completed} {rest : List Completed}
      (yields : first.call.Yields a before first.answer between)
      (later : Replays a between rest after) : Replays a before (first :: rest) after

inductive Occurrence where
  | called (number : Nat) (call : Call)
  | answered (number : Nat) (answer : Answer)

def Occurrence.isApplied : Occurrence → Bool
  | .called _ _ => false
  | .answered _ answer => answer.isApplied

/-- Calls under way by their numbers, and what the callers have seen so far. -/
structure Race where
  backend : Backend
  running : Nat → Option (Program Answer)
  history : List Occurrence

/-- Values that are written are read back as they were, and versions do not start anew. -/
structure Race.Admits (element : Decoder Value) (a : Atom) (r : Race) (i : Nat)
    (c : StoreCommand) : Prop where
  legible : ∀ {call v}, .called i call ∈ r.history → call.Writes v →
    c.data? = some v.json.toBytes → element.ofBytes v.json.toBytes = .ok v
  room : c.data? ≠ none → ∀ {e}, r.backend.entry a.key = .ok (some e) →
    e.version.toNat + 1 < UInt64.size

theorem Race.admits_of_data?_eq_none {element : Decoder Value} {a : Atom} {r : Race} {i : Nat}
    {c : StoreCommand} (h : c.data? = none) : r.Admits element a i c where
  legible _ _ hdata := nomatch h.symm.trans hdata
  room hdata := absurd h hdata

/-- A call is made, the store answers one of its requests, a pause of it ends, or its answer comes
back. All the time the rest of the store may change. -/
inductive Race.Step (element : Decoder Value) (a : Atom) (r : Race) : Race → Prop
  | call {i : Nat} {call : Call} (s : DataSettings) (new : ∀ c, .called i c ∉ r.history) :
      Step element a r
        { r with
          running := Function.update r.running i (some (call.program element s a))
          history := r.history ++ [.called i call] }
  | store {i : Nat} {c : StoreCommand} {next : (Request.store c).Answer → Program Answer}
      (asks : r.running i = some (.ask (.store c) next)) (admits : r.Admits element a i c) :
      Step element a r
        { r with
          backend := (r.backend.run c).2
          running := Function.update r.running i (some (next (r.backend.run c).1)) }
  | pause {i micros : Nat} {next : (Request.pause micros).Answer → Program Answer}
      (asks : r.running i = some (.ask (.pause micros) next)) :
      Step element a r { r with running := Function.update r.running i (some (next ())) }
  | answer {i : Nat} {answer : Answer} (done : r.running i = some (.done answer)) :
      Step element a r
        { r with
          running := Function.update r.running i none
          history := r.history ++ [.answered i answer] }
  | other {c : StoreCommand} (elsewhere : c.key.text ≠ a.key.text) :
      Step element a r { r with backend := (r.backend.run c).2 }

inductive Race.Run (element : Decoder Value) (a : Atom) : Race → Race → Prop
  | refl (r : Race) : Run element a r r
  | step {r r' r'' : Race} (run : Run element a r r') (next : r'.Step element a r'') :
      Run element a r r''

/-- An order of calls that explains a history: alone and in this order, the calls answer as they
did, and no call comes before one that had been answered when it was made. -/
structure Linearizes (a : Atom) (before : Option Value) (history : List Occurrence)
    (order : List Completed) (after : Option Value) : Prop where
  replays : Replays a before order after
  distinct : (order.map Completed.number).Nodup
  called : ∀ {x}, x ∈ order → .called x.number x.call ∈ history
  answered : ∀ {i answer}, .answered i answer ∈ history → ∃ call, ⟨i, call, answer⟩ ∈ order
  realTime : ∀ {i j answer call}, [.answered i answer, .called j call].Sublist history →
    j ∈ order.map Completed.number → [i, j].Sublist (order.map Completed.number)

/-- How an attempt goes on when it has tried to write. -/
def written (element : Decoder Value) (a : Atom) (f : Value → Reply (Bool × Value))
    (limit left : Nat) : Except StoreError Bool → Program (Except TransactFault Bool)
  | .error e => .done (.error (.store e))
  | .ok true => .done (.ok true)
  | .ok false => .ask (.pause (conflictMicros (limit - (left + 1)))) fun _ =>
    (attempts element a f limit left).run

/-- How an attempt goes on when it has read the entry. -/
def found (element : Decoder Value) (a : Atom) (f : Value → Reply (Bool × Value))
    (limit left : Nat) :
    Except StoreError (Option Entry) → Program (Except TransactFault Bool)
  | .error e => .done (.error (.store e))
  | .ok none => .done (.error (.store (.notFound a.key.text)))
  | .ok (some entry) =>
    match element.ofBytes entry.data with
    | .error e => .done (.error (.store (.serialization e)))
    | .ok current =>
      match f current with
      | .failed e => .done (.error (.failed e))
      | .aborted message => .done (.error (.aborted message))
      | .ok (false, _) => .done (.ok false)
      | .ok (true, next) =>
        .ask (.store (.compareAndSwap a.key entry.version next.json.toBytes))
          (written element a f limit left)

/-- Attempts are requests to read and then to write. -/
theorem run_attempts (element : Decoder Value) (a : Atom) (f : Value → Reply (Bool × Value))
    (limit left : Nat) :
    (attempts element a f limit (left + 1)).run =
      .ask (.store (.getVersioned a.key)) (found element a f limit left) := by
  refine congrArg (Program.ask (.store (.getVersioned a.key))) (funext fun answer => ?_)
  rcases answer with e | _ | entry
  · rfl
  · rfl
  · simp only [found, Program.bind, ExceptT.bindCont, Except.mapError, Function.comp,
      StoreProgram.decode, ExceptT.adapt, ExceptT.mk, Functor.map, bind, ExceptT.bind]
    cases element.ofBytes entry.data with
    | error e => rfl
    | ok current =>
      cases hf : f current with
      | failed e => simp only [hf]; rfl
      | aborted message => simp only [hf]; rfl
      | ok result =>
        obtain ⟨flag, next⟩ := result
        simp only [hf]
        cases flag with
        | false => rfl
        | true =>
          refine congrArg (Program.ask (.store (.compareAndSwap a.key _ _)))
            (funext fun answer => ?_)
          rcases answer with e | swapped
          · rfl
          · cases swapped <;> rfl

end Atom

end WorkflowEngine
