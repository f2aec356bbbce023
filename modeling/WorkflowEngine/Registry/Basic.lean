import WorkflowEngine.Workflow.Combinators
/-!
Registries: the functions that workflows name. Each kind of function has names of its own.
-/
set_option autoImplicit false

namespace WorkflowEngine

/-- What a call gives: a result, an error, or an abort with or without a message. -/
inductive Reply (α : Type) where
  | ok (a : α)
  | failed (e : WorkflowError)
  | aborted (message : Option String)

namespace Reply

def ofExcept {α : Type} : Except WorkflowError α → Reply α
  | .ok a => .ok a
  | .error e => .failed e

def map {α β : Type} (f : α → β) : Reply α → Reply β
  | .ok a => .ok (f a)
  | .failed e => .failed e
  | .aborted message => .aborted message

end Reply

/-- The work of a function: it waits, then replies. -/
structure Activity where
  millis : Nat
  reply : Reply Value

/-- Takes the value before it and the captured value. -/
abbrev Continuation := Value → Value → Reply Workflow

/-- Takes the error and the captured value. -/
abbrev Handler := WorkflowError → Value → Reply Workflow

/-- Takes the current value and the captured value; says whether the next value is to be written. -/
abbrev Update := Value → Value → Reply (Bool × Value)

abbrev Function := Value → Activity

structure Registry where
  continuations : List (String × Continuation) := []
  handlers : List (String × Handler) := []
  updates : List (String × Update) := []
  functions : List (String × Function) := []

namespace Registry

/-- Adds a function under a new name. -/
def addTo {α : Type} (table : List (String × α)) (name : String) (a : α) :
    Except WorkflowError (List (String × α)) :=
  if (table.lookup name).isSome then
    .error (.evaluation ("function '" ++ name ++ "' is already registered"))
  else .ok (table ++ [(name, a)])

def addContinuation (r : Registry) (name : String) (f : Continuation) :
    Except WorkflowError Registry :=
  (addTo r.continuations name f).map fun continuations => { r with continuations }

def addHandler (r : Registry) (name : String) (f : Handler) : Except WorkflowError Registry :=
  (addTo r.handlers name f).map fun handlers => { r with handlers }

def addUpdate (r : Registry) (name : String) (f : Update) : Except WorkflowError Registry :=
  (addTo r.updates name f).map fun updates => { r with updates }

def addFunction (r : Registry) (name : String) (f : Function) : Except WorkflowError Registry :=
  (addTo r.functions name f).map fun functions => { r with functions }

def contains (r : Registry) (name : String) : Bool :=
  (r.continuations.lookup name).isSome || (r.handlers.lookup name).isSome ||
    (r.updates.lookup name).isSome || (r.functions.lookup name).isSome

def find {α : Type} (table : List (String × α)) (name : String) : Except WorkflowError α :=
  match table.lookup name with
  | some a => .ok a
  | none => .error (.unknownFunction name)

/-- The workflow that follows a value. -/
def continueWith (r : Registry) (f : FunctionRef) (input : Value) : Reply Workflow :=
  match find r.continuations f.name with
  | .ok function => function input f.env
  | .error e => .failed e

/-- The workflow that follows an error. -/
def handle (r : Registry) (f : FunctionRef) (e : WorkflowError) : Reply Workflow :=
  match find r.handlers f.name with
  | .ok function => function e f.env
  | .error e => .failed e

/-- The update of a name, with its captured value. -/
def update (r : Registry) (f : FunctionRef) :
    Except WorkflowError (Value → Reply (Bool × Value)) :=
  (find r.updates f.name).map fun function current => function current f.env

def invoke (r : Registry) (name : String) (arg : Value) : Except WorkflowError Activity :=
  (find r.functions name).map fun function => function arg

end Registry

end WorkflowEngine
