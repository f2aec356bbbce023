import WorkflowEngine.Workflow.Codec
/-!
Workflows built from others with the functions every registry has. `then` captures the second
workflow as a value, which the continuation reads back.
-/
set_option autoImplicit false

namespace WorkflowEngine

/-! The names of the functions that every registry has. -/
namespace Builtin

def thenDo : String := "stratus.then"
def identity : String := "stratus.identity"
def ignore : String := "stratus.ignore"
def const : String := "stratus.const"
def someIf : String := "stratus.some_if"
def equals : String := "stratus.equals"
def ok : String := "stratus.ok"
def err : String := "stratus.err"
def recover : String := "stratus.recover"
def add : String := "stratus.add"

end Builtin

namespace Value

/-- A double result; one out of range has no number. -/
def ofFloat : Option Double → Value
  | some x => number (.float x)
  | none => null

/-- An object from pairs of any values, which needs strings as keys. -/
def ofPairs : List (Value × Value) → Except String (List (String × Value))
  | [] => .ok []
  | (key, v) :: rest =>
    match key.string? with
    | some s => (ofPairs rest).map ((s, v) :: ·)
    | none => .error "key must be a string"

end Value

namespace Workflow

/-- A value, or the error of a value that cannot be written. -/
def ofPairs (pairs : List (Value × Value)) : Workflow :=
  match Value.ofPairs pairs with
  | .ok entries => .ret (.object entries)
  | .error message => .raise (.serialization message)

def unit : Workflow := .ret .null

def nothing : Workflow := .ret .null

/-- The second workflow follows the first one's value. -/
def andThen (w next : Workflow) : Workflow := .bind w ⟨Builtin.thenDo, next.toValue⟩

/-- Null instead of the value. -/
def ignore (w : Workflow) : Workflow := .bind w ⟨Builtin.ignore, .null⟩

/-- The value under `ok`, or the error under `err`. -/
def catchError (w : Workflow) : Workflow :=
  .tryWith (.bind w ⟨Builtin.ok, .null⟩) ⟨Builtin.err, .null⟩

/-- A value instead of an error. -/
def recover (w : Workflow) (fallback : Value) : Workflow := .tryWith w ⟨Builtin.recover, fallback⟩

/-- All workflows from left to right, with the value of the last one. -/
def sequential : List Workflow → Workflow
  | [] => unit
  | [w] => w
  | w :: rest => w.andThen (sequential rest)

/-- Some item for which the predicate gives true. -/
def tryFind (items : List Value) (predicate : FunctionRef) : Workflow :=
  .choice (items.map fun item => .bind (.bind (.ret item) predicate) ⟨Builtin.someIf, item⟩)

/-- The function's values for all items. -/
def parallelMap (items : List Value) (f : FunctionRef) : Workflow :=
  .parallel (items.map fun item => .bind (.ret item) f)

end Workflow

end WorkflowEngine
