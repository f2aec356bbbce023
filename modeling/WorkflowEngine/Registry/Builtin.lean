import WorkflowEngine.Registry.Basic
/-!
The functions that every registry has.
-/
set_option autoImplicit false

namespace WorkflowEngine

namespace Builtin

/-- The captured value for true, null for false. -/
def keepIf (input env : Value) : Reply Workflow :=
  match input.bool? with
  | some true => .ok (.ret env)
  | some false => .ok .nothing
  | none => .failed (.evaluation ("predicate returned " ++ input.text ++ " instead of a boolean"))

/-- Integers that 64 bits with a sign hold are added exactly, or the sum is out of range. Other
numbers are added as doubles. -/
def sum (left right : Value) : Except WorkflowError Value :=
  match left.int64?, right.int64? with
  | some a, some b =>
    let total := a + b
    if -0x8000000000000000 ≤ total ∧ total < 0x8000000000000000 then .ok (.ofJson (.ofInt total))
    else .error (.evaluation ("integer overflow adding " ++ String.ofList (Number.intText a) ++
      " and " ++ String.ofList (Number.intText b)))
  | _, _ =>
    match left.number?, right.number? with
    | some a, some b =>
      match a.toDouble, b.toDouble with
      | some x, some y => .ok (.ofFloat (x.add y))
      | _, _ => .ok .null
    | _, _ => .error (.evaluation ("cannot add " ++ left.text ++ " and " ++ right.text))

def continuations : List (String × Continuation) := [
  (thenDo, fun _ env => .ofExcept (Workflow.ofValue env)),
  (identity, fun input _ => .ok (.ret input)),
  (ignore, fun _ _ => .ok .unit),
  (const, fun _ env => .ok (.ret env)),
  (someIf, keepIf),
  (equals, fun input env => .ok (.ret (.bool (input.same env)))),
  (ok, fun input _ => .ok (.ret (.object [("ok", input)])))]

def handlers : List (String × Handler) := [
  (err, fun e _ => .ok (.ret (.object [("err", e.toValue)]))),
  (recover, fun _ env => .ok (.ret env))]

def updates : List (String × Update) := [
  (add, fun current env => .ofExcept ((sum current env).map fun v => (true, v)))]

end Builtin

namespace Registry

def empty : Registry := {}

/-- The registry with the functions that workflows built by combinators need. -/
def standard : Registry :=
  { continuations := Builtin.continuations
    handlers := Builtin.handlers
    updates := Builtin.updates }

end Registry

end WorkflowEngine
