import WorkflowEngine.Json.Path
import WorkflowEngine.Registry.Builtin
/-!
Functions with which workflows can be tried out: they count down, fail, abort, wait and tell what
they were given.
-/
set_option autoImplicit false

namespace WorkflowEngine

namespace Trial

/-- Aborts with the captured text; other captured values make an abort without a message. -/
def explode {α : Type} (env : Value) : Reply α :=
  match env.json with
  | .null => .aborted (some "exploded on purpose")
  | .string s => .aborted (some ("exploded: " ++ s))
  | _ => .aborted none

/-- Performs the captured operation with the input as one of its fields. -/
def performWith (input env : Value) : Reply Workflow :=
  let op := match env.json.entry "op", env.json.entry "field" with
    | .object es, .string name =>
      Value.ofJson (.object (es.filter (·.1 != name) ++ [(name, input.json)]))
    | op, _ => .ofJson op
  match Operation.decoder.ofValue op with
  | .ok op => .ok (.perform op)
  | .error e => .failed (.ofDecode e)

/-- Counts down to the captured value. -/
def countdown (input env : Value) : Reply Workflow :=
  match input.int64? with
  | some n =>
    if n ≤ 0 then .ok (.ret env)
    else .ok (.bind (.ret (.ofJson (.ofInt (n - 1)))) ⟨"t.countdown", env⟩)
  | none => .ok (.ret env)

/-- Applies the captured function to all items of the input. -/
def mapItems (input env : Value) : Reply Workflow :=
  .ofExcept ((do
    let f ← FunctionRef.decoder.ofValue env
    return Workflow.parallelMap (← Decoder.value.list.ofValue input) f).mapError .ofDecode)

/-- Whether the input is less than the captured integer. -/
def less (input env : Value) : Reply Workflow :=
  match input.int64?, env.int64? with
  | some a, some b => .ok (.ret (.bool (a < b)))
  | _, _ => .ok (.ret input)

/-- An error that carries the captured value. -/
def userError (tag : String) (shown payload : Value) : WorkflowError :=
  (WorkflowError.user tag shown.text).withPayload payload

def square (arg : Value) : Reply Value :=
  match arg.int64? with
  | none => .failed (.evaluation "not a number")
  | some n =>
    if n * n < 0x8000000000000000 then .ok (.ofJson (.ofInt (n * n)))
    else .failed (.evaluation "overflow")

/-- Adds the captured value to a list. -/
def push (current env : Value) : Reply (Bool × Value) :=
  match current.items? with
  | some items => .ok (true, .array (items ++ [env]))
  | none => .failed (userError "NotArray" current env)

/-- The captured integer, if it is the larger one. -/
def maximum (current env : Value) : Reply (Bool × Value) :=
  match current.int64?, env.int64? with
  | some a, some b => .ok (decide (a < b), env)
  | _, _ => .failed (.notFound "no maximum")

def continuations : List (String × Continuation) := [
  ("t.op", performWith),
  ("t.countdown", countdown),
  ("t.explode", fun _ env => explode env),
  ("t.raise", fun input env => .ok (.raise (userError "Raised" input env))),
  ("t.fail", fun input _ => .failed (.evaluation ("failed on " ++ input.text))),
  ("t.pair", fun input env => .ok (.ret (.array [env, input]))),
  ("t.less", less),
  ("t.map", mapItems)]

def handlers : List (String × Handler) := [
  ("t.message", fun e _ => .ok (.ret (.string e.text))),
  ("t.rethrow", fun e _ => .failed e),
  ("t.wrap", fun e env => .ok (.raise (userError "Wrapped" env e.toValue))),
  ("t.run", fun _ env => .ofExcept (Workflow.ofValue env)),
  ("t.explode", fun _ env => explode env)]

def updates : List (String × Update) := [
  ("t.reject", fun _ env => .ok (false, env)),
  ("t.max", maximum),
  ("t.push", push)]

def functions : List (String × Function) := [
  ("t.square", fun arg => ⟨0, square arg⟩),
  ("t.delay", fun arg =>
    ⟨(arg.json.entry "ms").count?.getD 0, .ok (.ofJson (arg.json.entry "value"))⟩),
  ("t.refuse", fun arg => ⟨0, .failed (userError "Refused" arg arg)⟩),
  ("t.explode", fun arg => ⟨0, explode arg⟩)]

end Trial

/-- The standard registry with the functions for trying out. -/
def Registry.trial : Registry :=
  { continuations := Registry.standard.continuations ++ Trial.continuations
    handlers := Registry.standard.handlers ++ Trial.handlers
    updates := Registry.standard.updates ++ Trial.updates
    functions := Trial.functions }

end WorkflowEngine
