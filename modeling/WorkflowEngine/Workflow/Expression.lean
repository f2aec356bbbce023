import WorkflowEngine.Json.Path
import WorkflowEngine.Workflow.Combinators
/-!
A short notation for workflows: an object with one entry, whose key names the way in which the
workflow is built and whose value holds the parts.
-/
set_option autoImplicit false

namespace WorkflowEngine

/-- Why a document is no expression. -/
inductive ExpressionError where
  | manyKeys
  | unknown (key : String)
  | noCount
  | decoding (e : DecodeError)

namespace Workflow

/-- A part that is read by a decoder. -/
def part {α : Type} (d : Decoder α) (j : Json) : Except ExpressionError α :=
  (d.ofJson j).mapError .decoding

/-- Puts a workflow inside another one in the way that a name tells. -/
def wrapper : String → Except ExpressionError (Workflow → Workflow)
  | "parallel" => .ok fun w => .parallel [w]
  | "choice" => .ok fun w => .choice [w]
  | "ignore" => .ok ignore
  | "catch" => .ok catchError
  | "bind" => .ok fun w => .bind w ⟨Builtin.identity, .null⟩
  | "then" => .ok unit.andThen
  | name => .error (.unknown name)

/-- Joins workflows in the way that a name tells. -/
def joiner : String → Except ExpressionError (List Workflow → Workflow)
  | "parallel" => .ok parallel
  | "choice" => .ok choice
  | "sequential" => .ok sequential
  | name => .error (.unknown name)

def countOf (j : Json) : Except ExpressionError Nat :=
  match j.count? with
  | some n => .ok n
  | none => .error .noCount

/-- Builds the workflow of an expression without expressions inside. -/
def ofLeaf (key : String) (arg : Json) : Except ExpressionError Workflow := do
  let values (j : Json) : List Value := j.items.map Value.ofJson
  let text := part Decoder.string
  let millis := part (Decoder.uint64 "u64")
  let reference := part FunctionRef.decoder
  match key with
  | "doc" => part Workflow.decoder arg
  | "value" | "ret" => return ret (.ofJson arg)
  | "ret_bad_key" => return ofPairs [(.array [.ofUInt64 1], .ofUInt64 1)]
  | "ret_nan" => return ret (.ofFloat none)
  | "unit" => return unit
  | "none" => return nothing
  | "raise" => return raise (← part WorkflowError.decoder arg)
  | "user" => return raise (.user (← text (arg.item 0)) (← text (arg.item 1)))
  | "sleep" => return perform (.sleep (← millis arg))
  | "slow" =>
    return andThen (perform (.sleep (← millis (arg.item 0)))) (ret (.ofJson (arg.item 1)))
  | "log" => return perform (.log (← text arg))
  | "logf" => return perform (.logFormat (← text (arg.item 0)) (values (arg.item 1)))
  | "invoke" => return perform (.invoke (← text (arg.item 0)) (.ofJson (arg.item 1)))
  | "op" => return perform (← part Operation.decoder arg)
  | "try_find" => return tryFind (values (arg.item 0)) (← reference (arg.item 1))
  | "parallel_map" => return parallelMap (values (arg.item 0)) (← reference (arg.item 1))
  | key => throw (.unknown key)

/-- Builds the workflow of an expression that stands inside at most `levels` others. -/
def ofExpressionTo : Nat → Json → Except ExpressionError Workflow
  | levels + 1, .object [(key, arg)] => do
    let inner := ofExpressionTo levels
    let reference := part FunctionRef.decoder
    match key with
    | "bind" => return bind (← inner (arg.item 0)) (← reference (arg.item 1))
    | "try_with" => return tryWith (← inner (arg.item 0)) (← reference (arg.item 1))
    | "then" => return andThen (← inner (arg.item 0)) (← inner (arg.item 1))
    | "parallel" | "choice" | "sequential" => return (← joiner key) (← arg.items.mapM inner)
    | "ignore" => return ignore (← inner arg)
    | "catch" => return catchError (← inner arg)
    | "recover" => return recover (← inner (arg.item 0)) (.ofJson (arg.item 1))
    | "nest" =>
      let n ← countOf (arg.item 0)
      let wrap ← wrapper (← part Decoder.string (arg.item 1))
      return Nat.repeat wrap n (← inner (arg.item 2))
    | "copies" =>
      let n ← countOf (arg.item 0)
      let join ← joiner (← part Decoder.string (arg.item 1))
      return join (List.replicate n (← inner (arg.item 2)))
    | key => ofLeaf key arg
  | _, _ => .error .manyKeys

/-- An expression inside another one is inside its document too, so the depth bounds the levels. -/
def ofExpression (j : Json) : Except ExpressionError Workflow := ofExpressionTo (j.depth + 1) j

end Workflow

end WorkflowEngine
