import WorkflowEngine.Failure.Basic
/-!
Joining the outcomes of forked evaluations, one after the other in the order of their arrival.
-/
set_option autoImplicit false

namespace WorkflowEngine

/-- Whether all children count or the first one that finds something. -/
inductive ForkKind where
  | parallel
  | choice
  deriving DecidableEq

/-- What has arrived so far: the values by index and the first error, or what decided. -/
inductive Join where
  | parallel (values : List (Option Value)) (failure : Option WorkflowError)
  | choice (decision : Option (Except WorkflowError Value))

namespace Join

def start (kind : ForkKind) (count : Nat) : Join :=
  match kind with
  | .parallel => .parallel (List.replicate count none) none
  | .choice => .choice none

/-- Takes the outcome of a child. True says that it decides the join, so that the other children
are not needed any more. -/
def receive : Join → Nat → Outcome → Bool × Join
  | .parallel values failure, i, .ok v => (false, .parallel (values.set i (some v)) failure)
  | .parallel values none, _, .error (.error e) => (true, .parallel values (some e))
  | .choice none, _, .ok v =>
    if v.isNull then (false, .choice none) else (true, .choice (some (.ok v)))
  | .choice none, _, .error (.error e) => (true, .choice (some (.error e)))
  | j, _, _ => (false, j)

/-- All values, if none is missing. -/
def allValues : List (Option Value) → Option (List Value)
  | [] => some []
  | none :: _ => none
  | some v :: rest => (allValues rest).map (v :: ·)

/-- The outcome when all children have arrived; `cancelled` tells whether the scope around the
fork is cancelled. -/
def outcome (cancelled : Bool) : Join → Outcome
  | .parallel _ (some e) => .error (.error e)
  | .parallel values none =>
    match allValues values with
    | some vs => .ok (.array vs)
    | none => .error .cancelled
  | .choice (some (.ok v)) => .ok v
  | .choice (some (.error e)) => .error (.error e)
  | .choice none => if cancelled then .error .cancelled else .ok .null

end Join

end WorkflowEngine
