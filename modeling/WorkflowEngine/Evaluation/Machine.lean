import WorkflowEngine.Evaluation.Join
import WorkflowEngine.Registry.Basic
/-!
The machine that evaluates a workflow on one worker. It keeps the continuations and handlers
that wait around the current part on a stack. A value goes to the nearest continuation, an error
to the nearest handler; whatever lies above it on the stack is dropped.
-/
set_option autoImplicit false

namespace WorkflowEngine

/-- What waits around the part being evaluated. -/
inductive Frame where
  | bind (continuation : FunctionRef)
  | tryWith (handler : FunctionRef)

/-- What the machine does next: evaluate a part, or hand on how one ended. -/
inductive Control where
  | eval (w : Workflow)
  | resume (o : Outcome)

structure Machine where
  stack : List Frame
  control : Control

namespace Machine

def start (w : Workflow) : Machine := ⟨[], .eval w⟩

/-- The nearest continuation and the stack around it. -/
def nearestContinuation : List Frame → Option (FunctionRef × List Frame)
  | [] => none
  | .bind f :: rest => some (f, rest)
  | .tryWith _ :: rest => nearestContinuation rest

/-- The nearest handler and the stack around it. -/
def nearestHandler : List Frame → Option (FunctionRef × List Frame)
  | [] => none
  | .tryWith f :: rest => some (f, rest)
  | .bind _ :: rest => nearestHandler rest

/-- What a step of the machine leads to. An operation or a fork suspends it: it goes on with the
stack when the outcome is known. -/
inductive Step where
  | next (m : Machine)
  | operate (operation : Operation) (stack : List Frame)
  | fork (kind : ForkKind) (children : List Workflow) (stack : List Frame)
  | finished (o : Outcome)
  | aborted (message : Option String)

/-- Goes on with what a function replied. -/
def Step.ofReply (stack : List Frame) : Reply Workflow → Step
  | .ok w => .next ⟨stack, .eval w⟩
  | .failed e => .next ⟨stack, .resume (.error (.error e))⟩
  | .aborted message => .aborted message

def eval (stack : List Frame) : Workflow → Step
  | .ret v => .next ⟨stack, .resume (.ok v)⟩
  | .raise e => .next ⟨stack, .resume (.error (.error e))⟩
  | .bind w f => .next ⟨.bind f :: stack, .eval w⟩
  | .tryWith w f => .next ⟨.tryWith f :: stack, .eval w⟩
  | .parallel ws => .fork .parallel ws stack
  | .choice ws => .fork .choice ws stack
  | .perform op => .operate op stack

def resume (r : Registry) (stack : List Frame) : Outcome → Step
  | .ok v =>
    match nearestContinuation stack with
    | none => .finished (.ok v)
    | some (f, rest) => .ofReply rest (r.continueWith f v)
  | .error (.error e) =>
    match nearestHandler stack with
    | none => .finished (.error (.error e))
    | some (f, rest) => .ofReply rest (r.handle f e)
  | .error .cancelled => .finished (.error .cancelled)

def step (r : Registry) (m : Machine) : Step :=
  match m.control with
  | .eval w => eval m.stack w
  | .resume o => resume r m.stack o

end Machine

end WorkflowEngine
