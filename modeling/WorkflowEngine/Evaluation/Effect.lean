import WorkflowEngine.Data.Atom
import WorkflowEngine.Data.Cell
import WorkflowEngine.Data.PartitionVector
import WorkflowEngine.Log.Delivery
/-!
What operations do: some are answered at once, the others are programs that the scope of the
evaluation guards. Store errors become errors of the workflow.
-/
set_option autoImplicit false

namespace WorkflowEngine

/-- Where an operation is performed. -/
structure Surroundings where
  job : JobId
  worker : WorkerId
  workerCount : Nat
  registry : Registry
  settings : DataSettings
  policy : DeliveryPolicy

inductive Effect where
  | immediate (r : Except WorkflowError Value)
  | guarded (p : Program (Reply Value))

namespace Effect

def ofStore {α : Type} (encode : α → Value) (p : StoreProgram α) : Effect :=
  .guarded (p.run >>= fun
    | .ok a => pure (.ok (encode a))
    | .error e => pure (.failed e.toWorkflowError))

def ofTransaction (encode : Bool → Value) (p : ExceptT TransactFault Program Bool) : Effect :=
  .guarded (p.run >>= fun
    | .ok applied => pure (.ok (encode applied))
    | .error (.store e) => pure (.failed e.toWorkflowError)
    | .error (.failed e) => pure (.failed e)
    | .error (.aborted message) => pure (.aborted message))

/-- Whether the message is delivered makes no difference to the workflow. -/
def ofMessage (s : Surroundings) (message : String) : Effect :=
  .guarded do
    let time ← Program.now
    let _ ← s.policy.deliver ⟨s.job, s.worker, time, message⟩
    return .ok .null

def ofActivity (a : Activity) : Effect :=
  .guarded do
    Program.pause (a.millis * 1000)
    return a.reply

def failed (e : WorkflowError) : Effect := .guarded (pure (.failed e))

end Effect

namespace Operation

def effect (s : Surroundings) : Operation → Effect
  | .sleep millis => .ofActivity ⟨millis.toNat, .ok .null⟩
  | .log message => .ofMessage s message
  | .logFormat format args => .ofMessage s (formatMessage format args)
  | .workerCount => .immediate (.ok (.ofUInt64 (UInt64.ofNat s.workerCount)))
  | .processId => .immediate (.ok (.string s.job.uuid.text))
  | .workerId => .immediate (.ok (.string s.worker.name))
  | .invoke function arg =>
    match s.registry.invoke function arg with
    | .ok activity => .ofActivity activity
    | .error e => .immediate (.error e)
  | .cellNew v none => .ofStore (fun c => .ofJson c.toJson) (Cell.create s.settings v)
  | .cellNew v (some name) =>
    .ofStore (fun c => .ofJson c.toJson) (Cell.createNamed s.settings name v)
  | .cellValue c => .ofStore id (c.read Decoder.value)
  | .cellParse name => .ofStore (fun c => .ofJson c.toJson) (Cell.find s.settings name)
  | .sequenceNew items => .ofStore (fun q => .ofJson q.toJson) (Sequence.create s.settings items)
  | .sequenceItems q => .ofStore .array (q.toList Decoder.value)
  | .sequenceGet q index => .ofStore id (q.get Decoder.value index.toNat)
  | .vectorOf partitions =>
    .ofStore id (pure (.ofJson (PartitionVector.mk partitions).toJson))
  | .vectorItems v => .ofStore .array (v.toList Decoder.value)
  | .atomNew v => .ofStore (fun a => .ofJson a.toJson) (Atom.create s.settings v)
  | .atomRead a => .ofStore id (a.read Decoder.value)
  | .atomForce a v => .ofStore (fun _ => .null) (a.force v)
  | .atomSet a update =>
    match s.registry.update update with
    | .ok f => .ofTransaction (fun _ => .null)
        (a.transact Decoder.value s.settings (Atom.always f))
    | .error e => .failed e
  | .atomTransact a update =>
    match s.registry.update update with
    | .ok f => .ofTransaction .bool (a.transact Decoder.value s.settings f)
    | .error e => .failed e
  | .atomFree a => .ofStore (fun _ => .null) a.free

end Operation

end WorkflowEngine
