import WorkflowEngine.Workflow.Basic
import WorkflowEngine.Failure.Codec
/-!
The written forms of workflows and operations: records with their variant's name under a tag.
-/
set_option autoImplicit false

namespace WorkflowEngine

namespace FunctionRef

def toJson (f : FunctionRef) : Json := .object [("name", .string f.name), ("env", f.env.json)]

def layout : Layout FunctionRef :=
  Layout.pure FunctionRef.mk
    |>.required "name" Decoder.string
    |>.defaulted "env" .null Decoder.value

def decoder : Decoder FunctionRef := .record "struct FnRef" layout

end FunctionRef

namespace Operation

def valuesJson (vs : List Value) : Json := .array (vs.map Value.json)

/-- The name of an operation and its fields. -/
def parts : Operation → String × List (String × Json)
  | .sleep millis => ("sleep", [("millis", .integer millis)])
  | .log message => ("log", [("message", .string message)])
  | .logFormat format args => ("logf", [("format", .string format), ("args", valuesJson args)])
  | .workerCount => ("get_worker_count", [])
  | .processId => ("get_process_id", [])
  | .workerId => ("get_worker_id", [])
  | .invoke function arg => ("invoke", [("function", .string function), ("arg", arg.json)])
  | .cellNew value name =>
    ("cell_new", ("value", value.json) :: name.toList.map fun n => ("name", .string n))
  | .cellValue cell => ("cell_value", [("cell", cell.toJson)])
  | .cellParse name => ("cell_parse", [("name", .string name)])
  | .sequenceNew items => ("sequence_new", [("items", valuesJson items)])
  | .sequenceItems sequence => ("sequence_enumerate", [("sequence", sequence.toJson)])
  | .sequenceGet sequence index =>
    ("sequence_get", [("sequence", sequence.toJson), ("index", .integer index)])
  | .vectorOf partitions =>
    ("vector_of_partitions", [("partitions", .array (partitions.map Sequence.toJson))])
  | .vectorItems vector => ("vector_enumerate", [("vector", vector.toJson)])
  | .atomNew value => ("atom_new", [("value", value.json)])
  | .atomRead atom => ("atom_read", [("atom", atom.toJson)])
  | .atomSet atom update => ("atom_set", [("atom", atom.toJson), ("update", update.toJson)])
  | .atomForce atom value => ("atom_force", [("atom", atom.toJson), ("value", value.json)])
  | .atomTransact atom update =>
    ("atom_transact", [("atom", atom.toJson), ("update", update.toJson)])
  | .atomFree atom => ("atom_free", [("atom", atom.toJson)])

def toJson (op : Operation) : Json := .object (("op", .string op.parts.1) :: op.parts.2)

def variants : List (Variant Operation) :=
  let atom := Atom.decoder
  let update := FunctionRef.decoder
  [ .record "sleep" "ExternalOp::Sleep"
      (Layout.pure sleep |>.required "millis" (Decoder.uint64 "u64")),
    .record "log" "ExternalOp::Log" (Layout.pure log |>.required "message" Decoder.string),
    .record "logf" "ExternalOp::Logf"
      (Layout.pure logFormat |>.required "format" Decoder.string
        |>.required "args" Decoder.value.list),
    .empty "get_worker_count" workerCount,
    .empty "get_process_id" processId,
    .empty "get_worker_id" workerId,
    .record "invoke" "ExternalOp::Invoke"
      (Layout.pure invoke |>.required "function" Decoder.string |>.required "arg" Decoder.value),
    .record "cell_new" "ExternalOp::CellNew"
      (Layout.pure cellNew |>.required "value" Decoder.value
        |>.defaulted "name" none Decoder.string.optional),
    .record "cell_value" "ExternalOp::CellValue"
      (Layout.pure cellValue |>.required "cell" Cell.decoder),
    .record "cell_parse" "ExternalOp::CellParse"
      (Layout.pure cellParse |>.required "name" Decoder.string),
    .record "sequence_new" "ExternalOp::SequenceNew"
      (Layout.pure sequenceNew |>.required "items" Decoder.value.list),
    .record "sequence_enumerate" "ExternalOp::SequenceEnumerate"
      (Layout.pure sequenceItems |>.required "sequence" Sequence.decoder),
    .record "sequence_get" "ExternalOp::SequenceGet"
      (Layout.pure sequenceGet |>.required "sequence" Sequence.decoder
        |>.required "index" Decoder.count),
    .record "vector_of_partitions" "ExternalOp::VectorOfPartitions"
      (Layout.pure vectorOf |>.required "partitions" Sequence.decoder.list),
    .record "vector_enumerate" "ExternalOp::VectorEnumerate"
      (Layout.pure vectorItems |>.required "vector" PartitionVector.decoder),
    .record "atom_new" "ExternalOp::AtomNew"
      (Layout.pure atomNew |>.required "value" Decoder.value),
    .record "atom_read" "ExternalOp::AtomRead" (Layout.pure atomRead |>.required "atom" atom),
    .record "atom_set" "ExternalOp::AtomSet"
      (Layout.pure atomSet |>.required "atom" atom |>.required "update" update),
    .record "atom_force" "ExternalOp::AtomForce"
      (Layout.pure atomForce |>.required "atom" atom |>.required "value" Decoder.value),
    .record "atom_transact" "ExternalOp::AtomTransact"
      (Layout.pure atomTransact |>.required "atom" atom |>.required "update" update),
    .record "atom_free" "ExternalOp::AtomFree" (Layout.pure atomFree |>.required "atom" atom) ]

def decoder : Decoder Operation := .tagged "ExternalOp" "op" variants

end Operation

namespace Workflow

mutual
def toJson : Workflow → Json
  | .ret value => .object [("type", .string "return"), ("value", value.json)]
  | .bind body continuation =>
    .object [("type", .string "bind"), ("workflow", body.toJson),
      ("continuation", continuation.toJson)]
  | .parallel children =>
    .object [("type", .string "parallel"), ("workflows", .array (allToJson children))]
  | .choice children =>
    .object [("type", .string "choice"), ("workflows", .array (allToJson children))]
  | .perform operation =>
    .object [("type", .string "of_external_async"), ("op", operation.toJson)]
  | .tryWith body handler =>
    .object [("type", .string "try_with"), ("body", body.toJson), ("handler", handler.toJson)]
  | .raise error => .object [("type", .string "raise"), ("error", error.toJson)]

def allToJson : List Workflow → List Json
  | [] => []
  | w :: ws => w.toJson :: allToJson ws
end

def toValue (w : Workflow) : Value := .ofJson w.toJson

/-- The variants, given a decoder of the workflows inside. -/
def variants (inner : Decoder Workflow) : List (Variant Workflow) :=
  [ .record "return" "Workflow::Return" (Layout.pure ret |>.required "value" Decoder.value),
    .record "bind" "Workflow::Bind"
      (Layout.pure bind |>.required "workflow" inner
        |>.required "continuation" FunctionRef.decoder),
    .record "parallel" "Workflow::Parallel"
      (Layout.pure parallel |>.required "workflows" inner.list),
    .record "choice" "Workflow::Choice" (Layout.pure choice |>.required "workflows" inner.list),
    .record "of_external_async" "Workflow::OfExternalAsync"
      (Layout.pure perform |>.required "op" Operation.decoder),
    .record "try_with" "Workflow::TryWith"
      (Layout.pure tryWith |>.required "body" inner |>.required "handler" FunctionRef.decoder),
    .record "raise" "Workflow::Raise"
      (Layout.pure raise |>.required "error" WorkflowError.decoder) ]

/-- Decodes workflows that stand inside at most `levels` others. -/
def decoderTo : Nat → Decoder Workflow
  | 0 => fun _ _ => .error (.malformed .tooDeep)
  | levels + 1 => .tagged "Workflow" "type" (variants (decoderTo levels))

/-- A workflow inside another is inside its document too, so the depth bounds the levels. -/
def decoder : Decoder Workflow := fun source d => decoderTo (d.depth + 1) source d

def encode (w : Workflow) : String := w.toJson.text

def decode (text : String) : Except WorkflowError Workflow :=
  (decoder.ofText text).mapError .ofDecode

def decodeBytes (bytes : List UInt8) : Except WorkflowError Workflow :=
  (decoder.ofBytes bytes).mapError .ofDecode

/-- Reads a captured workflow. -/
def ofValue (v : Value) : Except WorkflowError Workflow :=
  (decoder.ofValue v).mapError .ofDecode

end Workflow

end WorkflowEngine
