import WorkflowEngine.Failure.Basic
import WorkflowEngine.Decoding.Variant
/-!
The written forms of errors, faults and outcomes. An outcome crosses the transport as text; a
reply that is no outcome counts as a serialization error.
-/
set_option autoImplicit false

namespace WorkflowEngine

namespace ErrorKind

def toJson : ErrorKind → Json
  | .user tag => .object [("user", .string tag)]
  | kind => .string kind.text

def decoder : Decoder ErrorKind :=
  .alternative [
    ("evaluation", .unit .evaluation),
    ("store", .unit .store),
    ("not_found", .unit .notFound),
    ("unknown_function", .unit .unknownFunction),
    ("serialization", .unit .serialization),
    ("transport", .unit .transport),
    ("user", .part (Decoder.string.map .user))]

end ErrorKind

namespace WorkflowError

/-- An absent payload is left out. -/
def toJson (e : WorkflowError) : Json :=
  .object ([("kind", e.kind.toJson), ("message", .string e.message)] ++
    e.payload.toList.map fun v => ("payload", v.json))

def layout : Layout WorkflowError :=
  Layout.pure WorkflowError.mk
    |>.required "kind" ErrorKind.decoder
    |>.required "message" Decoder.string
    |>.defaulted "payload" none Decoder.value.optional

def decoder : Decoder WorkflowError := .record "struct WorkflowError" layout

def toValue (e : WorkflowError) : Value := .ofJson e.toJson

/-- The error for a text or value that does not decode. -/
def ofDecode (e : DecodeError) : WorkflowError := serialization e.message

end WorkflowError

namespace Fault

def toJson : Fault → Json
  | .error e => .object [("fault", .string "error"), ("error", e.toJson)]
  | .cancelled => .object [("fault", .string "cancelled")]

def variants : Decoder (SplitVariant Fault) :=
  .named [
    ("error", ⟨WorkflowError.decoder.map .error, none⟩),
    ("cancelled", ⟨.emptyContent "Fault::Cancelled" .cancelled, some .cancelled⟩)]

def decoder : Decoder Fault := .split "Fault" ⟨"fault", "error"⟩ variants

end Fault

namespace Outcome

def toJson : Outcome → Json
  | .ok v => .object [("Ok", v.json)]
  | .error f => .object [("Err", f.toJson)]

def encode (o : Outcome) : String := o.toJson.text

def decoder : Decoder Outcome :=
  .alternative [("Ok", .part (Decoder.value.map .ok)), ("Err", .part (Fault.decoder.map .error))]

def decode (text : String) : Outcome :=
  match decoder.ofText text with
  | .ok o => o
  | .error e => .error (.error (.ofDecode e))

end Outcome

end WorkflowEngine
