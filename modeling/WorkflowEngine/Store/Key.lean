import WorkflowEngine.Decoding.Record
/-!
Keys of store entries.
-/
set_option autoImplicit false

namespace WorkflowEngine

/-- A name within a container. -/
structure Key where
  container : String
  name : String
  deriving DecidableEq

namespace Key

def child (k : Key) (name : String) : Key := { k with name := k.name ++ "/" ++ name }

/-- Container and name with a slash between them. Different keys may have one text. -/
def text (k : Key) : String := k.container ++ "/" ++ k.name

def toJson (k : Key) : Json :=
  .object [("container", .string k.container), ("name", .string k.name)]

def layout : Layout Key :=
  Layout.pure Key.mk |>.required "container" Decoder.string |>.required "name" Decoder.string

def decoder : Decoder Key := .record "struct StoreKey" layout

end Key

end WorkflowEngine
