import WorkflowEngine.Json.Reader
import WorkflowEngine.Text.Quoted
/-!
Why a document is not what a decoder expects, and the texts of the causes.
-/
set_option autoImplicit false

namespace WorkflowEngine

/-- What stands where something else was expected. -/
inductive Found where
  | null
  | bool (b : Bool)
  | integer (i : Int)
  | float (x : Double)
  | string (s : String)
  | sequence
  | map
  | unitVariant

namespace Found

def ofNumber : Number → Found
  | .integer i _ => .integer i
  | .float x => .float x

/-- What stands in a text. Nothing is read of a container. -/
def ofDraft : Json.Draft → Except Json.SyntaxError Found
  | .absent cause | .misspelt cause => .error cause
  | .null => .ok .null
  | .bool b => .ok (.bool b)
  | .number n => n.read.map ofNumber
  | .string s => s.read.map .string
  | .array _ _ => .ok .sequence
  | .object _ _ => .ok .map

def text : Found → String
  | .null => "null"
  | .bool b => "boolean `" ++ (if b then "true" else "false") ++ "`"
  | .integer i => "integer `" ++ String.ofList (Number.intText i) ++ "`"
  | .float x => "floating point `" ++ String.ofList x.text ++ "`"
  | .string s => "string " ++ Text.quoted s
  | .sequence => "sequence"
  | .map => "map"
  | .unitVariant => "unit variant"

end Found

inductive DecodeError where
  | malformed (cause : Json.SyntaxError)
  | wrongType (found : Found) (expected : String)
  | wrongValue (found : Found) (expected : String)
  | wrongLength (length : Nat) (expected : String)
  | unknownVariant (name : String) (variants : List String)
  | missingField (name : String)
  | duplicateField (name : String)
  | rejected (reason : String)

namespace DecodeError

def inQuotes (name : String) : String := "`" ++ name ++ "`"

/-- The names a variant may have. -/
def choices : List String → String
  | [] => "there are no variants"
  | [name] => "expected " ++ inQuotes name
  | [first, second] => "expected " ++ inQuotes first ++ " or " ++ inQuotes second
  | names => "expected one of " ++ String.intercalate ", " (names.map inQuotes)

def message : DecodeError → String
  | .malformed cause => cause.message
  | .wrongType found expected => "invalid type: " ++ found.text ++ ", expected " ++ expected
  | .wrongValue found expected => "invalid value: " ++ found.text ++ ", expected " ++ expected
  | .wrongLength length expected =>
    "invalid length " ++ toString length ++ ", expected " ++ expected
  | .unknownVariant name variants =>
    "unknown variant " ++ inQuotes name ++ ", " ++ choices variants
  | .missingField name => "missing field " ++ inQuotes name
  | .duplicateField name => "duplicate field " ++ inQuotes name
  | .rejected reason => reason

/-- Whether the text was no document of the expected shape at all. -/
def isSyntax : DecodeError → Bool
  | .malformed _ => true
  | _ => false

end DecodeError

/-- A number with a noun, which takes an `s` unless the number is one. -/
def countOf (n : Nat) (noun : String) : String :=
  toString n ++ " " ++ noun ++ (if n = 1 then "" else "s")

end WorkflowEngine
