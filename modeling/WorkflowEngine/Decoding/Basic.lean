import WorkflowEngine.Decoding.Error
import WorkflowEngine.Json.Value
import WorkflowEngine.Text.Lossy
/-!
Decoders of single values and lists. They take a draft apart in the order of its text, so that of
several faults the first one is reported. A decoder knows where its document comes from, because
limits, surplus items and variants differ between the sources.
-/
set_option autoImplicit false

namespace WorkflowEngine

open Json (Draft Lexeme Ending Room SyntaxError)

/-- Where a document comes from: a text that is being read, in which so many more containers may be
opened, the parts of a tagged value that were kept until its tag was known, a value in memory, or a
file of settings. Only a text has faults of its own. -/
inductive Source where
  | text (levels : Nat)
  | kept
  | memory
  | settings
  deriving DecidableEq, Repr

def ofReading {α : Type} (r : Except SyntaxError α) : Except DecodeError α := r.mapError .malformed

namespace Source

def room : Source → Room
  | .text levels => some levels
  | _ => none

def inside : Source → Except DecodeError Source
  | .text 0 => .error (.malformed .tooDeep)
  | .text (levels + 1) => .ok (.text levels)
  | source => .ok source

/-- Parts of a text are read before they are kept. -/
def keep (source : Source) (d : Draft) : Except DecodeError Unit :=
  match source with
  | .text _ => (ofReading (d.read source.room)).map fun _ => ()
  | _ => .ok ()

end Source

def checkEnding (fault : Option SyntaxError) : Except DecodeError Unit :=
  ofReading (Json.raise? fault)

abbrev Decoder (α : Type) := Source → Draft → Except DecodeError α

namespace Decoder

def map {α β : Type} (f : α → β) (d : Decoder α) : Decoder β := fun source j => (d source j).map f

def refine {α β : Type} (d : Decoder α) (check : α → Except String β) : Decoder β :=
  fun source j => do
    match check (← d source j) with
    | .ok b => return b
    | .error reason => throw (.rejected reason)

/-- What is found is named only if it could be read; a container is refused as soon as it opens. -/
def mismatch {α : Type} (d : Draft) (expected : String) : Except DecodeError α := do
  throw (.wrongType (← ofReading (Found.ofDraft d)) expected)

def value : Decoder Value := fun source d => ofReading ((d.read source.room).map .ofJson)

def string : Decoder String
  | _, .string s => ofReading s.read
  | _, d => mismatch d "a string"

def bool : Decoder Bool
  | _, .bool b => .ok b
  | _, d => mismatch d "a boolean"

/-- Unit is null; kept parts may also write it as an object without entries. Files of settings have
no null and write an empty container. -/
def unit : Decoder Unit
  | .settings, .object [] _ | .settings, .array [] _ => .ok ()
  | .settings, d => mismatch d "unit"
  | _, .null => .ok ()
  | .kept, .object [] _ => .ok ()
  | _, d => mismatch d "unit"

/-- An integer from `low` up to, not including, `high`. -/
def integer (low high : Int) (expected : String) : Decoder Int
  | _, .number n => do
    match ← ofReading n.read with
    | .integer i _ =>
      if low ≤ i ∧ i < high then return i else throw (.wrongValue (.integer i) expected)
    | .float _ => mismatch (.number n) expected
  | _, d => mismatch d expected

def uint64 (expected : String) : Decoder UInt64 :=
  (integer 0 0x10000000000000000 expected).map fun i => UInt64.ofNat i.toNat

/-- A count that fits 64 bits. -/
def count : Decoder UInt64 := uint64 "usize"

def int64 : Decoder Int := integer (-0x8000000000000000) 0x8000000000000000 "i64"

def uint8 : Decoder UInt8 := (integer 0 0x100 "u8").map fun i => UInt8.ofNat i.toNat

def uint32 : Decoder UInt32 := (integer 0 0x100000000 "u32").map fun i => UInt32.ofNat i.toNat

def optional {α : Type} (d : Decoder α) : Decoder (Option α)
  | _, .null => .ok none
  | source, j => (d source j).map some

def items {α : Type} (d : Decoder α) (source : Source) : List Draft → Except DecodeError (List α)
  | [] => .ok []
  | j :: rest => do return (← d source j) :: (← items d source rest)

def list {α : Type} (d : Decoder α) : Decoder (List α)
  | source, .array xs ending => do
    let as ← items d (← source.inside) xs
    checkEnding ending.listFault?
    return as
  | _, j => mismatch j "a sequence"

/-- Decodes the document that a text starts with. Only blanks may follow it; what else follows is
reported after the document's own faults. -/
def ofChars {α : Type} (d : Decoder α) (stray : Option Char) (cs : List Char) :
    Except DecodeError α := do
  let (draft, rest) := Draft.ofChars stray cs
  let a ← d (.text Json.depthLimit) draft
  ofReading (Json.checkEnd rest)
  return a

def ofText {α : Type} (d : Decoder α) (text : String) : Except DecodeError α :=
  d.ofChars none text.toList

/-- Decodes a text given as bytes. Bytes that are no character may stand in strings that are passed
over. -/
def ofBytes {α : Type} (d : Decoder α) (bytes : List UInt8) : Except DecodeError α :=
  match String.fromUTF8? ⟨bytes.toArray⟩ with
  | some text => d.ofText text
  | none =>
    let (mark, cs) := Text.decodeMarked bytes
    d.ofChars (some mark) cs

def ofJson {α : Type} (d : Decoder α) (j : Json) : Except DecodeError α := d .memory (.ofJson j)

def ofValue {α : Type} (d : Decoder α) (v : Value) : Except DecodeError α := d.ofJson v.json

end Decoder

end WorkflowEngine
