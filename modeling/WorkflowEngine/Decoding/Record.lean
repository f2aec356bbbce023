import WorkflowEngine.Decoding.Basic
/-!
Decoders of records. A record is written as an object with an entry for each field, in any
order and among others, or as an array of its fields in their order. Of several faults the one
that stands first is reported; fields that are missing come after all entries.
-/
set_option autoImplicit false

namespace WorkflowEngine

open Json (Draft Lexeme Ending)

/-- The entries of an object in a text. -/
abbrev Entries := List (Lexeme String × Draft)

/-- What the fields of a record are read from. -/
inductive Members where
  | entries (es : Entries)
  | items (xs : List Draft) (ending : Ending)

/-- A result, or a fault with the place where it was met. The key of the entry with number `n` is at
`2 * n`, its value at the place after that. -/
abbrev Placed (α : Type) := Except (Nat × DecodeError) α

/-- Of two faults the one met first counts. -/
def Placed.both {α β : Type} : Placed (α → β) → Placed α → Placed β
  | .ok f, .ok a => .ok (f a)
  | .error e, .ok _ => .error e
  | .ok _, .error e => .error e
  | .error e, .error e' => if e'.1 < e.1 then .error e' else .error e

/-- Adds the place to a fault. -/
def Placed.at {α : Type} (place : Nat) : Except DecodeError α → Placed α
  | .ok a => .ok a
  | .error e => .error (place, e)

/-- What a field is when it is not written. -/
inductive Absence (α : Type) where
  | required
  | optional (value : α)
  | defaulted (value : α)

/-- An optional field may be missing from an object, a defaulted one also from an array. -/
def Absence.inObject? {α : Type} : Absence α → Option α
  | .required => none
  | .optional a | .defaulted a => some a

def Absence.inArray? {α : Type} : Absence α → Option α
  | .required | .optional _ => none
  | .defaulted a => some a

/-- Whether a key is a name. -/
def isKey (key : Lexeme String) (name : String) : Bool :=
  match key.read with
  | .ok other => other == name
  | .error _ => false

/-- The first entry with a key: its number, its value and the entries after it. -/
def firstEntry (key : String) : Nat → Entries → Option (Nat × Draft × Entries)
  | _, [] => none
  | n, (name, d) :: rest => if isKey name key then some (n, d, rest) else firstEntry key (n + 1) rest

/-- The first fault of an object apart from those of its fields' values: keys have to be strings,
other values than those of the given keys have to be well formed, and the object has to end. -/
def checkEntries (names : List String) (ending : Ending) : Nat → Entries → Placed Unit
  | n, [] => Placed.at (2 * n) (checkEnding ending.objectFault?)
  | n, (key, d) :: rest => do
    let name ← Placed.at (2 * n) (ofReading key.read)
    if !names.contains name then Placed.at (2 * n + 1) (checkEnding d.skipFault?)
    checkEntries names ending (n + 1) rest

/-- How the fields of a record are read, given the source, the description of the record and
the number of fields before them. -/
structure Layout (α : Type) where
  names : List String
  read : Source → String → Nat → Members → Placed α

namespace Layout

def width {α : Type} (layout : Layout α) : Nat := layout.names.length

def pure {α : Type} (a : α) : Layout α := ⟨[], fun _ _ _ _ => .ok a⟩

def readEntry {α : Type} (name : String) (absence : Absence α) (d : Decoder α) (source : Source)
    (es : Entries) : Placed α :=
  match firstEntry name 0 es with
  | none =>
    match absence.inObject? with
    | some a => .ok a
    | none => .error (2 * es.length + 1, .missingField name)
  | some (n, j, rest) => do
    let a ← Placed.at (2 * n + 1) (d source j)
    match firstEntry name (n + 1) rest with
    | none => return a
    | some (again, _) => throw (2 * again, .duplicateField name)

def readItem {α : Type} (absence : Absence α) (d : Decoder α) (source : Source)
    (described : String) (index : Nat) (xs : List Draft) (ending : Ending) : Placed α :=
  match xs[index]? with
  | some j => Placed.at index (d source j)
  | none => do
    Placed.at xs.length (checkEnding ending.listFault?)
    match absence.inArray? with
    | some a => return a
    | none => throw (index, .wrongLength index described)

def field {α : Type} (name : String) (absence : Absence α) (d : Decoder α) : Layout α where
  names := [name]
  read source described index
    | .entries es => readEntry name absence d source es
    | .items xs ending => readItem absence d source described index xs ending

/-- The fields of two layouts, one after the other. -/
def seq {α β : Type} (f : Layout (α → β)) (x : Layout α) : Layout β where
  names := f.names ++ x.names
  read source described index members :=
    Placed.both (f.read source described index members)
      (x.read source described (index + f.width) members)

/-- Adds a field that has to be written. -/
def required {α β : Type} (f : Layout (α → β)) (name : String) (d : Decoder α) : Layout β :=
  f.seq (field name .required d)

/-- Adds a field that an object may leave out. -/
def optional {α β : Type} (f : Layout (Option α → β)) (name : String) (d : Decoder α) :
    Layout β :=
  f.seq (field name (.optional none) d.optional)

/-- Adds a field with a default. -/
def defaulted {α β : Type} (f : Layout (α → β)) (name : String) (default : α) (d : Decoder α) :
    Layout β :=
  f.seq (field name (.defaulted default) d)

end Layout

/-- What comes after the first `used` of `total` items. Files of settings may have more. -/
def checkSurplus (source : Source) (used total : Nat) (ending : Ending) :
    Except DecodeError Unit :=
  if total ≤ used then checkEnding ending.surplusFault?
  else
    match source with
    | .text _ => .error (.malformed .trailingCharacters)
    | .kept => .error (.wrongLength total (countOf used "element" ++ " in sequence"))
    | .memory => .error (.wrongLength total "fewer elements in array")
    | .settings => .ok ()

namespace Decoder

/-- A record by its layout; `title` names it when something else is found. -/
def record {α : Type} (title : String) (layout : Layout α) : Decoder α := fun source j =>
  let described := title ++ " with " ++ countOf layout.width "element"
  match j with
  | .object es ending => do
    let inner ← source.inside
    let form := checkEntries layout.names ending 0 es
    let fields := layout.read inner described 0 (.entries es)
    (Placed.both (form.map fun _ => id) fields).mapError Prod.snd
  | .array xs ending => do
    let inner ← source.inside
    let a ← (layout.read inner described 0 (.items xs ending)).mapError Prod.snd
    checkSurplus source layout.width xs.length ending
    return a
  | _ => mismatch j title

end Decoder

end WorkflowEngine
