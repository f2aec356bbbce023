import WorkflowEngine.Decoding.Record
/-!
Decoders of alternatives: records that carry their variant's name under a tag, variants written
as a name or as an object with one entry, and variants whose tag and content are two entries.
-/
set_option autoImplicit false

namespace WorkflowEngine

open Json (Draft Lexeme Ending)

structure Variant (α : Type) where
  name : String
  content : Decoder α

namespace Variant

def names {α : Type} (variants : List (Variant α)) : List String := variants.map Variant.name

def find {α : Type} (variants : List (Variant α)) (name : String) :
    Except DecodeError (Variant α) :=
  match variants.find? (·.name == name) with
  | some variant => .ok variant
  | none => .error (.unknownVariant name (names variants))

def record {α : Type} (name title : String) (layout : Layout α) : Variant α :=
  ⟨name, Decoder.record ("struct variant " ++ title) layout⟩

/-- A tagged record without fields; entries of other names are passed over. -/
def empty {α : Type} (name : String) (a : α) : Variant α :=
  ⟨name, fun source d =>
    match d with
    | .array xs ending => (checkSurplus source 0 xs.length ending).map fun _ => a
    | _ => .ok a⟩

end Variant

namespace Decoder

/-- The name of a variant. Kept parts may also give its index. -/
def variantName {α : Type} (variants : List (Variant α)) : Decoder (Variant α)
  | _, .string s => do Variant.find variants (← ofReading s.read)
  | .kept, .number n => do
    match ← ofReading n.read with
    | .float _ => mismatch (.number n) "variant identifier"
    | .integer i _ =>
      if i < 0 then mismatch (.number n) "variant identifier"
      else match variants[i.toNat]? with
        | some variant => return variant
        | none => throw (.wrongValue (.integer i)
            ("variant index 0 <= i < " ++ toString variants.length))
  | _, d => mismatch d "variant identifier"

/-- The value under a tag, which counts as soon as it is met, and the other entries, which are
kept. -/
def takeTag {α : Type} (tag : String) (d : Decoder α) (source : Source) :
    Option α → Entries → Except DecodeError (Option α × Entries)
  | found, [] => .ok (found, [])
  | found, (key, j) :: rest => do
    if (← ofReading key.read) = tag then
      match found with
      | some _ => throw (.duplicateField tag)
      | none =>
        let a ← d source j
        takeTag tag d source (some a) rest
    else
      source.keep j
      let (found, others) ← takeTag tag d source found rest
      return (found, (key, j) :: others)

/-- Keeps items up to the first fault. -/
def keepItems (source : Source) : List Draft → Except DecodeError Unit
  | [] => .ok ()
  | d :: rest => do
    source.keep d
    keepItems source rest

/-- A record that has the name of its variant under a tag, or as its first item. -/
def tagged {α : Type} (title tag : String) (variants : List (Variant α)) : Decoder α :=
  fun source d =>
    match d with
    | .object es ending => do
      let inner ← source.inside
      let (found, others) ← takeTag tag (variantName variants) inner none es
      checkEnding ending.objectFault?
      match found with
      | some variant => variant.content .kept (.object others .closed)
      | none => throw (.missingField tag)
    | .array [] ending => do
      let _ ← source.inside
      checkEnding ending.listFault?
      throw (.missingField tag)
    | .array (x :: xs) ending => do
      let inner ← source.inside
      let variant ← variantName variants inner x
      keepItems inner xs
      checkEnding ending.listFault?
      variant.content .kept (.array xs .closed)
    | d => mismatch d ("internally tagged enum " ++ title)

/-- What a variant written by its name alone stands for. -/
inductive Content (α : Type) where
  | unit (a : α)
  | part (d : Decoder α)

namespace Content

def alone {α : Type} : Content α → Except DecodeError α
  | .unit a => .ok a
  | .part _ => .error (.wrongType .unitVariant "newtype variant")

def decoder {α : Type} : Content α → Decoder α
  | .unit a => Decoder.unit.map fun _ => a
  | .part d => d

end Content

def findContent {α : Type} (variants : List (String × Content α)) (name : String) :
    Except DecodeError (Content α) :=
  match variants.lookup name with
  | some content => .ok content
  | none => .error (.unknownVariant name (variants.map Prod.fst))

/-- What is wrong with an object in a text that has no first entry. -/
def withoutEntry : Ending → Json.SyntaxError
  | .closed => .expectedValue
  | .cutOff => .openValue
  | _ => .keyNotString

/-- The object of a variant in a text ends after its only entry. -/
def checkSingle (more : Entries) (ending : Ending) : Except DecodeError Unit :=
  match more, ending with
  | [], .closed => .ok ()
  | [], .cutOff => .error (.malformed .openObject)
  | _, _ => .error (.malformed .expectedValue)

/-- A variant written as its name, or as an object with its name and its content as the only
entry. -/
def alternative {α : Type} (variants : List (String × Content α)) : Decoder α
  | _, .string s => do (← findContent variants (← ofReading s.read)).alone
  | .text levels, .object es ending => do
    let inner ← Source.inside (.text levels)
    match es with
    | [] => throw (.malformed (withoutEntry ending))
    | (key, j) :: more =>
      let content ← findContent variants (← ofReading key.read)
      let a ← content.decoder inner j
      checkSingle more ending
      return a
  | .text _, .absent cause => .error (.malformed cause)
  | .text _, _ => .error (.malformed .expectedValue)
  | source, .object [(key, j)] _ => do
    let content ← findContent variants (← ofReading key.read)
    content.decoder source j
  | _, .object _ _ => .error (.wrongValue .map "map with a single key")
  | _, d => mismatch d "string or map"

def named {α : Type} (variants : List (String × α)) : Decoder α :=
  alternative (variants.map fun (name, a) => (name, .unit a))

/-- The value of null, where a variant has no content. -/
def emptyContent {α : Type} (title : String) (a : α) : Decoder α
  | _, .null => .ok a
  | _, d => mismatch d ("unit variant " ++ title)

end Decoder

/-- A variant whose name and content are two entries. -/
structure SplitVariant (α : Type) where
  content : Decoder α
  absent : Option α

structure SplitKeys where
  tag : String
  content : String

namespace SplitKeys

/-- The next entry with one of the keys, true for the tag, its value and the entries after it. Other
entries are passed over. -/
def next (keys : SplitKeys) (ending : Ending) :
    Entries → Except DecodeError (Option (Bool × Draft × Entries))
  | [] => (checkEnding ending.objectFault?).map fun _ => none
  | (key, d) :: rest => do
    let name ← ofReading key.read
    if name = keys.tag then return some (true, d, rest)
    else if name = keys.content then return some (false, d, rest)
    else
      checkEnding d.skipFault?
      keys.next ending rest

def duplicate (keys : SplitKeys) (isTag : Bool) : DecodeError :=
  .duplicateField (if isTag then keys.tag else keys.content)

/-- Neither key may follow once both were met. -/
def close {α : Type} (keys : SplitKeys) (ending : Ending) (a : α) (es : Entries) :
    Except DecodeError α := do
  match ← keys.next ending es with
  | none => return a
  | some (isTag, _) => throw (keys.duplicate isTag)

/-- Reads tag and content in either order. Content that comes first is kept until the tag is
known. -/
def decode {α : Type} (keys : SplitKeys) (variants : Decoder (SplitVariant α)) (source : Source)
    (ending : Ending) (es : Entries) : Except DecodeError α := do
  match ← keys.next ending es with
  | none => throw (.missingField keys.tag)
  | some (true, d, rest) =>
    let variant ← variants source d
    match ← keys.next ending rest with
    | none =>
      match variant.absent with
      | some a => return a
      | none => throw (.missingField keys.content)
    | some (true, _) => throw (keys.duplicate true)
    | some (false, d, rest) =>
      let a ← variant.content source d
      keys.close ending a rest
  | some (false, held, rest) =>
    source.keep held
    match ← keys.next ending rest with
    | none => throw (.missingField keys.tag)
    | some (false, _) => throw (keys.duplicate false)
    | some (true, d, rest) =>
      let variant ← variants source d
      let a ← variant.content .kept held
      keys.close ending a rest

end SplitKeys

namespace Decoder

/-- A variant with its name under one key and its content under another, or the two as the items
of an array. -/
def split {α : Type} (title : String) (keys : SplitKeys) (variants : Decoder (SplitVariant α)) :
    Decoder α :=
  fun source d =>
    let described := "adjacently tagged enum " ++ title
    match d with
    | .object es ending => do keys.decode variants (← source.inside) ending es
    | .array xs ending => do
      let inner ← source.inside
      match xs with
      | [] =>
        checkEnding ending.listFault?
        throw (.wrongLength 0 described)
      | x :: more =>
        let variant ← variants inner x
        match more with
        | [] =>
          checkEnding ending.listFault?
          throw (.wrongLength 1 described)
        | y :: _ =>
          let a ← variant.content inner y
          checkSurplus source 2 xs.length ending
          return a
    | d => mismatch d described

end Decoder

end WorkflowEngine
