import WorkflowEngine.Json.Basic
import WorkflowEngine.Json.Lexeme
/-!
Drafts: documents as they stand in a text that may break off or be wrong at any place. A draft goes
as far as a reader can that passes over everything; each of its faults is at the place where a
reader meets it. Hence whoever takes a draft apart in the order of the text reports the first fault
on the way, be it one of the text or one of the content, and no fault in a part that it has no use
for, except one of form.
-/
set_option autoImplicit false

namespace WorkflowEngine.Json

/-- What stands after the last part of a container: its bracket, the end of the text, a comma with
the bracket or the end of the text behind it, something else, or something that is no key where one
has to stand. -/
inductive Ending where
  | closed
  | cutOff
  | commaClosed
  | commaCutOff
  | stray
  | keyless
  deriving DecidableEq, Repr

namespace Ending

/-- The fault for a reader that wants the next item of a list. -/
def listFault? : Ending → Option SyntaxError
  | .closed => none
  | .cutOff => some .openList
  | .commaClosed => some .trailingComma
  | .commaCutOff => some .openValue
  | .stray | .keyless => some .expectedListEnd

/-- The fault for a reader that wants the next entry of an object. -/
def objectFault? : Ending → Option SyntaxError
  | .closed => none
  | .cutOff => some .openObject
  | .commaClosed => some .trailingComma
  | .commaCutOff => some .openValue
  | .stray => some .expectedObjectEnd
  | .keyless => some .keyNotString

/-- The fault when a list is passed over. -/
def skippedListFault? : Ending → Option SyntaxError
  | .commaClosed => some .expectedValue
  | ending => ending.listFault?

/-- The fault when an object is passed over. -/
def skippedObjectFault? : Ending → Option SyntaxError
  | .commaClosed => some .keyNotString
  | .commaCutOff => some .openObject
  | ending => ending.objectFault?

/-- The fault for a reader of a list that wants no further item. -/
def surplusFault? : Ending → Option SyntaxError
  | .closed => none
  | .cutOff => some .openList
  | .commaClosed => some .trailingComma
  | .commaCutOff | .stray | .keyless => some .trailingCharacters

end Ending

/-- A document in a text. Where no value starts, or a literal is misspelt, nothing follows. -/
inductive Draft where
  | absent (cause : SyntaxError)
  | misspelt (cause : SyntaxError)
  | null
  | bool (b : Bool)
  | number (n : Lexeme Number)
  | string (s : Lexeme String)
  | array (items : List Draft) (ending : Ending)
  | object (entries : List (Lexeme String × Draft)) (ending : Ending)

/-- How many containers may still be opened, if there is a limit. -/
abbrev Room := Option Nat

def Room.inside : Room → Except SyntaxError Room
  | none => .ok none
  | some 0 => .error .tooDeep
  | some (levels + 1) => .ok (some levels)

/-- The most containers that may be nested. -/
def depthLimit : Nat := 127

def raise? : Option SyntaxError → Except SyntaxError Unit
  | none => .ok ()
  | some cause => .error cause

namespace Draft

mutual
/-- The fault when a part is passed over. -/
def skipFault? : Draft → Option SyntaxError
  | .absent cause | .misspelt cause => some cause
  | .null | .bool _ => none
  | .number n => n.skipFault?
  | .string s => s.skipFault?
  | .array items ending => (itemsSkipFault? items).or ending.skippedListFault?
  | .object entries ending => (entriesSkipFault? entries).or ending.skippedObjectFault?

def itemsSkipFault? : List Draft → Option SyntaxError
  | [] => none
  | d :: rest => d.skipFault?.or (itemsSkipFault? rest)

def entriesSkipFault? : List (Lexeme String × Draft) → Option SyntaxError
  | [] => none
  | (key, d) :: rest => (key.skipFault?.or d.skipFault?).or (entriesSkipFault? rest)
end

mutual
def read (room : Room) : Draft → Except SyntaxError Json
  | .absent cause | .misspelt cause => .error cause
  | .null => .ok .null
  | .bool b => .ok (.bool b)
  | .number n => n.read.map .number
  | .string s => s.read.map .string
  | .array items ending => do
    let xs ← readItems (← room.inside) items
    raise? ending.listFault?
    return .array xs
  | .object entries ending => do
    let es ← readEntries (← room.inside) entries
    raise? ending.objectFault?
    return .object es

def readItems (room : Room) : List Draft → Except SyntaxError (List Json)
  | [] => .ok []
  | d :: rest => do
    let j ← d.read room
    return j :: (← readItems room rest)

def readEntries (room : Room) :
    List (Lexeme String × Draft) → Except SyntaxError (List (String × Json))
  | [] => .ok []
  | (key, d) :: rest => do
    let name ← key.read
    let j ← d.read room
    return (name, j) :: (← readEntries room rest)
end

mutual
def ofJson : Json → Draft
  | .null => .null
  | .bool b => .bool b
  | .number n => .number (.of n)
  | .string s => .string (.of s)
  | .array items => .array (ofItems items) .closed
  | .object entries => .object (ofEntries entries) .closed

def ofItems : List Json → List Draft
  | [] => []
  | j :: rest => ofJson j :: ofItems rest

def ofEntries : List (String × Json) → List (Lexeme String × Draft)
  | [] => []
  | (key, j) :: rest => (.of key, ofJson j) :: ofEntries rest
end

mutual
/-- The number of containers around the innermost part. -/
def depth : Draft → Nat
  | .array items _ => depthItems items + 1
  | .object entries _ => depthEntries entries + 1
  | _ => 0

def depthItems : List Draft → Nat
  | [] => 0
  | d :: rest => max d.depth (depthItems rest)

def depthEntries : List (Lexeme String × Draft) → Nat
  | [] => 0
  | (_, d) :: rest => max d.depth (depthEntries rest)
end

mutual
/-- Reading gives back the document that a draft was made of, if there is room for it. -/
theorem read_ofJson : (j : Json) → (ofJson j).read none = .ok j
  | .null | .bool _ | .number _ | .string _ => rfl
  | .array items => by
    simp [ofJson, read, Room.inside, readItems_ofItems items, Ending.listFault?, raise?, bind,
      Except.bind, pure, Except.pure]
  | .object entries => by
    simp [ofJson, read, Room.inside, readEntries_ofEntries entries, Ending.objectFault?, raise?,
      bind, Except.bind, pure, Except.pure]

theorem readItems_ofItems : (items : List Json) → readItems none (ofItems items) = .ok items
  | [] => rfl
  | j :: rest => by
    simp [ofItems, readItems, read_ofJson j, readItems_ofItems rest, bind, Except.bind, pure,
      Except.pure]

theorem readEntries_ofEntries : (entries : List (String × Json)) →
    readEntries none (ofEntries entries) = .ok entries
  | [] => rfl
  | (key, j) :: rest => by
    simp [ofEntries, readEntries, Lexeme.of, read_ofJson j, readEntries_ofEntries rest, bind,
      Except.bind, pure, Except.pure]
end

end Draft

end WorkflowEngine.Json
