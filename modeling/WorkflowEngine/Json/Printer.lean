import WorkflowEngine.Json.Basic
/-!
Texts of documents. `Json.write` prepends the compact text to what follows; `Json.pretty` breaks
non-empty containers into lines indented by two spaces.
-/
set_option autoImplicit false

namespace WorkflowEngine.Json

/-- The escape of a control character: a short one where there is one, else four digits. -/
def controlEscape (c : Char) : List Char :=
  if c = '\x08' then ['\\', 'b']
  else if c = '\t' then ['\\', 't']
  else if c = '\n' then ['\\', 'n']
  else if c = '\x0c' then ['\\', 'f']
  else if c = '\r' then ['\\', 'r']
  else ['\\', 'u', '0', '0', Nat.digitChar (c.toNat / 16), Nat.digitChar (c.toNat % 16)]

/-- Only the quote, the backslash and the characters below the space are escaped. -/
def escape (c : Char) : List Char :=
  if c = '"' then ['\\', '"']
  else if c = '\\' then ['\\', '\\']
  else if c.toNat < 0x20 then controlEscape c
  else [c]

def writeChars : List Char → List Char → List Char
  | [], rest => '"' :: rest
  | c :: cs, rest => escape c ++ writeChars cs rest

def writeString (s : String) (rest : List Char) : List Char := '"' :: writeChars s.toList rest

mutual
/-- The compact text of a document before `rest`. -/
def write : Json → List Char → List Char
  | .null, rest => 'n' :: 'u' :: 'l' :: 'l' :: rest
  | .bool true, rest => 't' :: 'r' :: 'u' :: 'e' :: rest
  | .bool false, rest => 'f' :: 'a' :: 'l' :: 's' :: 'e' :: rest
  | .number n, rest => n.text ++ rest
  | .string s, rest => writeString s rest
  | .array [], rest => '[' :: ']' :: rest
  | .array (item :: items), rest => '[' :: write item (writeItems items rest)
  | .object [], rest => '\x7b' :: '\x7d' :: rest
  | .object ((key, item) :: entries), rest =>
    '\x7b' :: writeString key (':' :: write item (writeEntries entries rest))

/-- The items after the first one and the closing bracket. -/
def writeItems : List Json → List Char → List Char
  | [], rest => ']' :: rest
  | item :: items, rest => ',' :: write item (writeItems items rest)

/-- The entries after the first one and the closing brace. -/
def writeEntries : List (String × Json) → List Char → List Char
  | [], rest => '\x7d' :: rest
  | (key, item) :: entries, rest =>
    ',' :: writeString key (':' :: write item (writeEntries entries rest))
end

def text (j : Json) : String := String.ofList (j.write [])

/-- A line break and the indentation of a level. -/
def lineAt (level : Nat) (rest : List Char) : List Char :=
  '\n' :: (List.replicate (2 * level) ' ' ++ rest)

mutual
/-- The indented text of a document at a level before `rest`. -/
def writePretty (level : Nat) : Json → List Char → List Char
  | .array (item :: items), rest =>
    '[' :: lineAt (level + 1)
      (writePretty (level + 1) item (writePrettyItems level items rest))
  | .object ((key, item) :: entries), rest =>
    '\x7b' :: lineAt (level + 1) (writeString key
      (':' :: ' ' :: writePretty (level + 1) item (writePrettyEntries level entries rest)))
  | j, rest => j.write rest

def writePrettyItems (level : Nat) : List Json → List Char → List Char
  | [], rest => lineAt level (']' :: rest)
  | item :: items, rest =>
    ',' :: lineAt (level + 1)
      (writePretty (level + 1) item (writePrettyItems level items rest))

def writePrettyEntries (level : Nat) : List (String × Json) → List Char → List Char
  | [], rest => lineAt level ('\x7d' :: rest)
  | (key, item) :: entries, rest =>
    ',' :: lineAt (level + 1) (writeString key
      (':' :: ' ' :: writePretty (level + 1) item (writePrettyEntries level entries rest)))
end

def pretty (j : Json) : String := String.ofList (j.writePretty 0 [])

end WorkflowEngine.Json
