import WorkflowEngine.Json.Draft
/-!
Drafts and documents from text. The loops are bounded by a number that falls with every call; twice
the size of the text is enough, since no more than two calls pass before a character is consumed.
-/
set_option autoImplicit false

namespace WorkflowEngine.Json

/-- A draft and what follows it, if a reader gets that far. -/
abbrev Drafted (α : Type) := α × Option (List Char)

/-- A literal after its first letter. -/
def draftLiteral (d : Draft) (letters cs : List Char) : Drafted Draft :=
  match readIdent letters cs with
  | .ok rest => (d, some rest)
  | .error cause => (.misspelt cause, none)

/-- A part that is no container. -/
def draftScalar (f : Frame) : List Char → Drafted Draft
  | [] => (.absent .openValue, none)
  | c :: rest =>
    if c = 'n' then draftLiteral .null ['u', 'l', 'l'] rest
    else if c = 't' then draftLiteral (.bool true) ['r', 'u', 'e'] rest
    else if c = 'f' then draftLiteral (.bool false) ['a', 'l', 's', 'e'] rest
    else if c = '"' then
      let (s, rest) := lexString f rest
      (.string s, rest)
    else if c = '-' ∨ c.isDigit then
      let (n, rest) := lexNumber (c :: rest)
      (.number n, rest)
    else (.absent .expectedValue, none)

mutual
/-- The part that starts here. -/
def draftPart (f : Frame) : Nat → List Char → Drafted Draft
  | 0, _ => (.absent .openValue, none)
  | fuel + 1, cs =>
    match skipBlanks cs with
    | '[' :: rest =>
      match skipBlanks rest with
      | [] => (.array [] .cutOff, none)
      | ']' :: rest => (.array [] .closed, some rest)
      | rest =>
        let ((items, ending), rest) := draftItems f fuel rest
        (.array items ending, rest)
    | '\x7b' :: rest =>
      match skipBlanks rest with
      | [] => (.object [] .cutOff, none)
      | '\x7d' :: rest => (.object [] .closed, some rest)
      | '"' :: rest =>
        let ((entries, ending), rest) := draftEntries f fuel rest
        (.object entries ending, rest)
      | _ => (.object [] .keyless, none)
    | cs => draftScalar f cs

/-- The items of an array from one on. -/
def draftItems (f : Frame) : Nat → List Char → Drafted (List Draft × Ending)
  | 0, _ => (([], .cutOff), none)
  | fuel + 1, cs =>
    match draftPart f fuel cs with
    | (d, none) => (([d], .cutOff), none)
    | (d, some rest) =>
      match skipBlanks rest with
      | [] => (([d], .cutOff), none)
      | ']' :: rest => (([d], .closed), some rest)
      | ',' :: rest =>
        match skipBlanks rest with
        | [] => (([d], .commaCutOff), none)
        | ']' :: _ => (([d], .commaClosed), none)
        | rest =>
          let ((ds, ending), rest) := draftItems f fuel rest
          ((d :: ds, ending), rest)
      | _ => (([d], .stray), none)

/-- The entries of an object from one on, after the quote that opens its key. -/
def draftEntries (f : Frame) : Nat → List Char → Drafted (List (Lexeme String × Draft) × Ending)
  | 0, _ => (([], .cutOff), none)
  | fuel + 1, cs =>
    match lexString f cs with
    | (key, none) => (([(key, .absent .openString)], .cutOff), none)
    | (key, some rest) =>
      match skipBlanks rest with
      | [] => (([(key, .absent .openObject)], .cutOff), none)
      | ':' :: rest =>
        match draftPart f fuel rest with
        | (d, none) => (([(key, d)], .cutOff), none)
        | (d, some rest) =>
          match skipBlanks rest with
          | [] => (([(key, d)], .cutOff), none)
          | '\x7d' :: rest => (([(key, d)], .closed), some rest)
          | ',' :: rest =>
            match skipBlanks rest with
            | [] => (([(key, d)], .commaCutOff), none)
            | '\x7d' :: _ => (([(key, d)], .commaClosed), none)
            | '"' :: rest =>
              let ((es, ending), rest) := draftEntries f fuel rest
              (((key, d) :: es, ending), rest)
            | _ => (([(key, d)], .keyless), none)
          | _ => (([(key, d)], .stray), none)
      | _ => (([(key, .absent .expectedColon)], .cutOff), none)
end

/-- The draft that a text starts with. -/
def Draft.ofChars (stray : Option Char) (cs : List Char) : Drafted Draft :=
  draftPart ⟨cs.length, stray⟩ (2 * cs.length + 2) cs

/-- Only blanks may follow a document. -/
def checkEnd : Option (List Char) → Except SyntaxError Unit
  | some rest => if (skipBlanks rest).isEmpty then .ok () else .error .trailingCharacters
  | none => .error .openValue

/-- Reads a whole text, with blanks around the document. -/
def read (text : String) : Except SyntaxError Json := do
  let (d, rest) := Draft.ofChars none text.toList
  let j ← d.read (some depthLimit)
  checkEnd rest
  return j

end WorkflowEngine.Json
