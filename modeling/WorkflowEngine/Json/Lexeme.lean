import WorkflowEngine.Json.SyntaxError
import WorkflowEngine.Number.Reader
/-!
Strings, numbers and literals as they stand in a text. A part may be read for its value or only be
passed over; passing over looks at the form alone, so it accepts numbers that no double is near and
halves of surrogate pairs. What it refuses has no value either.
-/
set_option autoImplicit false

namespace WorkflowEngine.Json

/-- What a part is read as, and the fault met when it is passed over. -/
structure Lexeme (α : Type) where
  read : Except SyntaxError α
  skipFault? : Option SyntaxError

/-- The part that a value is written as. -/
def Lexeme.of {α : Type} (a : α) : Lexeme α := ⟨.ok a, none⟩

/-- What is known of a text as a whole: its size, which bounds the loops over it, and the character
that stands in it for bytes that are no character. -/
structure Frame where
  size : Nat
  stray : Option Char

def isBlank (c : Char) : Bool := c == ' ' || c == '\n' || c == '\t' || c == '\r'

def skipBlanks (cs : List Char) : List Char := cs.dropWhile isBlank

def hexValue? (c : Char) : Option Nat :=
  if c.isDigit then some (c.toNat - '0'.toNat)
  else if 'a' ≤ c ∧ c ≤ 'f' then some (c.toNat - 'a'.toNat + 10)
  else if 'A' ≤ c ∧ c ≤ 'F' then some (c.toNat - 'A'.toNat + 10)
  else none

/-- The bytes that characters take. -/
def byteCount (cs : List Char) : Nat := cs.foldl (fun n c => n + c.utf8Size) 0

/-- Four digits of an escape. The text ends inside the escape only if fewer than four bytes are
left. -/
def readHex : List Char → Except SyntaxError (Nat × List Char)
  | a :: b :: c :: d :: rest =>
    match hexValue? a, hexValue? b, hexValue? c, hexValue? d with
    | some a, some b, some c, some d => .ok (((a * 16 + b) * 16 + c) * 16 + d, rest)
    | _, _, _, _ => .error .invalidEscape
  | cs => .error (if byteCount cs < 4 then .openString else .invalidEscape)

def isLeading (n : Nat) : Bool := 0xD800 ≤ n && n < 0xDC00

def isTrailing (n : Nat) : Bool := 0xDC00 ≤ n && n < 0xE000

/-- The second half of a pair of escapes. -/
def readTrailing (leading : Nat) : List Char → Except SyntaxError (Char × List Char)
  | [] => .error .openString
  | '\\' :: [] => .error .openString
  | '\\' :: 'u' :: rest => do
    let (trailing, rest) ← readHex rest
    if isTrailing trailing then
      return (Char.ofNat (0x10000 + (leading - 0xD800) * 0x400 + (trailing - 0xDC00)), rest)
    else throw .loneSurrogate
  | _ => .error .shortEscape

/-- A character by its code; codes above the basic plane come as a pair. -/
def readUnicode (cs : List Char) : Except SyntaxError (Char × List Char) := do
  let (code, rest) ← readHex cs
  if isTrailing code then throw .loneSurrogate
  else if isLeading code then readTrailing code rest
  else return (Char.ofNat code, rest)

/-- The character that a letter stands for after a backslash. -/
def shortEscape? (c : Char) : Option Char :=
  if c = '"' ∨ c = '\\' ∨ c = '/' then some c
  else if c = 'b' then some '\x08'
  else if c = 'f' then some '\x0c'
  else if c = 'n' then some '\n'
  else if c = 'r' then some '\r'
  else if c = 't' then some '\t'
  else none

/-- The character after a backslash. -/
def readEscape : List Char → Except SyntaxError (Char × List Char)
  | [] => .error .openString
  | c :: rest =>
    match shortEscape? c with
    | some c => .ok (c, rest)
    | none => if c = 'u' then readUnicode rest else .error .invalidEscape

/-- The characters of a string up to its closing quote. -/
def readChars : Nat → List Char → Except SyntaxError (List Char × List Char)
  | 0, _ | _, [] => .error .openString
  | fuel + 1, c :: rest =>
    if c = '"' then .ok ([], rest)
    else if c = '\\' then do
      let (c, rest) ← readEscape rest
      let (cs, rest) ← readChars fuel rest
      return (c :: cs, rest)
    else if c.toNat < 0x20 then .error .controlCharacter
    else do
      let (cs, rest) ← readChars fuel rest
      return (c :: cs, rest)

/-- Passes over an escape after its backslash. -/
def skipEscape : List Char → Except SyntaxError (List Char)
  | [] => .error .openString
  | c :: rest =>
    match shortEscape? c with
    | some _ => .ok rest
    | none => if c = 'u' then (readHex rest).map Prod.snd else .error .invalidEscape

/-- Passes over a string after its opening quote. -/
def skipChars : Nat → List Char → Except SyntaxError (List Char)
  | 0, _ | _, [] => .error .openString
  | fuel + 1, c :: rest =>
    if c = '"' then .ok rest
    else if c = '\\' then do
      let rest ← skipEscape rest
      skipChars fuel rest
    else if c.toNat < 0x20 then .error .controlCharacter
    else skipChars fuel rest

/-- A string is of characters only. -/
def Frame.check (f : Frame) (cs : List Char) : Except SyntaxError String :=
  match f.stray with
  | some c => if cs.contains c then .error .invalidUnicode else .ok (String.ofList cs)
  | none => .ok (String.ofList cs)

/-- A string after its opening quote, and what follows it if it ends. -/
def lexString (f : Frame) (cs : List Char) : Lexeme String × Option (List Char) :=
  let read := do
    let (inner, _) ← readChars (f.size + 1) cs
    f.check inner
  match skipChars (f.size + 1) cs with
  | .ok rest => (⟨read, none⟩, some rest)
  | .error cause => (⟨read, some cause⟩, none)

/-- Passes over digits, of which there is at least one. -/
def skipDigits (cs : List Char) : Option (List Char) :=
  if Number.startsWithDigit cs then some (cs.dropWhile Char.isDigit) else none

/-- Passes over an exponent, if one stands here. -/
def skipExponent (cs : List Char) : Option (List Char) :=
  match cs with
  | 'e' :: rest | 'E' :: rest =>
    match rest with
    | '+' :: rest | '-' :: rest => skipDigits rest
    | rest => skipDigits rest
  | cs => some cs

/-- Passes over a fraction and an exponent. -/
def skipFraction (cs : List Char) : Option (List Char) :=
  match cs with
  | '.' :: rest => (skipDigits rest).bind skipExponent
  | cs => skipExponent cs

/-- Passes over a number without its sign. Zero is the only one that starts with a zero. -/
def skipMagnitude (cs : List Char) : Option (List Char) :=
  match cs with
  | '0' :: rest => if Number.startsWithDigit rest then none else skipFraction rest
  | cs => (skipDigits cs).bind skipFraction

def skipNumber (cs : List Char) : Option (List Char) :=
  match cs with
  | '-' :: rest => skipMagnitude rest
  | cs => skipMagnitude cs

def SyntaxError.ofNumber : Number.ReadError → SyntaxError
  | .ended => .openValue
  | .invalid => .invalidNumber
  | .outOfRange => .numberOutOfRange

def lexNumber (cs : List Char) : Lexeme Number × Option (List Char) :=
  let read := (Number.read cs).map Prod.fst |>.mapError .ofNumber
  match skipNumber cs with
  | some rest => (⟨read, none⟩, some rest)
  | none => (⟨read, some .invalidNumber⟩, none)

/-- The letters of a literal after its first one. -/
def readIdent : List Char → List Char → Except SyntaxError (List Char)
  | [], rest => .ok rest
  | _ :: _, [] => .error .openValue
  | c :: cs, d :: rest => if c = d then readIdent cs rest else .error .expectedIdent

end WorkflowEngine.Json
