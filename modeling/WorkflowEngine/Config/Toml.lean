import WorkflowEngine.Json.Reader
import WorkflowEngine.Timestamp
/-!
Settings files in TOML: keys with values, tables under headers, arrays of tables, comments. Only
the values matter, so a text is read as a document of settings or not at all.
-/
set_option autoImplicit false

namespace WorkflowEngine.Toml

/-- A value in a file. Floats and dates are read, but no setting has such a value. -/
inductive Item where
  | integer (i : Int)
  | bool (b : Bool)
  | string (s : String)
  | float
  | instant (text : String)
  | array (items : List Item)
  | table (entries : List (String × Item))

/-- How a table came to be: under a header of its own, as a part of a longer header, or as a part
of a dotted key. -/
inductive Origin where
  | header
  | implied
  | dotted
  deriving DecidableEq

inductive Node where
  | item (i : Item)
  | table (origin : Origin) (entries : List (String × Node))
  | tables (done : List (List (String × Node))) (last : List (String × Node))

/-- The most keys of a path, and the most arrays and inline tables around a value. -/
def depthLimit : Nat := 79

abbrev Reader (α : Type) := List Char → Option (α × List Char)

def isSpace (c : Char) : Bool := c == ' ' || c == '\t'

def skipSpaces (cs : List Char) : List Char := cs.dropWhile isSpace

/-- Control characters may stand in no part of a file, the tabulator apart. -/
def isPlain (c : Char) : Bool := c == '\t' || (0x20 ≤ c.toNat && c.toNat != 0x7F)

def newline? : List Char → Option (List Char)
  | '\n' :: rest => some rest
  | '\r' :: '\n' :: rest => some rest
  | _ => none

/-- Blanks and a comment up to the end of the line. -/
def skipToLineEnd (cs : List Char) : List Char :=
  match skipSpaces cs with
  | '#' :: rest => rest.dropWhile isPlain
  | rest => rest

def endLine (cs : List Char) : Option (List Char) :=
  match skipToLineEnd cs with
  | [] => some []
  | rest => newline? rest

/-- Blanks, comments and line ends, at most `fuel` lines of them. -/
def skipLines : Nat → List Char → List Char
  | 0, cs => cs
  | fuel + 1, cs =>
    match newline? (skipToLineEnd cs) with
    | some rest => skipLines fuel rest
    | none => skipToLineEnd cs

/-- A character by the code that some hexadecimal digits give. -/
def readCode (digits : Nat) (cs : List Char) : Option (Char × List Char) :=
  let ds := cs.take digits
  if ds.length = digits then
    match ds.mapM Json.hexValue? with
    | some values =>
      let code := values.foldl (fun n d => n * 16 + d) 0
      if code.isValidChar then some (Char.ofNat code, cs.drop digits) else none
    | none => none
  else none

def readEscape : Reader Char
  | c :: rest =>
    if c = '"' ∨ c = '\\' then some (c, rest)
    else if c = 'b' then some ('\x08', rest)
    else if c = 't' then some ('\t', rest)
    else if c = 'n' then some ('\n', rest)
    else if c = 'f' then some ('\x0c', rest)
    else if c = 'r' then some ('\r', rest)
    else if c = 'u' then readCode 4 rest
    else if c = 'U' then readCode 8 rest
    else none
  | [] => none

/-- The rest of a basic string of one line. -/
def readBasic : Nat → Reader (List Char)
  | 0, _ | _, [] => none
  | fuel + 1, c :: rest =>
    if c = '"' then some ([], rest)
    else if c = '\\' then do
      let (c, rest) ← readEscape rest
      let (cs, rest) ← readBasic fuel rest
      return (c :: cs, rest)
    else if isPlain c then do
      let (cs, rest) ← readBasic fuel rest
      return (c :: cs, rest)
    else none

/-- The rest of a literal string of one line. -/
def readLiteral (cs : List Char) : Option (List Char × List Char) :=
  let inner := cs.takeWhile fun c => isPlain c && c != '\''
  match cs.drop inner.length with
  | '\'' :: rest => some (inner, rest)
  | _ => none

/-- The quotes of a string of several lines that stand before the three closing ones, if the string
closes here. -/
def closing? (quote : Char) (cs : List Char) : Option (List Char × List Char) :=
  let run := cs.takeWhile (· == quote)
  if 3 ≤ run.length then some (run.drop 3, cs.drop run.length) else none

/-- Two quotes at most may stand before the closing ones. -/
def close : List Char × List Char → Option (List Char × List Char)
  | (quotes, rest) => if quotes.length ≤ 2 then some (quotes, rest) else none

/-- Blanks and line ends; a carriage return alone is neither. -/
def dropLineBlanks : List Char → List Char
  | '\r' :: '\n' :: rest => dropLineBlanks rest
  | c :: rest => if isSpace c || c == '\n' then dropLineBlanks rest else c :: rest
  | [] => []

/-- The rest of a basic string of several lines. A backslash at the end of a line joins it with
the next text. -/
def readBasicLines : Nat → Reader (List Char)
  | 0, _ => none
  | fuel + 1, cs =>
    match closing? '"' cs with
    | some result => close result
    | none =>
      match cs with
      | '\\' :: rest =>
        match newline? (skipSpaces rest) with
        | some more => readBasicLines fuel (dropLineBlanks more)
        | none => do
          let (c, rest) ← readEscape rest
          let (cs, rest) ← readBasicLines fuel rest
          return (c :: cs, rest)
      | '\r' :: '\n' :: rest | '\n' :: rest => do
        let (cs, rest) ← readBasicLines fuel rest
        return ('\n' :: cs, rest)
      | c :: rest =>
        if isPlain c then do
          let (cs, rest) ← readBasicLines fuel rest
          return (c :: cs, rest)
        else none
      | [] => none

def readLiteralLines : Nat → Reader (List Char)
  | 0, _ => none
  | fuel + 1, cs =>
    match closing? '\'' cs with
    | some result => close result
    | none =>
      match cs with
      | '\r' :: '\n' :: rest | '\n' :: rest => do
        let (cs, rest) ← readLiteralLines fuel rest
        return ('\n' :: cs, rest)
      | c :: rest =>
        if isPlain c then do
          let (cs, rest) ← readLiteralLines fuel rest
          return (c :: cs, rest)
        else none
      | [] => none

/-- A line end right after the opening quotes does not count. -/
def afterOpening (cs : List Char) : List Char := (newline? cs).getD cs

def readString (size : Nat) : Reader String
  | '"' :: '"' :: '"' :: rest =>
    (readBasicLines (size + 1) (afterOpening rest)).map fun (cs, rest) => (String.ofList cs, rest)
  | '"' :: rest => (readBasic (size + 1) rest).map fun (cs, rest) => (String.ofList cs, rest)
  | '\'' :: '\'' :: '\'' :: rest =>
    (readLiteralLines (size + 1) (afterOpening rest)).map
      fun (cs, rest) => (String.ofList cs, rest)
  | '\'' :: rest => (readLiteral rest).map fun (cs, rest) => (String.ofList cs, rest)
  | _ => none

def isBareKey (c : Char) : Bool := c.isAlphanum || c == '_' || c == '-'

def readKey (size : Nat) : Reader String
  | '"' :: rest => (readBasic (size + 1) rest).map fun (cs, rest) => (String.ofList cs, rest)
  | '\'' :: rest => (readLiteral rest).map fun (cs, rest) => (String.ofList cs, rest)
  | cs =>
    let key := cs.takeWhile isBareKey
    if key.isEmpty then none else some (String.ofList key, cs.drop key.length)

/-- At most `fuel` keys with points between them. -/
def readPath (size : Nat) : Nat → Reader (List String)
  | 0, _ => none
  | fuel + 1, cs => do
    let (key, rest) ← readKey size (skipSpaces cs)
    match skipSpaces rest with
    | '.' :: rest => do
      let (keys, rest) ← readPath size fuel rest
      return (key :: keys, rest)
    | rest => return ([key], rest)

/-- Digits with single underscores between them. -/
def digitsOf? (isDigit : Char → Bool) (cs : List Char) : Option (List Char) :=
  let parts := (String.ofList cs).splitOn "_" |>.map String.toList
  if parts.all fun part => !part.isEmpty && part.all isDigit then some parts.flatten else none

def inBase (base : Nat) (cs : List Char) : Option Int := do
  let ds ← digitsOf? (fun c => match Json.hexValue? c with
    | some d => d < base
    | none => false) cs
  let values ← ds.mapM Json.hexValue?
  return ((values.foldl (fun n d => n * base + d) 0 : Nat) : Int)

/-- Digits without a leading zero. -/
def decimalDigits? (cs : List Char) : Option (List Char) := do
  let ds ← digitsOf? Char.isDigit cs
  if ds.head? = some '0' ∧ ds.length ≠ 1 then none else some ds

def unsigned (cs : List Char) : List Char :=
  match cs with
  | '+' :: rest | '-' :: rest => rest
  | _ => cs

/-- An integer of 64 bits with a sign. -/
def integerOf? (cs : List Char) : Option Int := do
  let i ← match cs with
    | '0' :: 'x' :: rest => inBase 16 rest
    | '0' :: 'o' :: rest => inBase 8 rest
    | '0' :: 'b' :: rest => inBase 2 rest
    | _ => do
      let ds ← decimalDigits? (unsigned cs)
      let n : Int := Nat.ofDigitChars 10 ds 0
      pure (if cs.head? = some '-' then -n else n)
  if -0x8000000000000000 ≤ i ∧ i < 0x8000000000000000 then some i else none

def isDigitOrScore (c : Char) : Bool := c.isDigit || c == '_'

/-- A point with digits after it, if one stands here. -/
def readFraction : Reader (List Char)
  | '.' :: rest =>
    let ds := rest.takeWhile isDigitOrScore
    (digitsOf? Char.isDigit ds).map fun digits => (digits, rest.drop ds.length)
  | rest => some ([], rest)

/-- The exponent that the rest of a word is; no exponent counts as zero. -/
def exponentOf? : List Char → Option Int
  | [] => some 0
  | c :: rest =>
    if c = 'e' ∨ c = 'E' then (digitsOf? Char.isDigit (unsigned rest)).map fun ds =>
      let n : Int := Nat.ofDigitChars 10 ds 0
      if rest.head? = some '-' then -n else n
    else none

/-- Digits with a fraction, an exponent or both: an integer and the power of ten it is scaled by. -/
def decimalOf? (cs : List Char) : Option (Nat × Int) := do
  let whole := cs.takeWhile isDigitOrScore
  let rest := cs.drop whole.length
  let digits ← decimalDigits? whole
  if rest.isEmpty then none
  else
    let (fraction, rest) ← readFraction rest
    let exponent ← exponentOf? rest
    return (Nat.ofDigitChars 10 (digits ++ fraction) 0, exponent - fraction.length)

/-- The least number above all doubles, halfway between the last one and the next power of two. -/
def doubleBound : Nat := 0x3fffffffffffff <<< 970

/-- Whether no double is near `digits * 10 ^ exponent`. Numbers of 308 digits are below the bound. -/
def isTooLarge (digits : Nat) (exponent : Int) : Bool :=
  let width : Int := (Nat.toDigits 10 digits).length
  if digits = 0 ∨ width + exponent ≤ 308 then false
  else if exponent < 0 then doubleBound * Nat.pow 10 exponent.natAbs ≤ digits
  else 309 < exponent || doubleBound ≤ digits * Nat.pow 10 exponent.toNat

/-- Whether a word is a float: a decimal or a name. A decimal without a minus sign has to be near
some double. -/
def isFloat (cs : List Char) : Bool :=
  let body := unsigned cs
  if body = ['i', 'n', 'f'] ∨ body = ['n', 'a', 'n'] then true
  else match decimalOf? body with
    | some (digits, exponent) => cs.head? == some '-' || !isTooLarge digits exponent
    | none => false

/-- Whether digits and marks stand as in a pattern, where `0` stands for a digit. -/
def matchesPattern : List Char → List Char → Bool
  | [], [] => true
  | p :: ps, c :: cs => (if p == '0' then c.isDigit else p == c) && matchesPattern ps cs
  | _, _ => false

/-- The number that some digits from a place on make. -/
def numberAt (start width : Nat) (cs : List Char) : Nat :=
  Nat.ofDigitChars 10 ((cs.drop start).take width) 0

def isDay (cs : List Char) : Bool :=
  let month := numberAt 5 2 cs
  let day := numberAt 8 2 cs
  matchesPattern "0000-00-00".toList cs && 1 ≤ month && month ≤ 12 && 1 ≤ day &&
    day ≤ CivilDay.daysOf (numberAt 0 4 cs) month

/-- Whether a word is a time with whole seconds; the second sixty is a leap second. -/
def isClock (cs : List Char) : Bool :=
  matchesPattern "00:00:00".toList cs && numberAt 0 2 cs ≤ 23 && numberAt 3 2 cs ≤ 59 &&
    numberAt 6 2 cs ≤ 60

def isOffset : List Char → Bool
  | ['Z'] | ['z'] => true
  | sign :: cs => (sign == '+' || sign == '-') && matchesPattern "00:00".toList cs &&
      numberAt 0 2 cs ≤ 23 && numberAt 3 2 cs ≤ 59
  | [] => false

/-- What follows a fraction of a second, if one stands in front. -/
def afterFraction : List Char → List Char
  | '.' :: c :: cs => if c.isDigit then cs.dropWhile Char.isDigit else '.' :: c :: cs
  | cs => cs

def isTime (cs : List Char) : Bool := isClock (cs.take 8) && (afterFraction (cs.drop 8)).isEmpty

def isOffsetTime (cs : List Char) : Bool :=
  isClock (cs.take 8) && isOffset (afterFraction (cs.drop 8))

/-- Whether a word is a day, a time, or both with an offset or without one. -/
def isInstant (cs : List Char) : Bool :=
  if isDay (cs.take 10) then
    match cs.drop 10 with
    | [] => true
    | c :: rest => (c == 'T' || c == 't' || c == ' ') && (isTime rest || isOffsetTime rest)
  else isTime cs

def isWordChar (c : Char) : Bool :=
  c.isAlphanum || c == '_' || c == '-' || c == '+' || c == '.' || c == ':'

/-- A word up to a mark or blank. A time may follow its date after a space. -/
def takeWord (cs : List Char) : List Char :=
  let word := cs.takeWhile isWordChar
  match cs.drop word.length with
  | ' ' :: c :: rest =>
    if word.length = 10 ∧ isInstant word ∧ c.isDigit then
      word ++ ' ' :: (c :: rest).takeWhile isWordChar
    else word
  | _ => word

def readWord (cs : List Char) : Option (Item × List Char) :=
  let word := takeWord cs
  let rest := cs.drop word.length
  if word = "true".toList then some (.bool true, rest)
  else if word = "false".toList then some (.bool false, rest)
  else match integerOf? word with
    | some i => some (.integer i, rest)
    | none =>
      if isFloat word then some (.float, rest)
      else if isInstant word then some (.instant (String.ofList word), rest)
      else none

/-- Puts an item under a path of keys. No key may be there twice. A table under a header of its own
cannot grow, and only a table that came to be by dotted keys takes a new entry. Of an array of tables
the last one is meant. -/
def insertPath : List String → Item → List (String × Node) → Option (List (String × Node))
  | [], _, _ => none
  | [key], i, entries =>
    if (entries.lookup key).isSome then none else some (entries ++ [(key, .item i)])
  | key :: keys, i, entries =>
    match entries.lookup key with
    | none => (insertPath keys i []).map fun inner => entries ++ [(key, .table .dotted inner)]
    | some (.table origin inner) =>
      if origin = .header ∨ (origin ≠ .dotted ∧ keys.length = 1) then none
      else (insertPath keys i inner).map fun inner =>
        entries.map fun (name, node) =>
          if name = key then (name, .table origin inner) else (name, node)
    | some (.tables done last) =>
      if keys.length = 1 then none
      else (insertPath keys i last).map fun last =>
        entries.map fun (name, node) =>
          if name = key then (name, .tables done last) else (name, node)
    | some (.item _) => none

mutual
def Node.toItem : Node → Item
  | .item i => i
  | .table _ entries => .table (entriesToItems entries)
  | .tables done last => .array (tablesToItems done ++ [.table (entriesToItems last)])

def entriesToItems : List (String × Node) → List (String × Item)
  | [] => []
  | (key, node) :: rest => (key, node.toItem) :: entriesToItems rest

def tablesToItems : List (List (String × Node)) → List Item
  | [] => []
  | entries :: rest => .table (entriesToItems entries) :: tablesToItems rest
end

/-- The items of an array after its opening bracket. -/
def readItems (size : Nat) (item : Reader Item) : Nat → Reader (List Item)
  | 0, _ => none
  | fuel + 1, cs =>
    match skipLines (size + 1) cs with
    | ']' :: rest => some ([], rest)
    | rest => do
      let (i, rest) ← item rest
      match skipLines (size + 1) rest with
      | ',' :: rest => do
        let (is, rest) ← readItems size item fuel rest
        return (i :: is, rest)
      | ']' :: rest => return ([i], rest)
      | _ => none

def readEntry (size : Nat) (item : Reader Item) : Reader (List String × Item) := fun cs => do
  let (path, rest) ← readPath size depthLimit cs
  match skipSpaces rest with
  | '=' :: rest => do
    let (i, rest) ← item (skipSpaces rest)
    return ((path, i), rest)
  | _ => none

/-- The entries of an inline table, of which there is at least one. -/
def readEntries (size : Nat) (item : Reader Item) :
    Nat → List (String × Node) → Reader (List (String × Node))
  | 0, _, _ => none
  | fuel + 1, entries, cs => do
    let ((path, i), rest) ← readEntry size item cs
    let entries ← insertPath path i entries
    match skipSpaces rest with
    | ',' :: rest => readEntries size item fuel entries rest
    | '\x7d' :: rest => return (entries, rest)
    | _ => none

/-- A value that is neither an array nor an inline table. -/
def readScalar (size : Nat) (cs : List Char) : Option (Item × List Char) :=
  match cs with
  | '"' :: _ | '\'' :: _ => (readString size cs).map fun (s, rest) => (.string s, rest)
  | _ => readWord cs

/-- A value in which at most `levels` arrays and inline tables are nested. -/
def readItem (size : Nat) : Nat → Reader Item
  | 0, cs => readScalar size cs
  | levels + 1, cs =>
    match cs with
    | '[' :: rest => do
      let (is, rest) ← readItems size (readItem size levels) (size + 1) rest
      return (.array is, rest)
    | '\x7b' :: rest =>
      match skipSpaces rest with
      | '\x7d' :: rest => some (.table [], rest)
      | rest => do
        let (entries, rest) ← readEntries size (readItem size levels) (size + 1) [] rest
        return (.table (entriesToItems entries), rest)
    | _ => readScalar size cs

def setNode (key : String) (node : Node) : List (String × Node) → List (String × Node)
  | [] => [(key, node)]
  | (name, other) :: rest =>
    if name = key then (key, node) :: rest else (name, other) :: setNode key node rest

/-- Changes the table under a path of headers. Missing tables are made on the way; of an array of
tables the last one is meant. -/
def update (change : List (String × Node) → Option (List (String × Node))) :
    List String → List (String × Node) → Option (List (String × Node))
  | [], entries => change entries
  | key :: keys, entries =>
    match entries.lookup key with
    | none => (update change keys []).map fun inner => setNode key (.table .implied inner) entries
    | some (.table origin inner) =>
      (update change keys inner).map fun inner => setNode key (.table origin inner) entries
    | some (.tables done last) =>
      (update change keys last).map fun last => setNode key (.tables done last) entries
    | some (.item _) => none

/-- Opens the table of a header. A table has at most one header of its own. -/
def openTable (key : String) (entries : List (String × Node)) : Option (List (String × Node)) :=
  match entries.lookup key with
  | none => some (setNode key (.table .header []) entries)
  | some (.table .implied inner) => some (setNode key (.table .header inner) entries)
  | some _ => none

def openNext (key : String) (entries : List (String × Node)) : Option (List (String × Node)) :=
  match entries.lookup key with
  | none => some (setNode key (.tables [] []) entries)
  | some (.tables done last) => some (setNode key (.tables (done ++ [last]) []) entries)
  | some _ => none

/-- The path of a header, with whether it opens a table of an array. -/
def readHeader (size : Nat) (cs : List Char) : Option ((List String × Bool) × List Char) :=
  match cs with
  | '[' :: '[' :: rest => do
    let (path, rest) ← readPath size depthLimit rest
    match skipSpaces rest with
    | ']' :: ']' :: rest => return ((path, true), rest)
    | _ => none
  | '[' :: rest => do
    let (path, rest) ← readPath size depthLimit rest
    match skipSpaces rest with
    | ']' :: rest => return ((path, false), rest)
    | _ => none
  | _ => none

/-- The lines of a file: the current header and the tables so far are carried along. -/
def readLines (size : Nat) : Nat → List String → List (String × Node) → List Char →
    Option (List (String × Node))
  | 0, _, _, _ => none
  | fuel + 1, current, root, cs =>
    match skipLines (size + 1) cs with
    | [] => some root
    | '[' :: rest => do
      let ((path, isNext), rest) ← readHeader size ('[' :: rest)
      let key ← path.getLast?
      let root ← update (if isNext then openNext key else openTable key) path.dropLast root
      let rest ← endLine rest
      readLines size fuel path root rest
    | rest => do
      let ((path, i), rest) ← readEntry size (readItem size depthLimit) rest
      let root ← update (insertPath path i) current root
      let rest ← endLine rest
      readLines size fuel current root rest

mutual
/-- A float becomes null, since no setting is one. -/
def Item.toJson : Item → Json
  | .integer i => .ofInt i
  | .bool b => .bool b
  | .string s => .string s
  | .float => .null
  | .instant text => .object [("instant", .string text)]
  | .array items => .array (itemsToJson items)
  | .table entries => .object (entriesToJson entries)

def itemsToJson : List Item → List Json
  | [] => []
  | i :: rest => i.toJson :: itemsToJson rest

def entriesToJson : List (String × Item) → List (String × Json)
  | [] => []
  | (key, i) :: rest => (key, i.toJson) :: entriesToJson rest
end

/-- A byte order mark at the start does not count. -/
def withoutMark (cs : List Char) : List Char :=
  match cs with
  | c :: rest => if c.toNat = 0xFEFF then rest else cs
  | [] => []

def read (text : String) : Option Json :=
  let cs := withoutMark text.toList
  (readLines cs.length (cs.length + 1) [] [] cs).map fun root =>
    .object (entriesToJson (entriesToItems root))

end WorkflowEngine.Toml
