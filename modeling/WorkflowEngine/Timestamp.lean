import WorkflowEngine.Decoding.Basic
import WorkflowEngine.Text.Blank
/-!
Instants of universal time with nanoseconds, in the proleptic Gregorian calendar. They are
printed in the form of RFC 3339 with `Z`; reading is lenient about blanks, the case of the marks
and the offset.
-/
set_option autoImplicit false

namespace WorkflowEngine

/-- Seconds since 1970 and nanoseconds; from 10 ^ 9 on these belong to a leap second. -/
structure Timestamp where
  seconds : Int
  nanos : Nat
  deriving DecidableEq

structure CivilDay where
  year : Int
  month : Nat
  day : Nat
  deriving DecidableEq

namespace CivilDay

/-- Days since 1970. Years start in March here, so that a leap day is the last one. -/
def toDays (d : CivilDay) : Int :=
  let year := if d.month ≤ 2 then d.year - 1 else d.year
  let era := year.fdiv 400
  let yearOfEra := year.fmod 400
  let monthFromMarch := (d.month + 9) % 12
  let dayOfYear : Nat := (153 * monthFromMarch + 2) / 5 + d.day - 1
  era * 146097 + (yearOfEra * 365 + yearOfEra / 4 - yearOfEra / 100 + dayOfYear) - 719468

def ofDays (days : Int) : CivilDay :=
  let shifted := days + 719468
  let era := shifted.fdiv 146097
  let dayOfEra := (shifted.fmod 146097).toNat
  let yearOfEra := (dayOfEra - dayOfEra / 1460 + dayOfEra / 36524 - dayOfEra / 146096) / 365
  let dayOfYear := dayOfEra - (365 * yearOfEra + yearOfEra / 4 - yearOfEra / 100)
  let monthFromMarch := (5 * dayOfYear + 2) / 153
  let day := dayOfYear - (153 * monthFromMarch + 2) / 5 + 1
  let month := if monthFromMarch < 10 then monthFromMarch + 3 else monthFromMarch - 9
  ⟨era * 400 + yearOfEra + (if month ≤ 2 then 1 else 0), month, day⟩

def isLeap (year : Int) : Bool := year % 4 == 0 && (year % 100 != 0 || year % 400 == 0)

def daysOf (year : Int) (month : Nat) : Nat :=
  if month = 2 then (if isLeap year then 29 else 28)
  else if month = 4 ∨ month = 6 ∨ month = 9 ∨ month = 11 then 30
  else 31

/-- Years are limited to those that some 2 ^ 18 years around year zero hold. -/
def isValid (d : CivilDay) : Bool :=
  1 ≤ d.day && d.day ≤ daysOf d.year d.month && -262143 ≤ d.year && d.year ≤ 262142

end CivilDay

namespace Timestamp

def ofMillis (ms : Nat) : Timestamp := ⟨ms / 1000, ms % 1000 * 1000000⟩

/-- A number with at least `width` digits. -/
def padded (width n : Nat) : List Char :=
  let ds := Nat.toDigits 10 n
  List.replicate (width - ds.length) '0' ++ ds

def yearText (year : Int) : List Char :=
  if 0 ≤ year ∧ year ≤ 9999 then padded 4 year.toNat
  else (if year < 0 then '-' else '+') :: padded 4 year.natAbs

/-- Three, six or nine digits, as few as give the exact fraction. -/
def fractionText (nanos : Nat) : List Char :=
  if nanos = 0 then []
  else if nanos % 1000000 = 0 then '.' :: padded 3 (nanos / 1000000)
  else if nanos % 1000 = 0 then '.' :: padded 6 (nanos / 1000)
  else '.' :: padded 9 nanos

def day (t : Timestamp) : CivilDay := .ofDays (t.seconds.fdiv 86400)

def text (t : Timestamp) : String :=
  let day := t.day
  let second := (t.seconds.fmod 86400).toNat
  let leap := t.nanos / 1000000000
  String.ofList (yearText day.year ++ '-' :: padded 2 day.month ++ '-' :: padded 2 day.day ++
    'T' :: padded 2 (second / 3600) ++ ':' :: padded 2 (second / 60 % 60) ++
    ':' :: padded 2 (second % 60 + leap) ++ fractionText (t.nanos % 1000000000) ++ ['Z'])

inductive ParseError where
  | outOfRange
  | impossible
  | invalid
  | tooShort
  | tooLong
  deriving DecidableEq

def ParseError.message : ParseError → String
  | .outOfRange => "input is out of range"
  | .impossible => "no possible date and time matching input"
  | .invalid => "input contains invalid characters"
  | .tooShort => "premature end of input"
  | .tooLong => "trailing input"

abbrev Part (α : Type) := List Char → Except ParseError (α × List Char)

/-- A number of at most `width` digits; at least one is needed. -/
def readNumber (width : Nat) : Part Nat
  | [] => .error .tooShort
  | cs =>
    let ds := (cs.take width).takeWhile Char.isDigit
    if ds.isEmpty then .error .invalid
    else
      let n := Nat.ofDigitChars 10 ds 0
      if n < 0x8000000000000000 then .ok (n, cs.drop ds.length) else .error .outOfRange

/-- A number within bounds after blanks. -/
def readBounded (width low high : Nat) : Part Nat := fun cs => do
  let (n, rest) ← readNumber width (Text.dropBlanks cs)
  if low ≤ n ∧ n ≤ high then return (n, rest) else throw .outOfRange

/-- A year of four digits, or of any number of digits after a sign. -/
def readYear : Part Int := fun cs => do
  let (year, rest) ← match Text.dropBlanks cs with
    | '-' :: rest => do
      let (n, rest) ← readNumber rest.length rest
      pure (-(n : Int), rest)
    | '+' :: rest => do
      let (n, rest) ← readNumber rest.length rest
      pure ((n : Int), rest)
    | rest => do
      let (n, rest) ← readNumber 4 rest
      pure ((n : Int), rest)
  if -0x80000000 ≤ year ∧ year < 0x80000000 then return (year, rest) else throw .outOfRange

def readMark (mark : Char) (cs : List Char) : Except ParseError (List Char) :=
  match Text.dropBlanks cs with
  | [] => .error .tooShort
  | c :: rest => if c = mark then .ok rest else .error .invalid

/-- Digits after a point; nine of them count. -/
def readFraction : Part Nat
  | '.' :: rest => do
    let ds := (rest.take 9).takeWhile Char.isDigit
    let (n, more) ← readNumber 9 rest
    return (n * Nat.pow 10 (9 - ds.length), more.dropWhile Char.isDigit)
  | cs => .ok (0, cs)

/-- What is wrong where two digits are expected and fewer characters are left: the text ends too
early only if fewer than two bytes are left. -/
def fewerThanTwo : List Char → ParseError
  | [] => .tooShort
  | c :: _ => if c.utf8Size = 1 then .tooShort else .invalid

def readTwoDigits : Part Nat
  | a :: b :: rest =>
    if a.isDigit ∧ b.isDigit then .ok (Nat.ofDigitChars 10 [a, b] 0, rest) else .error .invalid
  | cs => .error (fewerThanTwo cs)

/-- Minutes of an offset, at most 59. -/
def readOffsetMinutes : Part Nat
  | a :: b :: rest =>
    if '6' ≤ a ∧ a ≤ '9' ∧ b.isDigit then .error .outOfRange
    else if '0' ≤ a ∧ a ≤ '5' ∧ b.isDigit then .ok (Nat.ofDigitChars 10 [a, b] 0, rest)
    else .error .invalid
  | cs => .error (fewerThanTwo cs)

/-- The minutes by which local time is ahead. -/
def readOffset (cs : List Char) : Except ParseError (Int × List Char) := do
  if (cs.take 3).map Char.toUpper = ['U', 'T', 'C'] then return (0, cs.drop 3)
  match cs with
  | [] => throw .tooShort
  | c :: rest =>
    if c = 'Z' ∨ c = 'z' then return (0, rest)
    else if c = '+' ∨ c = '-' ∨ c = '−' then
      let (hours, rest) ← readTwoDigits rest
      let (minutes, rest) ←
        readOffsetMinutes (rest.dropWhile fun c => c == ':' || Text.isBlank c)
      let total : Int := hours * 60 + minutes
      return (if c = '+' then total else -total, rest)
    else throw .invalid

def readDay : Part CivilDay := fun cs => do
  let (year, cs) ← readYear cs
  let cs ← readMark '-' cs
  let (month, cs) ← readBounded 2 1 12 cs
  let cs ← readMark '-' cs
  let (day, cs) ← readBounded 2 1 31 cs
  return (⟨year, month, day⟩, cs)

/-- Seconds of the day and nanoseconds; second 60 is a leap second. -/
def readTime : Part (Nat × Nat) := fun cs => do
  let (hour, cs) ← readBounded 2 0 23 cs
  let cs ← readMark ':' cs
  let (minute, cs) ← readBounded 2 0 59 cs
  let cs ← readMark ':' cs
  let (second, cs) ← readBounded 2 0 60 cs
  let (nanos, cs) ← readFraction cs
  let leap := if second = 60 then 1 else 0
  return ((hour * 3600 + minute * 60 + (second - leap), nanos + leap * 1000000000), cs)

/-- The local day has to be one of the calendar, and so has the day of universal time. -/
def parse (s : String) : Except ParseError Timestamp := do
  let (day, cs) ← readDay s.toList
  let cs ← match cs with
    | [] => throw .tooShort
    | c :: rest => if c = 't' ∨ c = 'T' ∨ c = ' ' then pure rest else throw .invalid
  let ((second, nanos), cs) ← readTime cs
  let (offset, cs) ← readOffset (Text.dropBlanks cs)
  if !(Text.dropBlanks cs).isEmpty then throw .tooLong
  if !day.isValid ∨ 1440 ≤ offset.natAbs then throw .outOfRange
  let t : Timestamp := ⟨day.toDays * 86400 + second - offset * 60, nanos⟩
  if t.day.isValid then return t else throw .impossible

def toJson (t : Timestamp) : Json := .string t.text

def decoder : Decoder Timestamp
  | _, .string s => do
    match parse (← ofReading s.read) with
    | .ok t => return t
    | .error e => throw (.rejected e.message)
  | _, d => Decoder.mismatch d "an RFC 3339 formatted date and time string"

end Timestamp

end WorkflowEngine
