import WorkflowEngine.Decoding.Basic
/-!
Identifiers of 128 bits. They are printed as five groups of hexadecimal digits, and read also
without hyphens, in braces or after `urn:uuid:`, in either case.
-/
set_option autoImplicit false

namespace WorkflowEngine

structure Uuid where
  bits : BitVec 128
  deriving DecidableEq

namespace Uuid

/-- The digit at a place, counted from the most significant one. -/
def digitAt (u : Uuid) (i : Nat) : Char := Nat.digitChar (u.bits.toNat >>> (4 * (31 - i)) % 16)

def digits (u : Uuid) (first count : Nat) : List Char :=
  (List.range count).map fun i => u.digitAt (first + i)

def chars (u : Uuid) : List Char :=
  u.digits 0 8 ++ '-' :: u.digits 8 4 ++ '-' :: u.digits 12 4 ++ '-' :: u.digits 16 4 ++
    '-' :: u.digits 20 12

def text (u : Uuid) : String := String.ofList u.chars

/-- Where the numbering of fresh identifiers starts. -/
def origin : Nat := 0x1b4e28ba2fa15d4c9b7e39a40d1c5f3

/-- The fresh identifier with a number: 122 bits of its own, version 4 and variant 1. -/
def fresh (n : Nat) : Uuid :=
  let own := BitVec.ofNat 122 (origin + n)
  ⟨own.extractLsb' 74 48 ++ 4#4 ++ own.extractLsb' 62 12 ++ 2#2 ++ own.extractLsb' 0 62⟩

theorem append_inj {m n : Nat} {a b : BitVec m} {c d : BitVec n} (h : a ++ c = b ++ d) :
    a = b ∧ c = d := by
  have low : c = d := by simpa [BitVec.setWidth_append] using congrArg (BitVec.setWidth n) h
  subst low
  exact ⟨(BitVec.append_left_inj c).1 h, rfl⟩

/-- How many numbers the 122 bits tell apart. -/
def supply : Nat := Nat.pow 2 122

theorem fresh_injective {m n : Nat} (hm : m < supply) (hn : n < supply)
    (h : fresh m = fresh n) : m = n := by
  have bits := congrArg Uuid.bits h
  obtain ⟨rest, low⟩ := append_inj bits
  obtain ⟨rest, -⟩ := append_inj rest
  obtain ⟨rest, middle⟩ := append_inj rest
  obtain ⟨high, -⟩ := append_inj rest
  have own : BitVec.ofNat 122 (origin + m) = BitVec.ofNat 122 (origin + n) := by
    apply BitVec.eq_of_getLsbD_eq
    intro i hi
    by_cases hlow : i < 62
    · simpa [hlow, hi] using congrArg (BitVec.getLsbD · i) low
    · by_cases hmiddle : i < 74
      · simpa [show i - 62 < 12 by omega, show 62 + (i - 62) = i by omega, hi] using
          congrArg (BitVec.getLsbD · (i - 62)) middle
      · simpa [show i - 74 < 48 by omega, show 74 + (i - 74) = i by omega, hi] using
          congrArg (BitVec.getLsbD · (i - 74)) high
  have same := congrArg BitVec.toNat own
  simp only [BitVec.toNat_ofNat, origin] at same
  simp only [supply, Nat.pow_eq] at hm hn
  omega

inductive ParseError where
  | character (c : Char) (place : Nat)
  | wrongLength (length : Nat)
  | groupCount (count : Nat)
  | groupLength (group expected length : Nat)

def ParseError.message : ParseError → String
  | .character c place =>
    "invalid character: found `" ++ String.singleton c ++ "` at " ++ toString place
  | .wrongLength length => "invalid length: found " ++ toString length
  | .groupCount count => "invalid group count: expected 5, found " ++ toString count
  | .groupLength group expected length =>
    "invalid group length in group " ++ toString group ++ ": expected " ++ toString expected ++
      ", found " ++ toString length

def hexNumber : List Char → Nat → Option Nat
  | [], n => some n
  | c :: cs, n => (Json.hexValue? c).bind fun d => hexNumber cs (n * 16 + d)

def ofDigits? (cs : List Char) : Option Uuid :=
  if cs.length = 32 then (hexNumber cs 0).map fun n => ⟨BitVec.ofNat 128 n⟩ else none

def groups : List Char → List (List Char)
  | [] => [[]]
  | c :: cs =>
    if c = '-' then [] :: groups cs
    else match groups cs with
      | [] => [[c]]
      | first :: rest => (c :: first) :: rest

def groupLengths : List Nat := [8, 4, 4, 4, 12]

def ofGroups? (cs : List Char) : Option Uuid :=
  let parts := groups cs
  if parts.map List.length = groupLengths then ofDigits? parts.flatten else none

def urnMark : List Char := "urn:uuid:".toList

/-- The digits and hyphens inside braces or after the mark, in which case does not count, with the
number of characters before them and whether they stand alone. -/
def unwrap (cs : List Char) : List Char × Nat × Bool :=
  if cs.head? = some '\x7b' ∧ cs.getLast? = some '\x7d' ∧ 2 ≤ cs.length then
    ((cs.drop 1).dropLast, 1, false)
  else if (cs.take urnMark.length).map Char.toLower = urnMark then
    (cs.drop urnMark.length, urnMark.length, false)
  else (cs, 0, true)

/-- The first character that is neither a digit nor a hyphen, with the bytes before it. -/
def firstForeign : Nat → List Char → Option (Char × Nat)
  | _, [] => none
  | before, c :: cs =>
    if c = '-' ∨ (Json.hexValue? c).isSome then firstForeign (before + c.utf8Size) cs
    else some (c, before)

/-- The first group whose length is not the expected one. -/
def wrongGroup : Nat → List Nat → List Nat → ParseError
  | group, expected :: more, length :: rest =>
    if length = expected ∧ ¬ rest.isEmpty then wrongGroup (group + 1) more rest
    else .groupLength group expected length
  | group, _, _ => .groupLength group 0 0

/-- The bytes of the longest written form: five groups after the mark. -/
def longest : Nat := 45

/-- A text that is too long is not looked into. -/
def explain (cs : List Char) : ParseError :=
  let (inner, offset, alone) := unwrap cs
  let size := Json.byteCount cs
  if longest < size then .wrongLength size
  else match firstForeign offset inner with
    | some (c, place) => .character c place
    | none =>
      let parts := groups inner
      if parts.length = 1 ∧ alone then .wrongLength size
      else if parts.length ≠ 5 then .groupCount parts.length
      else wrongGroup 0 groupLengths (parts.map List.length)

def parse (s : String) : Except ParseError Uuid :=
  let (inner, _, alone) := unwrap s.toList
  match (if alone then ofDigits? inner else none).or (ofGroups? inner) with
  | some u => .ok u
  | none => .error (explain s.toList)

def toJson (u : Uuid) : Json := .string u.text

def decoder : Decoder Uuid
  | _, .string s => do
    match parse (← ofReading s.read) with
    | .ok u => return u
    | .error e => throw (.rejected ("UUID parsing failed: " ++ e.message))
  | _, d => Decoder.mismatch d "a formatted UUID string"

end Uuid

end WorkflowEngine
