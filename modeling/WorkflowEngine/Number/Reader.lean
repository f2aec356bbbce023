import WorkflowEngine.Number.Basic
/-!
Numbers read from text. An integer literal that fits 64 bits stays an integer. Any other literal
becomes a double: its leading digits, as many as fit 64 bits, are rounded to a double, which is
then scaled by a rounded power of ten.
-/
set_option autoImplicit false

namespace WorkflowEngine.Number

inductive ReadError where
  | ended
  | invalid
  | outOfRange
  deriving DecidableEq, Repr

/-- A run of digits read while its value stays below a bound. -/
structure DigitRun where
  value : Nat
  count : Nat
  rest : List Char

def digitValue (c : Char) : Nat := c.toNat - '0'.toNat

/-- The rest of the run starts with a digit only if that digit would pass the bound. -/
def DigitRun.read (bound value count : Nat) : List Char → DigitRun
  | [] => ⟨value, count, []⟩
  | c :: cs =>
    if c.isDigit ∧ value * 10 + digitValue c < bound then
      read bound (value * 10 + digitValue c) (count + 1) cs
    else ⟨value, count, c :: cs⟩

def startsWithDigit : List Char → Bool
  | c :: _ => c.isDigit
  | [] => false

/-- Ten to a power of at most 308, rounded. -/
def powerOfTen (n : Nat) : Double :=
  (Double.ofRatio false (Nat.pow 10 n) 1).getD (Double.zero false)

/-- Divides by `10 ^ 308` until the exponent is at least -308; `fuel` bounds the divisions. -/
def scaleDown : Nat → Double → Int → Double
  | 0, x, _ => x
  | fuel + 1, x, exponent =>
    if x.isZero then x
    else if -308 ≤ exponent then (x.div (powerOfTen exponent.natAbs)).getD x
    else scaleDown fuel ((x.div (powerOfTen 308)).getD x) (exponent + 308)

/-- The double for a significand times a power of ten. The significand is rounded first. -/
def scale (significand : Nat) (exponent : Int) : Except ReadError Double :=
  match Double.ofRatio false significand 1 with
  | none => .error .outOfRange
  | some x =>
    if 0 ≤ exponent then
      if x.isZero then .ok x
      else if exponent ≤ 308 then
        match x.mul (powerOfTen exponent.natAbs) with
        | some y => .ok y
        | none => .error .outOfRange
      else .error .outOfRange
    else .ok (scaleDown 4 x exponent)

def finish (negative : Bool) (significand : Nat) (exponent : Int) (rest : List Char) :
    Except ReadError (Number × List Char) := do
  let x ← scale significand exponent
  return (.float (if negative then x.neg else x), rest)

/-- Reads the exponent after its mark. One that passes 31 bits gives zero or no number. -/
def readExponent (negative : Bool) (significand : Nat) (exponent : Int) (cs : List Char) :
    Except ReadError (Number × List Char) :=
  let (down, cs) := match cs with
    | '-' :: rest => (true, rest)
    | '+' :: rest => (false, rest)
    | _ => (false, cs)
  match cs with
  | [] => .error .ended
  | c :: _ =>
    if c.isDigit then
      let run := DigitRun.read 0x80000000 0 0 cs
      if startsWithDigit run.rest then
        if significand ≠ 0 ∧ ¬ down then .error .outOfRange
        else .ok (.float (Double.zero negative), run.rest.dropWhile Char.isDigit)
      else finish negative significand
        (if down then exponent - run.value else exponent + run.value) run.rest
    else .error .invalid

/-- Reads what follows the digits of a literal that is no integer. -/
def readScaled (negative : Bool) (significand : Nat) (exponent : Int) (cs : List Char) :
    Except ReadError (Number × List Char) :=
  match cs with
  | 'e' :: rest | 'E' :: rest => readExponent negative significand exponent rest
  | _ => finish negative significand exponent cs

/-- Reads the digits after the point. Those that do not fit the significand are passed over. -/
def readFraction (negative : Bool) (significand : Nat) (exponent : Int) (cs : List Char) :
    Except ReadError (Number × List Char) :=
  let run := DigitRun.read 0x10000000000000000 significand 0 cs
  if run.count = 0 ∧ ¬ startsWithDigit run.rest then
    .error (if run.rest.isEmpty then .ended else .invalid)
  else readScaled negative run.value (exponent - run.count) (run.rest.dropWhile Char.isDigit)

/-- An integer literal, if it fits; minus zero is a double. -/
def ofLiteral (negative : Bool) (significand : Nat) (rest : List Char) :
    Except ReadError (Number × List Char) :=
  let value : Int := if negative then -(significand : Int) else significand
  if negative ∧ significand = 0 then .ok (.float (Double.zero true), rest)
  else match ofInt? value with
    | some n => .ok (n, rest)
    | none => finish negative significand 0 rest

def readMagnitude (negative : Bool) (cs : List Char) : Except ReadError (Number × List Char) :=
  match cs with
  | [] => .error .ended
  | c :: cs =>
    if ¬ c.isDigit then .error .invalid
    else if c = '0' ∧ startsWithDigit cs then .error .invalid
    else
      let run := DigitRun.read 0x10000000000000000 0 0 (c :: cs)
      let extra := run.rest.takeWhile Char.isDigit
      match run.rest.dropWhile Char.isDigit with
      | '.' :: rest => readFraction negative run.value extra.length rest
      | rest =>
        match rest with
        | 'e' :: _ | 'E' :: _ => readScaled negative run.value extra.length rest
        | _ =>
          if extra.isEmpty then ofLiteral negative run.value rest
          else finish negative run.value extra.length rest

/-- Reads a number and returns the characters after it. -/
def read : List Char → Except ReadError (Number × List Char)
  | '-' :: cs => readMagnitude true cs
  | cs => readMagnitude false cs

end WorkflowEngine.Number
