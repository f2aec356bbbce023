/-!
Finite binary64 numbers as a sign, a significand and a power of two. `ofRatio` rounds a fraction
to the nearest of them, a tie to the even significand; sums and products are rounded from their
exact values.
-/
set_option autoImplicit false

namespace WorkflowEngine

/-- A finite double has the value `±significand * 2 ^ exponent`. Each value but zero has one
representation: the significand has 53 bits unless the exponent is the least one. -/
structure Double where
  negative : Bool
  significand : Nat
  exponent : Int
  canonical : significand < 0x20000000000000 ∧ -1074 ≤ exponent ∧ exponent ≤ 971 ∧
    (0x10000000000000 ≤ significand ∨ exponent = -1074)
  deriving DecidableEq

namespace Double

def zero (negative : Bool) : Double := ⟨negative, 0, -1074, by decide⟩

def isZero (x : Double) : Bool := x.significand == 0

/-- Numeric equality: the two zeros are equal. -/
def same (x y : Double) : Bool := (x.isZero && y.isZero) || x == y

/-- Divides and rounds to the nearest integer, a tie to the even one. -/
def divNearest (num den : Nat) : Nat :=
  let quotient := num / den
  let twice := 2 * (num % den)
  if twice < den then quotient
  else if den < twice then quotient + 1
  else quotient + quotient % 2

/-- The fraction divided by a power of two, as a fraction. -/
def scaled (num den : Nat) (exponent : Int) : Nat × Nat :=
  if exponent < 0 then (num <<< exponent.natAbs, den) else (num, den <<< exponent.natAbs)

/-- The exponent of the last kept bit: 53 bits are kept, fewer near zero. -/
def unitExponent (num den : Nat) : Int :=
  let low : Int := (num.log2 : Int) - den.log2 - 53
  let parts := scaled num den low
  max (-1074) (if parts.1 / parts.2 < 0x20000000000000 then low else low + 1)

def ofParts? (negative : Bool) (significand : Nat) (exponent : Int) : Option Double :=
  if h : significand < 0x20000000000000 ∧ -1074 ≤ exponent ∧ exponent ≤ 971 ∧
      (0x10000000000000 ≤ significand ∨ exponent = -1074) then
    some ⟨negative, significand, exponent, h⟩
  else none

/-- The double nearest to `num / den`; none when it is out of range. -/
def ofRatio (negative : Bool) (num den : Nat) : Option Double :=
  if num = 0 then some (zero negative)
  else
    let exponent := unitExponent num den
    let parts := scaled num den exponent
    let rounded := divNearest parts.1 parts.2
    if rounded = 0x20000000000000 then ofParts? negative 0x10000000000000 (exponent + 1)
    else ofParts? negative rounded exponent

/-- The exact magnitude, as a fraction. -/
def ratio (x : Double) : Nat × Nat :=
  if x.exponent < 0 then (x.significand, 1 <<< x.exponent.natAbs)
  else (x.significand <<< x.exponent.natAbs, 1)

/-- The exact value, as an integer over a natural number. -/
def signedRatio (x : Double) : Int × Nat :=
  (if x.negative then -(x.ratio.1 : Int) else x.ratio.1, x.ratio.2)

def ofInt (i : Int) : Option Double := ofRatio (i < 0) i.natAbs 1

def mul (x y : Double) : Option Double :=
  ofRatio (x.negative != y.negative) (x.ratio.1 * y.ratio.1) (x.ratio.2 * y.ratio.2)

def div (x y : Double) : Option Double :=
  ofRatio (x.negative != y.negative) (x.ratio.1 * y.ratio.2) (x.ratio.2 * y.ratio.1)

/-- The sum; a zero sum is negative only when both terms are. -/
def add (x y : Double) : Option Double :=
  let sum := x.signedRatio.1 * y.signedRatio.2 + y.signedRatio.1 * x.signedRatio.2
  let negative := if sum = 0 then x.negative && y.negative else decide (sum < 0)
  ofRatio negative sum.natAbs (x.ratio.2 * y.ratio.2)

def neg (x : Double) : Double := { x with negative := !x.negative }

end Double

end WorkflowEngine
