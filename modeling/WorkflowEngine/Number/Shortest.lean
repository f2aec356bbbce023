import WorkflowEngine.Number.Double
/-!
The shortest decimal that a double stands nearest to, and its text. Grids of 1, 2, … significant
digits are tried in turn; the first one with a point that rounds to the double wins, and of two
such points the nearer one.
-/
set_option autoImplicit false

namespace WorkflowEngine

/-- The decimal `coefficient * 10 ^ exponent`. -/
structure Decimal where
  coefficient : Nat
  exponent : Int
  deriving DecidableEq

namespace Decimal

/-- Drops the zeros at the end of the coefficient; at most `fuel` of them. -/
def strip : Nat → Decimal → Decimal
  | 0, d => d
  | fuel + 1, d =>
    if d.coefficient ≠ 0 ∧ d.coefficient % 10 = 0 then
      strip fuel ⟨d.coefficient / 10, d.exponent + 1⟩
    else d

def digits (d : Decimal) : List Char := Nat.toDigits 10 d.coefficient

/-- The place of the decimal point counted from the first digit. -/
def point (d : Decimal) : Int := d.digits.length + d.exponent

end Decimal

/-- The fractions that round to a double: all between `low / den` and `high / den`, with the ends
when `closed`. -/
structure RoundingInterval where
  low : Nat
  value : Nat
  high : Nat
  den : Nat
  closed : Bool

namespace RoundingInterval

/-- Halfway to both neighbours. The lower neighbour of a power of two is twice as near. -/
def ofDouble (x : Double) : RoundingInterval :=
  let gap := if x.significand = 0x10000000000000 ∧ x.exponent ≠ -1074 then 1 else 2
  let unit : Nat := if x.exponent < 2 then 1 else 1 <<< (x.exponent - 2).natAbs
  let den : Nat := if x.exponent < 2 then 1 <<< (2 - x.exponent).natAbs else 1
  { low := (4 * x.significand - gap) * unit
    value := 4 * x.significand * unit
    high := (4 * x.significand + 2) * unit
    den
    closed := x.significand % 2 == 0 }

def holds (r : RoundingInterval) (num den : Nat) : Bool :=
  let point := num * r.den
  (r.low * den < point || (r.closed && r.low * den == point)) &&
    (point < r.high * den || (r.closed && point == r.high * den))

/-- The place of the decimal point of the value itself, which is not zero. -/
def point (r : RoundingInterval) : Int :=
  if r.den ≤ r.value then (Nat.toDigits 10 (r.value / r.den)).length
  else 1 - ((Nat.toDigits 10 ((r.den - 1) / r.value)).length : Int)

/-- The value's two neighbours among the decimals of `n` digits, the nearer first, a tie with the
even one first. -/
def neighbours (r : RoundingInterval) (n : Nat) : List Decimal :=
  let exponent := r.point - n
  let num := if exponent < 0 then r.value * Nat.pow 10 exponent.natAbs else r.value
  let den := if exponent < 0 then r.den else r.den * Nat.pow 10 exponent.natAbs
  let below := num / den
  let twice := 2 * (num % den)
  if twice < den ∨ (twice = den ∧ below % 2 = 0) then [⟨below, exponent⟩, ⟨below + 1, exponent⟩]
  else [⟨below + 1, exponent⟩, ⟨below, exponent⟩]

def holdsDecimal (r : RoundingInterval) (d : Decimal) : Bool :=
  if d.exponent < 0 then r.holds d.coefficient (Nat.pow 10 d.exponent.natAbs)
  else r.holds (d.coefficient * Nat.pow 10 d.exponent.natAbs) 1

end RoundingInterval

namespace Double

/-- The exact value as a decimal, whatever its length. -/
def exactDecimal (x : Double) : Decimal :=
  if x.exponent < 0 then ⟨x.significand * Nat.pow 5 x.exponent.natAbs, x.exponent⟩
  else ⟨x.significand <<< x.exponent.natAbs, 0⟩

/-- The shortest decimal that rounds to a nonzero double. Seventeen digits always suffice. -/
def shortest (x : Double) : Decimal :=
  let r := RoundingInterval.ofDouble x
  let found := (List.range 17).findSome? fun n => (r.neighbours (n + 1)).find? r.holdsDecimal
  Decimal.strip 20 (found.getD x.exactDecimal)

/-- Positional from `1e-5` up to sixteen digits before the point, with `.0` after an integer;
otherwise scientific, with a sign on every exponent. -/
def magnitudeText (x : Double) : List Char :=
  if x.isZero then ['0', '.', '0']
  else
    let d := x.shortest
    let point := d.point
    if 0 < point ∧ point ≤ 16 then
      let width := point.toNat
      let whole := d.digits.take width ++ List.replicate (width - d.digits.length) '0'
      let rest := d.digits.drop width
      whole ++ '.' :: (if rest.isEmpty then ['0'] else rest)
    else if -5 < point ∧ point ≤ 0 then
      '0' :: '.' :: List.replicate point.natAbs '0' ++ d.digits
    else
      let mantissa := match d.digits with
        | first :: second :: rest => first :: '.' :: second :: rest
        | short => short
      let power := point - 1
      mantissa ++ 'e' :: (if power < 0 then '-' else '+') :: Nat.toDigits 10 power.natAbs

def text (x : Double) : List Char :=
  if x.negative then '-' :: x.magnitudeText else x.magnitudeText

end Double

end WorkflowEngine
