import WorkflowEngine.Number.Double
import WorkflowEngine.Number.Shortest
/-!
Numbers of JSON texts: integers that fit 64 bits, signed or unsigned, and finite doubles. An
integer never equals a double.
-/
set_option autoImplicit false

namespace WorkflowEngine

inductive Number where
  | integer (value : Int) (inRange : -0x8000000000000000 ≤ value ∧ value < 0x10000000000000000)
  | float (value : Double)
  deriving DecidableEq

namespace Number

def ofInt? (i : Int) : Option Number :=
  if h : -0x8000000000000000 ≤ i ∧ i < 0x10000000000000000 then some (.integer i h) else none

def ofUInt64 (n : UInt64) : Number :=
  .integer n.toNat (by have := n.toNat_lt; omega)

def zero : Number := .integer 0 (by decide)

def int? : Number → Option Int
  | .integer i _ => some i
  | .float _ => none

/-- The integer, if 64 bits with a sign hold it. -/
def int64? : Number → Option Int
  | .integer i _ => if i < 0x8000000000000000 then some i else none
  | .float _ => none

/-- The integer, if 64 bits without a sign hold it. -/
def uint64? : Number → Option UInt64
  | .integer i _ => if 0 ≤ i then some (UInt64.ofNat i.toNat) else none
  | .float _ => none

/-- Integers compare with integers and doubles with doubles; the two zeros are equal. -/
def same : Number → Number → Bool
  | .integer i _, .integer j _ => i == j
  | .float x, .float y => x.same y
  | _, _ => false

def intText (i : Int) : List Char :=
  if i < 0 then '-' :: Nat.toDigits 10 i.natAbs else Nat.toDigits 10 i.natAbs

def text : Number → List Char
  | .integer i _ => intText i
  | .float x => x.text

/-- The nearest double. -/
def toDouble : Number → Option Double
  | .integer i _ => Double.ofInt i
  | .float x => some x

end Number

end WorkflowEngine
