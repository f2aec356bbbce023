import WorkflowEngine.Number.Basic
/-!
JSON documents as they stand in a text: the entries of an object keep their order, and a key may
occur more than once.
-/
set_option autoImplicit false

namespace WorkflowEngine

inductive Json where
  | null
  | bool (b : Bool)
  | number (n : Number)
  | string (s : String)
  | array (items : List Json)
  | object (entries : List (String × Json))

namespace Json

mutual
/-- The number of containers around the innermost part. -/
def depth : Json → Nat
  | .array items => depthItems items + 1
  | .object entries => depthEntries entries + 1
  | _ => 0

def depthItems : List Json → Nat
  | [] => 0
  | item :: rest => max item.depth (depthItems rest)

def depthEntries : List (String × Json) → Nat
  | [] => 0
  | (_, item) :: rest => max item.depth (depthEntries rest)
end

mutual
/-- Equality up to the sign of zero. -/
def same : Json → Json → Bool
  | .null, .null => true
  | .bool a, .bool b => a == b
  | .number a, .number b => a.same b
  | .string a, .string b => a == b
  | .array xs, .array ys => sameItems xs ys
  | .object xs, .object ys => sameEntries xs ys
  | _, _ => false

def sameItems : List Json → List Json → Bool
  | [], [] => true
  | x :: xs, y :: ys => x.same y && sameItems xs ys
  | _, _ => false

def sameEntries : List (String × Json) → List (String × Json) → Bool
  | [], [] => true
  | (k, x) :: xs, (l, y) :: ys => k == l && x.same y && sameEntries xs ys
  | _, _ => false
end

def integer (n : UInt64) : Json := .number (.ofUInt64 n)

def ofInt (i : Int) : Json := ((Number.ofInt? i).map Json.number).getD .null

end Json

end WorkflowEngine
