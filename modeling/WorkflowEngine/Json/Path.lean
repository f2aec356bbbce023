import WorkflowEngine.Json.Basic
/-!
Parts of documents by key, by index and by dotted path. What is not there is null. A reference,
an object with `$ref` as its only key, stands for a part of a labelled document.
-/
set_option autoImplicit false

namespace WorkflowEngine.Json

def has : Json → String → Bool
  | .object es, key => (es.lookup key).isSome
  | _, _ => false

def entry : Json → String → Json
  | .object es, key => (es.lookup key).getD .null
  | _, _ => .null

def items : Json → List Json
  | .array xs => xs
  | _ => []

def item (j : Json) (i : Nat) : Json := j.items[i]?.getD .null

/-- A number that counts something. -/
def count? : Json → Option Nat
  | .number (.integer i _) => if 0 ≤ i then some i.toNat else none
  | _ => none

/-- Numbers in a path are indices of arrays. -/
def part (j : Json) : List String → Json
  | [] => j
  | name :: rest =>
    match j with
    | .array xs => part ((name.toNat?.bind fun i => xs[i]?).getD .null) rest
    | j => part (j.entry name) rest

/-- The part of a labelled document that a path names. -/
def lookup (known : List (String × Json)) (path : String) : Json :=
  match path.splitOn "." with
  | label :: rest => ((List.lookup label known).getD .null).part rest
  | [] => .null

mutual
/-- Puts parts of labelled documents in the places of references. -/
def resolve (known : List (String × Json)) : Json → Json
  | .object [("$ref", .string path)] => lookup known path
  | .object es => .object (resolveEntries known es)
  | .array xs => .array (resolveItems known xs)
  | j => j

def resolveItems (known : List (String × Json)) : List Json → List Json
  | [] => []
  | j :: rest => resolve known j :: resolveItems known rest

def resolveEntries (known : List (String × Json)) : List (String × Json) → List (String × Json)
  | [] => []
  | (key, j) :: rest => (key, resolve known j) :: resolveEntries known rest
end

end WorkflowEngine.Json
