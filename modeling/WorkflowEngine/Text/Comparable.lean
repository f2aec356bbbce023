/-!
Texts without what differs from run to run: identifiers are numbered by their first appearance,
and the places that messages about a text name are left out.
-/
set_option autoImplicit false

namespace WorkflowEngine.Text

/-- Whether a character may stand at a place of an identifier. -/
def fitsIdentifier (c : Char) (place : Nat) : Bool :=
  if place = 8 ∨ place = 13 ∨ place = 18 ∨ place = 23 then c == '-'
  else c.isDigit || ('a' ≤ c && c ≤ 'f')

/-- The identifier that a text starts with: 36 characters, hyphens among them. -/
def identifier? (cs : List Char) : Option (List Char) :=
  let first := cs.take 36
  if first.length = 36 ∧ first.zipIdx.all (fun (c, place) => fitsIdentifier c place) then some first
  else none

def numberedName (n : Nat) : List Char := ("<id-" ++ toString (n + 1) ++ ">").toList

/-- Numbers identifiers; `skip` characters belong to one that has been replaced. -/
def numberFrom (ids : List (List Char)) : Nat → List Char → List Char
  | _, [] => []
  | skip + 1, _ :: cs => numberFrom ids skip cs
  | 0, c :: cs =>
    match identifier? (c :: cs) with
    | some id =>
      match ids.idxOf? id with
      | some n => numberedName n ++ numberFrom ids 35 cs
      | none => numberedName ids.length ++ numberFrom (ids ++ [id]) 35 cs
    | none => c :: numberFrom ids 0 cs

def numberIdentifiers (cs : List Char) : List Char := numberFrom [] 0 cs

/-- The rest of a text after a word and digits. -/
def afterNumber? (word cs : List Char) : Option (List Char) :=
  if word.isPrefixOf cs then
    let rest := cs.drop word.length
    let more := rest.dropWhile Char.isDigit
    if more.length < rest.length then some more else none
  else none

/-- The number of characters of the place that a text starts with. -/
def placeLength? (cs : List Char) : Option Nat := do
  let rest ← afterNumber? " at line ".toList cs
  let rest ← afterNumber? " column ".toList rest
  return cs.length - rest.length

/-- Leaves out places; `skip` characters belong to one. -/
def withoutPlacesFrom : Nat → List Char → List Char
  | _, [] => []
  | skip + 1, _ :: cs => withoutPlacesFrom skip cs
  | 0, c :: cs =>
    match placeLength? (c :: cs) with
    | some n => withoutPlacesFrom (n - 1) cs
    | none => c :: withoutPlacesFrom 0 cs

def withoutPlaces (s : String) : String := String.ofList (withoutPlacesFrom 0 s.toList)

end WorkflowEngine.Text
