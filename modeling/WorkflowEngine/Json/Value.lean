import WorkflowEngine.Json.Printer
import WorkflowEngine.Json.Reader
/-!
Values: documents whose objects have each key once, in ascending order, on every level. Every
document has a value; of two entries with one key the later counts.
-/
set_option autoImplicit false

namespace WorkflowEngine

namespace Json

/-- Whether a key comes before the first one of a list of entries. -/
def before (key : String) : List (String × Json) → Bool
  | [] => true
  | (next, _) :: _ => decide (key < next)

mutual
def isCanonical : Json → Bool
  | .array items => areCanonical items
  | .object entries => entriesCanonical entries
  | _ => true

def areCanonical : List Json → Bool
  | [] => true
  | item :: rest => item.isCanonical && areCanonical rest

def entriesCanonical : List (String × Json) → Bool
  | [] => true
  | (key, item) :: rest => item.isCanonical && before key rest && entriesCanonical rest
end

/-- Puts an entry at its place unless its key is there. -/
def addEntry (key : String) (item : Json) : List (String × Json) → List (String × Json)
  | [] => [(key, item)]
  | (next, other) :: rest =>
    if key < next then (key, item) :: (next, other) :: rest
    else if key = next then (next, other) :: rest
    else (next, other) :: addEntry key item rest

mutual
def canonical : Json → Json
  | .array items => .array (canonicalItems items)
  | .object entries => .object (canonicalEntries entries)
  | j => j

def canonicalItems : List Json → List Json
  | [] => []
  | item :: rest => item.canonical :: canonicalItems rest

/-- A later entry with the same key wins. -/
def canonicalEntries : List (String × Json) → List (String × Json)
  | [] => []
  | (key, item) :: rest => addEntry key item.canonical (canonicalEntries rest)
end

theorem before_of_lt {key next : String} {entries : List (String × Json)} (h : key < next)
    (hb : before next entries = true) : before key entries = true := by
  cases entries with
  | nil => rfl
  | cons entry rest =>
    have hb := of_decide_eq_true hb
    exact decide_eq_true (String.lt_trans h hb)

theorem before_addEntry {key bound : String} {item : Json} {entries : List (String × Json)}
    (h : bound < key) (hb : before bound entries = true) :
    before bound (addEntry key item entries) = true := by
  cases entries with
  | nil => exact decide_eq_true h
  | cons entry rest =>
    unfold addEntry
    split
    · exact decide_eq_true h
    · split
      · exact hb
      · exact hb

theorem entriesCanonical_addEntry {key : String} {item : Json} (hi : item.isCanonical = true)
    (entries : List (String × Json)) (h : entriesCanonical entries = true) :
    entriesCanonical (addEntry key item entries) = true := by
  induction entries with
  | nil => simp [addEntry, entriesCanonical, hi, before]
  | cons entry rest ih =>
    obtain ⟨next, other⟩ := entry
    simp only [entriesCanonical, Bool.and_eq_true] at h
    unfold addEntry
    split
    · next hlt =>
      simp only [entriesCanonical, Bool.and_eq_true]
      exact ⟨⟨hi, decide_eq_true hlt⟩, h⟩
    · split
      · simpa only [entriesCanonical, Bool.and_eq_true] using h
      · next hn he =>
        simp only [entriesCanonical, Bool.and_eq_true]
        refine ⟨⟨h.1.1, before_addEntry ?_ h.1.2⟩, ih h.2⟩
        exact Decidable.byContradiction fun hle =>
          he (String.le_antisymm (String.not_lt.1 hle) (String.not_lt.1 hn))

mutual
theorem isCanonical_canonical : (j : Json) → j.canonical.isCanonical = true
  | .null | .bool _ | .number _ | .string _ => rfl
  | .array items => by
    simp only [canonical, isCanonical]
    exact areCanonical_canonicalItems items
  | .object entries => by
    simp only [canonical, isCanonical]
    exact entriesCanonical_canonicalEntries entries

theorem areCanonical_canonicalItems : (items : List Json) →
    areCanonical (canonicalItems items) = true
  | [] => rfl
  | item :: rest => by
    simp only [canonicalItems, areCanonical, Bool.and_eq_true]
    exact ⟨isCanonical_canonical item, areCanonical_canonicalItems rest⟩

theorem entriesCanonical_canonicalEntries : (entries : List (String × Json)) →
    entriesCanonical (canonicalEntries entries) = true
  | [] => rfl
  | (_, item) :: rest =>
    entriesCanonical_addEntry (isCanonical_canonical item) _
      (entriesCanonical_canonicalEntries rest)
end

end Json

/-- A document in canonical form. -/
structure Value where
  json : Json
  canonical : json.isCanonical = true

namespace Value

def ofJson (j : Json) : Value := ⟨j.canonical, j.isCanonical_canonical⟩

@[ext] theorem ext {v w : Value} (h : v.json = w.json) : v = w := by
  cases v; cases w; simp_all

def null : Value := ⟨.null, rfl⟩

def bool (b : Bool) : Value := ⟨.bool b, rfl⟩

def number (n : Number) : Value := ⟨.number n, rfl⟩

def string (s : String) : Value := ⟨.string s, rfl⟩

def ofUInt64 (n : UInt64) : Value := number (.ofUInt64 n)

theorem areCanonical_map_json (items : List Value) :
    Json.areCanonical (items.map Value.json) = true := by
  induction items with
  | nil => rfl
  | cons v rest ih => simp [Json.areCanonical, v.canonical, ih]

def array (items : List Value) : Value :=
  ⟨.array (items.map Value.json), areCanonical_map_json items⟩

/-- An object with the given entries, the later of two with one key. -/
def object (entries : List (String × Value)) : Value :=
  ofJson (.object (entries.map fun (key, v) => (key, v.json)))

def isNull (v : Value) : Bool :=
  match v.json with
  | .null => true
  | _ => false

theorem eq_null_of_isNull {v : Value} (h : v.isNull = true) : v = .null := by
  obtain ⟨j, canonical⟩ := v
  cases j with
  | null => rfl
  | _ => simp [isNull] at h

theorem canonical_of_mem {items : List Json} (h : Json.areCanonical items = true) {j : Json}
    (hj : j ∈ items) : j.isCanonical = true := by
  induction items with
  | nil => cases hj
  | cons item rest ih =>
    simp only [Json.areCanonical, Bool.and_eq_true] at h
    cases hj with
    | head => exact h.1
    | tail _ hj => exact ih h.2 hj

/-- The items of an array. -/
def items? (v : Value) : Option (List Value) :=
  match v with
  | ⟨.array items, h⟩ => some (items.attach.map fun ⟨j, hj⟩ => ⟨j, canonical_of_mem h hj⟩)
  | _ => none

def string? (v : Value) : Option String :=
  match v.json with
  | .string s => some s
  | _ => none

def bool? (v : Value) : Option Bool :=
  match v.json with
  | .bool b => some b
  | _ => none

def number? (v : Value) : Option Number :=
  match v.json with
  | .number n => some n
  | _ => none

def int64? (v : Value) : Option Int := v.number?.bind Number.int64?

def uint64? (v : Value) : Option UInt64 := v.number?.bind Number.uint64?

/-- The entry of an object. -/
def get? (v : Value) (key : String) : Option Value :=
  match v.json with
  | .object entries => (entries.lookup key).map ofJson
  | _ => none

/-- Equality up to the sign of zero. -/
def same (v w : Value) : Bool := v.json.same w.json

def text (v : Value) : String := v.json.text

def depth (v : Value) : Nat := v.json.depth

end Value

end WorkflowEngine
