/-!
Finite tables: keys with a value each, in the order in which the keys came.
-/
set_option autoImplicit false

namespace WorkflowEngine

/-- No key occurs twice in a table made by these operations. -/
structure Table (κ : Type) (α : Type) where
  entries : List (κ × α)

namespace Table

variable {κ α : Type} [DecidableEq κ]

def empty : Table κ α := ⟨[]⟩

def size (t : Table κ α) : Nat := t.entries.length

def find (key : κ) : List (κ × α) → Option α
  | [] => none
  | (k, a) :: rest => if k = key then some a else find key rest

def get? (t : Table κ α) (key : κ) : Option α := find key t.entries

def put (key : κ) (a : α) : List (κ × α) → List (κ × α)
  | [] => [(key, a)]
  | (k, b) :: rest => if k = key then (key, a) :: rest else (k, b) :: put key a rest

def insert (t : Table κ α) (key : κ) (a : α) : Table κ α := ⟨put key a t.entries⟩

def drop (key : κ) : List (κ × α) → List (κ × α)
  | [] => []
  | (k, b) :: rest => if k = key then drop key rest else (k, b) :: drop key rest

def erase (t : Table κ α) (key : κ) : Table κ α := ⟨drop key t.entries⟩

@[simp] theorem get?_empty (key : κ) : (empty : Table κ α).get? key = none := rfl

theorem find_put (key k : κ) (a : α) (entries : List (κ × α)) :
    find k (put key a entries) = if key = k then some a else find k entries := by
  induction entries with
  | nil => simp [put, find]
  | cons entry rest ih =>
    obtain ⟨j, b⟩ := entry
    by_cases hj : j = key
    · subst hj
      by_cases hk : j = k <;> simp [put, find, hk]
    · by_cases hk : j = k
      · subst hk
        simp [put, find, hj, Ne.symm hj]
      · simp [put, find, hj, hk, ih]

@[simp] theorem get?_insert (t : Table κ α) (key k : κ) (a : α) :
    (t.insert key a).get? k = if key = k then some a else t.get? k :=
  find_put key k a t.entries

theorem find_drop (key k : κ) (entries : List (κ × α)) :
    find k (drop key entries) = if key = k then none else find k entries := by
  induction entries with
  | nil => simp [drop, find]
  | cons entry rest ih =>
    obtain ⟨j, b⟩ := entry
    by_cases hj : j = key
    · subst hj
      by_cases hk : j = k
      · simpa [drop, hk] using ih
      · simpa [drop, find, hk] using ih
    · by_cases hk : j = k
      · subst hk
        simp [drop, find, hj, Ne.symm hj]
      · simp [drop, find, hj, hk, ih]

@[simp] theorem get?_erase (t : Table κ α) (key k : κ) :
    (t.erase key).get? k = if key = k then none else t.get? k :=
  find_drop key k t.entries

theorem mem_of_find {key : κ} {a : α} {entries : List (κ × α)} (h : find key entries = some a) :
    (key, a) ∈ entries := by
  induction entries with
  | nil => cases h
  | cons entry rest ih =>
    obtain ⟨j, b⟩ := entry
    by_cases hj : j = key
    · simp only [find, hj, if_true, Option.some.injEq] at h
      simp [hj, h]
    · simp only [find, hj, if_false] at h
      exact List.mem_cons_of_mem _ (ih h)

theorem mem_of_get? {t : Table κ α} {key : κ} {a : α} (h : t.get? key = some a) :
    (key, a) ∈ t.entries :=
  mem_of_find h

def total (f : α → Nat) : List (κ × α) → Nat
  | [] => 0
  | (_, a) :: rest => f a + total f rest

/-- The sum of a number for each value. -/
def sum (f : α → Nat) (t : Table κ α) : Nat := total f t.entries

theorem sum_insert_of_some {t : Table κ α} {key : κ} {b : α} (f : α → Nat) (a : α)
    (h : t.get? key = some b) : (t.insert key a).sum f + f b = t.sum f + f a := by
  obtain ⟨entries⟩ := t
  simp only [get?, insert, sum] at h ⊢
  induction entries with
  | nil => simp [find] at h
  | cons entry rest ih =>
    obtain ⟨j, x⟩ := entry
    by_cases hj : j = key
    · simp [find, hj] at h
      simp [put, total, hj, h]
      omega
    · have := ih (by simpa [find, hj] using h)
      simp [put, total, hj]
      omega

theorem sum_insert_of_none {t : Table κ α} {key : κ} (f : α → Nat) (a : α)
    (h : t.get? key = none) : (t.insert key a).sum f = t.sum f + f a := by
  obtain ⟨entries⟩ := t
  simp only [get?, insert, sum] at h ⊢
  induction entries with
  | nil => simp [put, total]
  | cons entry rest ih =>
    obtain ⟨j, x⟩ := entry
    by_cases hj : j = key
    · simp [find, hj] at h
    · have := ih (by simpa [find, hj] using h)
      simp [put, total, hj]
      omega

theorem sum_drop_le (f : α → Nat) (key : κ) (entries : List (κ × α)) :
    total f (drop key entries) ≤ total f entries := by
  induction entries with
  | nil => simp [drop]
  | cons entry rest ih =>
    obtain ⟨j, x⟩ := entry
    by_cases hj : j = key <;> simp [drop, total, hj] <;> omega

theorem sum_erase_of_some {t : Table κ α} {key : κ} {b : α} (f : α → Nat)
    (h : t.get? key = some b) : (t.erase key).sum f + f b ≤ t.sum f := by
  obtain ⟨entries⟩ := t
  simp only [get?, erase, sum] at h ⊢
  induction entries with
  | nil => simp [find] at h
  | cons entry rest ih =>
    obtain ⟨j, x⟩ := entry
    by_cases hj : j = key
    · simp [find, hj] at h
      have := sum_drop_le f key rest
      simp [drop, total, hj, h]
      omega
    · have := ih (by simpa [find, hj] using h)
      simp [drop, total, hj]
      omega

theorem le_sum {t : Table κ α} {key : κ} {a : α} (f : α → Nat) (h : t.get? key = some a) :
    f a ≤ t.sum f := by
  have := sum_erase_of_some f h
  omega

end Table

end WorkflowEngine
