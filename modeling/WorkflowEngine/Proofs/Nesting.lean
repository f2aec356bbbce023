import Mathlib
import WorkflowEngine.Json.Value
import WorkflowEngine.Proofs.JsonText
/-!
How deep the brackets of a text are nested. For the text of a document this is the number of
containers around its innermost part, whatever stands in its strings.
-/
set_option autoImplicit false

namespace WorkflowEngine.Json

/-- Where a character of a text stands: outside of strings, in one, or behind a backslash there. -/
inductive Place where
  | outside
  | inside
  | escaped

/-- The most brackets that are open at once, of which some are open before the text. -/
def nestingFrom : Place → Nat → List Char → Nat
  | _, level, [] => level
  | .outside, level, c :: cs =>
    if c = '"' then nestingFrom .inside level cs
    else if c = '[' ∨ c = '\x7b' then nestingFrom .outside (level + 1) cs
    else if c = ']' ∨ c = '\x7d' then max level (nestingFrom .outside (level - 1) cs)
    else nestingFrom .outside level cs
  | .inside, level, c :: cs =>
    if c = '"' then nestingFrom .outside level cs
    else if c = '\\' then nestingFrom .escaped level cs
    else nestingFrom .inside level cs
  | .escaped, level, _ :: cs => nestingFrom .inside level cs

/-- The most brackets of a text that are open at once; those in strings do not count. -/
def nesting (text : String) : Nat := nestingFrom .outside 0 text.toList

theorem le_nestingFrom (place : Place) (level : Nat) (cs : List Char) :
    level ≤ nestingFrom place level cs := by
  induction cs generalizing place level with
  | nil => cases place <;> exact Nat.le_refl level
  | cons c cs ih =>
    cases place with
    | outside =>
      simp only [nestingFrom]
      split
      · exact ih _ _
      split
      · exact Nat.le_of_succ_le (ih _ _)
      split
      · exact Nat.le_max_left _ _
      · exact ih _ _
    | inside =>
      simp only [nestingFrom]
      split
      · exact ih _ _
      split
      · exact ih _ _
      · exact ih _ _
    | escaped => exact ih _ _

/-! ## Numbers and strings -/

/-- The characters of numbers. -/
def isNumeric (c : Char) : Bool := c.isDigit || ['-', '+', '.', 'e', 'E'].contains c

/-- Whether what is left of a text follows characters of a number. -/
def NumberBefore (cs rest : List Char) : Prop :=
  ∃ before, cs = before ++ rest ∧ ∀ c ∈ before, isNumeric c = true

namespace NumberBefore

variable {cs mid rest : List Char}

theorem refl (cs : List Char) : NumberBefore cs cs := ⟨[], rfl, fun _ h => nomatch h⟩

theorem cons {c : Char} (hc : isNumeric c = true) (h : NumberBefore cs rest) :
    NumberBefore (c :: cs) rest := by
  obtain ⟨before, rfl, numeric⟩ := h
  exact ⟨c :: before, rfl, List.forall_mem_cons.2 ⟨hc, numeric⟩⟩

theorem trans (h : NumberBefore cs mid) (h' : NumberBefore mid rest) : NumberBefore cs rest := by
  obtain ⟨before, rfl, numeric⟩ := h
  obtain ⟨more, rfl, numeric'⟩ := h'
  exact ⟨before ++ more, (List.append_assoc _ _ _).symm, List.forall_mem_append.2
    ⟨numeric, numeric'⟩⟩

theorem of_skipDigits (h : skipDigits cs = some rest) : NumberBefore cs rest := by
  unfold skipDigits at h
  split at h
  · cases h
    refine ⟨cs.takeWhile Char.isDigit, List.takeWhile_append_dropWhile.symm, fun c hc => ?_⟩
    simp [isNumeric, List.mem_takeWhile_imp hc]
  · cases h

theorem of_skipExponent (h : skipExponent cs = some rest) : NumberBefore cs rest := by
  unfold skipExponent at h
  split at h
  · split at h
    · exact cons (by decide) (cons (by decide) (of_skipDigits h))
    · exact cons (by decide) (cons (by decide) (of_skipDigits h))
    · exact cons (by decide) (of_skipDigits h)
  · split at h
    · exact cons (by decide) (cons (by decide) (of_skipDigits h))
    · exact cons (by decide) (cons (by decide) (of_skipDigits h))
    · exact cons (by decide) (of_skipDigits h)
  · cases h
    exact refl cs

theorem of_skipFraction (h : skipFraction cs = some rest) : NumberBefore cs rest := by
  unfold skipFraction at h
  split at h
  · obtain ⟨mid, hdigits, hexponent⟩ := Option.bind_eq_some_iff.1 h
    exact cons (by decide) ((of_skipDigits hdigits).trans (of_skipExponent hexponent))
  · exact of_skipExponent h

theorem of_skipMagnitude (h : skipMagnitude cs = some rest) : NumberBefore cs rest := by
  unfold skipMagnitude at h
  split at h
  · split at h
    · cases h
    · exact cons (by decide) (of_skipFraction h)
  · obtain ⟨mid, hdigits, hfraction⟩ := Option.bind_eq_some_iff.1 h
    exact (of_skipDigits hdigits).trans (of_skipFraction hfraction)

theorem of_skipNumber (h : skipNumber cs = some rest) : NumberBefore cs rest := by
  unfold skipNumber at h
  split at h
  · exact cons (by decide) (of_skipMagnitude h)
  · exact of_skipMagnitude h

end NumberBefore

variable {level : Nat} {rest : List Char}

theorem nestingFrom_numeric {cs : List Char} (numeric : ∀ c ∈ cs, isNumeric c = true) :
    nestingFrom .outside level (cs ++ rest) = nestingFrom .outside level rest := by
  induction cs with
  | nil => rfl
  | cons c cs ih =>
    obtain ⟨hc, hcs⟩ := List.forall_mem_cons.1 numeric
    have hne : ∀ d : Char, isNumeric d = false → c ≠ d := by
      rintro d hd rfl
      exact Bool.noConfusion (hd.symm.trans hc)
    simp [nestingFrom, hne '"' (by decide), hne '[' (by decide), hne '\x7b' (by decide),
      hne ']' (by decide), hne '\x7d' (by decide), ih hcs]

theorem nestingFrom_number {n : Number} (exact : n.Exact) :
    nestingFrom .outside level (n.text ++ rest) = nestingFrom .outside level rest := by
  have hread := exact.read_text ends_nil
  rw [List.append_nil] at hread
  obtain ⟨before, htext, numeric⟩ := NumberBefore.of_skipNumber (skipNumber_of_read hread)
  rw [List.append_nil] at htext
  exact nestingFrom_numeric (htext ▸ numeric)

theorem nestingFrom_controlEscape {c : Char} (h : c.toNat < 0x20) (cs : List Char) :
    nestingFrom .inside level (controlEscape c ++ cs) = nestingFrom .inside level cs := by
  have digit : ∀ n < 16, Nat.digitChar n ≠ '"' ∧ Nat.digitChar n ≠ '\\' := by decide
  unfold controlEscape
  split
  · rfl
  split
  · rfl
  split
  · rfl
  split
  · rfl
  split
  · rfl
  · have high := digit (c.toNat / 16) (by omega)
    have low := digit (c.toNat % 16) (by omega)
    simp [nestingFrom, high, low]

theorem nestingFrom_escape (c : Char) (cs : List Char) :
    nestingFrom .inside level (escape c ++ cs) = nestingFrom .inside level cs := by
  unfold escape
  split
  · rfl
  split
  · rfl
  split
  · next hc => exact nestingFrom_controlEscape hc cs
  · next hq hb _ => simp [nestingFrom, hq, hb]

theorem nestingFrom_writeChars (cs : List Char) :
    nestingFrom .inside level (writeChars cs rest) = nestingFrom .outside level rest := by
  induction cs with
  | nil => simp [writeChars, nestingFrom]
  | cons c cs ih => rw [writeChars, nestingFrom_escape, ih]

mutual
/-- The brackets of a document are nested as deep as its containers. -/
theorem nestingFrom_write : (j : Json) → (exact : j.Exact) → (level : Nat) → (rest : List Char) →
    nestingFrom .outside level (j.write rest) =
      max (level + j.depth) (nestingFrom .outside level rest)
  | .null, _, level, rest | .bool true, _, level, rest | .bool false, _, level, rest => by
    simp [write, nestingFrom, depth, le_nestingFrom]
  | .number n, exact, level, rest =>
    (nestingFrom_number exact).trans (Nat.max_eq_right (le_nestingFrom _ _ _)).symm
  | .string s, _, level, rest => by
    simp [write, writeString, nestingFrom, nestingFrom_writeChars, depth, le_nestingFrom]
  | .array [], _, level, rest => by
    simp [write, nestingFrom, depth, depthItems]
  | .array (item :: items), exact, level, rest => by
    simp [write, nestingFrom, depth, depthItems, nestingFrom_write item exact.1,
      nestingFrom_writeItems items exact.2]
    omega
  | .object [], _, level, rest => by
    simp [write, nestingFrom, depth, depthEntries]
  | .object ((key, item) :: entries), exact, level, rest => by
    simp [write, writeString, nestingFrom, nestingFrom_writeChars, depth, depthEntries,
      nestingFrom_write item exact.1, nestingFrom_writeEntries entries exact.2]
    omega

theorem nestingFrom_writeItems : (items : List Json) → (exact : ItemsExact items) →
    (level : Nat) → (rest : List Char) →
    nestingFrom .outside (level + 1) (writeItems items rest) =
      max (level + 1 + depthItems items) (nestingFrom .outside level rest)
  | [], _, level, rest => by simp [writeItems, nestingFrom, depthItems]
  | item :: items, exact, level, rest => by
    simp [writeItems, nestingFrom, depthItems, nestingFrom_write item exact.1,
      nestingFrom_writeItems items exact.2]
    omega

theorem nestingFrom_writeEntries : (entries : List (String × Json)) →
    (exact : EntriesExact entries) → (level : Nat) → (rest : List Char) →
    nestingFrom .outside (level + 1) (writeEntries entries rest) =
      max (level + 1 + depthEntries entries) (nestingFrom .outside level rest)
  | [], _, level, rest => by simp [writeEntries, nestingFrom, depthEntries]
  | (key, item) :: entries, exact, level, rest => by
    simp [writeEntries, writeString, nestingFrom, nestingFrom_writeChars, depthEntries,
      nestingFrom_write item exact.1, nestingFrom_writeEntries entries exact.2]
    omega
end

theorem nesting_text {j : Json} (exact : j.Exact) : nesting j.text = j.depth := by
  unfold nesting text
  rw [String.toList_ofList, nestingFrom_write j exact]
  simp [nestingFrom]

end WorkflowEngine.Json
