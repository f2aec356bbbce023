import WorkflowEngine.Proofs.Nesting
/-!
How deep drafts are. The containers of a draft were opened by brackets of its text, so it is no
deeper than these are nested, whatever else stands in the text and wherever it breaks off.
-/
set_option autoImplicit false

namespace WorkflowEngine.Json

variable {level : Nat} {cs rest : List Char}

/-! ## Parts without brackets -/

/-- The characters that change the place or the level outside of strings. -/
def isStructural (c : Char) : Bool := ['"', '[', ']', '\x7b', '\x7d'].contains c

theorem nestingFrom_plain {c : Char} (plain : isStructural c = false) (cs : List Char) :
    nestingFrom .outside level (c :: cs) = nestingFrom .outside level cs := by
  simp only [isStructural, List.contains_eq_mem, List.mem_cons, List.not_mem_nil, or_false,
    decide_eq_false_iff_not, not_or] at plain
  simp [nestingFrom, plain]

theorem nestingFrom_skipBlanks (cs : List Char) :
    nestingFrom .outside level (skipBlanks cs) = nestingFrom .outside level cs := by
  induction cs with
  | nil => rfl
  | cons c cs ih =>
    unfold skipBlanks at ih ⊢
    rw [List.dropWhile_cons]
    split
    · next blank =>
      have plain : isStructural c = false := by
        simp only [isBlank, Bool.or_eq_true, beq_iff_eq] at blank
        rcases blank with ((rfl | rfl) | rfl) | rfl <;> decide
      rw [ih, nestingFrom_plain plain]
    · rfl

theorem plain_of_hexValue? {c : Char} {n : Nat} (h : hexValue? c = some n) :
    c ≠ '"' ∧ c ≠ '\\' := by
  have known : ∀ d : Char, hexValue? d = none → c ≠ d := by
    rintro d unknown rfl
    cases unknown.symm.trans h
  exact ⟨known '"' (by decide), known '\\' (by decide)⟩

theorem nestingFrom_readHex {n : Nat} (h : readHex cs = .ok (n, rest)) :
    nestingFrom .inside level cs = nestingFrom .inside level rest := by
  unfold readHex at h
  split at h
  · split at h
    · next ha hb hc hd =>
      cases h
      simp [nestingFrom, plain_of_hexValue? ha, plain_of_hexValue? hb, plain_of_hexValue? hc,
        plain_of_hexValue? hd]
    · cases h
  · cases h

theorem nestingFrom_skipEscape (h : skipEscape cs = .ok rest) :
    nestingFrom .escaped level cs = nestingFrom .inside level rest := by
  unfold skipEscape at h
  split at h
  · cases h
  split at h
  · cases h
    rfl
  split at h
  · next after _ _ _ =>
    cases hcode : readHex after with
    | error cause =>
      rw [hcode] at h
      cases h
    | ok code =>
      rw [hcode] at h
      cases h
      exact nestingFrom_readHex hcode
  · cases h

theorem nestingFrom_skipChars {fuel : Nat} (h : skipChars fuel cs = .ok rest) :
    nestingFrom .inside level cs = nestingFrom .outside level rest := by
  induction fuel generalizing cs with
  | zero => cases h
  | succ fuel ih =>
    cases cs with
    | nil => cases h
    | cons c cs =>
      simp only [skipChars] at h
      split at h
      · next quote =>
        cases h
        simp [nestingFrom, quote]
      next quote =>
      split at h
      · next backslash =>
        cases hescape : skipEscape cs with
        | error cause =>
          rw [hescape] at h
          cases h
        | ok after =>
          rw [hescape] at h
          simp [nestingFrom, backslash, nestingFrom_skipEscape hescape, ih h]
      next backslash =>
      split at h
      · cases h
      · simp [nestingFrom, quote, backslash, ih h]

theorem nestingFrom_lexString {f : Frame} {key : Lexeme String}
    (h : lexString f cs = (key, some rest)) :
    nestingFrom .inside level cs = nestingFrom .outside level rest := by
  unfold lexString at h
  split at h
  · next hskip =>
    cases h
    exact nestingFrom_skipChars hskip
  · cases h

theorem nestingFrom_lexNumber {n : Lexeme Number} (h : lexNumber cs = (n, some rest)) :
    nestingFrom .outside level cs = nestingFrom .outside level rest := by
  unfold lexNumber at h
  split at h
  · next hskip =>
    cases h
    obtain ⟨before, rfl, numeric⟩ := NumberBefore.of_skipNumber hskip
    exact nestingFrom_numeric numeric
  · cases h

theorem nestingFrom_readIdent {letters : List Char}
    (plain : letters.all (fun c => !isStructural c) = true) (h : readIdent letters cs = .ok rest) :
    nestingFrom .outside level cs = nestingFrom .outside level rest := by
  induction letters generalizing cs with
  | nil =>
    cases h
    rfl
  | cons c letters ih =>
    simp only [List.all_cons, Bool.and_eq_true, Bool.not_eq_true'] at plain
    cases cs with
    | nil => cases h
    | cons d cs =>
      simp only [readIdent] at h
      split at h
      · next same =>
        subst same
        rw [nestingFrom_plain plain.1, ih plain.2 h]
      · cases h

/-! ## Drafts -/

/-- Whether a text with `nesting` brackets open at once has room for a part of some depth that
starts behind `level` open ones, and for what follows the part. -/
def Covers (nesting level depth : Nat) (rest : Option (List Char)) : Prop :=
  level + depth ≤ nesting ∧ ∀ after ∈ rest, nestingFrom .outside level after ≤ nesting

namespace Covers

variable {nesting depth : Nat}

theorem cutOff (h : level + depth ≤ nesting) : Covers nesting level depth none :=
  ⟨h, fun _ none => nomatch none⟩

theorem flat (place : Place) (cs : List Char) :
    Covers (nestingFrom place level cs) level 0 none := .cutOff (le_nestingFrom _ _ _)

end Covers

theorem draftLiteral_covers {d : Draft} {c : Char} {letters : List Char} (flat : d.depth = 0)
    (plain : (c :: letters).all (fun c => !isStructural c) = true) (level : Nat)
    (cs : List Char) :
    Covers (nestingFrom .outside level (c :: cs)) level (draftLiteral d letters cs).1.depth
      (draftLiteral d letters cs).2 := by
  simp only [List.all_cons, Bool.and_eq_true, Bool.not_eq_true'] at plain
  rw [nestingFrom_plain plain.1]
  unfold draftLiteral
  split
  · next rest hread =>
    rw [nestingFrom_readIdent plain.2 hread, flat]
    refine ⟨le_nestingFrom _ _ _, ?_⟩
    rintro _ ⟨⟩
    exact Nat.le_refl _
  · exact .flat _ _

theorem draftScalar_covers (f : Frame) (level : Nat) (cs : List Char) :
    Covers (nestingFrom .outside level cs) level (draftScalar f cs).1.depth
      (draftScalar f cs).2 := by
  unfold draftScalar
  split
  · exact .flat _ _
  next c rest =>
  split
  · next letter =>
    exact letter ▸ draftLiteral_covers rfl (by decide) _ _
  split
  · next letter =>
    exact letter ▸ draftLiteral_covers rfl (by decide) _ _
  split
  · next letter =>
    exact letter ▸ draftLiteral_covers rfl (by decide) _ _
  split
  · next quote =>
    cases hlex : lexString f rest with
    | mk s after =>
      cases after with
      | none => exact .flat _ _
      | some after =>
        refine ⟨le_nestingFrom _ _ _, ?_⟩
        rintro _ ⟨⟩
        rw [quote, nestingFrom, if_pos rfl, nestingFrom_lexString hlex]
  split
  · cases hlex : lexNumber (c :: rest) with
    | mk n after =>
      cases after with
      | none => exact .flat _ _
      | some after =>
        refine ⟨le_nestingFrom _ _ _, ?_⟩
        rintro _ ⟨⟩
        rw [nestingFrom_lexNumber hlex]
  · exact .flat _ _

theorem nestingFrom_comma (cs : List Char) :
    nestingFrom .outside level (',' :: cs) = nestingFrom .outside level cs :=
  nestingFrom_plain (by decide) cs

/-- A closing bracket leaves what follows it one level further out. -/
theorem Covers.closed {c : Char} (closes : c = ']' ∨ c = '\x7d') (cs : List Char) :
    Covers (nestingFrom .outside (level + 1) (c :: cs)) level 1 (some cs) := by
  refine ⟨le_nestingFrom _ _ _, ?_⟩
  rintro _ ⟨⟩
  rcases closes with rfl | rfl
  · exact Nat.le_max_right _ _
  · exact Nat.le_max_right _ _

namespace Covers

variable {nesting before depth depths : Nat} {mid after : Option (List Char)}

/-- A part and what stands behind it in the same container. -/
theorem next (part : Covers nesting (level + 1) depth (some rest))
    (others : Covers (nestingFrom .outside (level + 1) rest) level (depths + 1) after) :
    Covers nesting level (max depth depths + 1) after := by
  have fits := part.2 rest rfl
  have deepest := part.1
  have others' := others.1
  exact ⟨by omega, fun r hr => (others.2 r hr).trans fits⟩

/-- A part behind which the bracket of the container stands. -/
theorem ends {c : Char} {cs : List Char} (part : Covers nesting (level + 1) depth (some rest))
    (closes : c = ']' ∨ c = '\x7d') (h : skipBlanks rest = c :: cs) :
    Covers nesting level (max depth 0 + 1) (some cs) := by
  have last : Covers (nestingFrom .outside (level + 1) rest) level (0 + 1) (some cs) := by
    rw [← nestingFrom_skipBlanks rest, h]
    exact .closed closes cs
  exact part.next last

theorem last (part : Covers nesting (level + 1) depth mid) :
    Covers nesting level (max depth 0 + 1) none := by
  have deepest := part.1
  exact .cutOff (by omega)

end Covers

mutual
theorem draftPart_covers (f : Frame) : (fuel level : Nat) → (cs : List Char) →
    Covers (nestingFrom .outside level cs) level (draftPart f fuel cs).1.depth
      (draftPart f fuel cs).2
  | 0, level, cs => .flat _ _
  | fuel + 1, level, cs => by
    rw [← nestingFrom_skipBlanks cs]
    unfold draftPart
    split
    · next rest opens =>
      rw [opens]
      show Covers (nestingFrom .outside (level + 1) rest) _ _ _
      rw [← nestingFrom_skipBlanks rest]
      split
      · exact .cutOff (le_nestingFrom _ _ _)
      · next closes =>
        rw [closes]
        exact .closed (.inl rfl) _
      · exact draftItems_covers f fuel level _
    · next rest opens =>
      rw [opens]
      show Covers (nestingFrom .outside (level + 1) rest) _ _ _
      rw [← nestingFrom_skipBlanks rest]
      split
      · exact .cutOff (le_nestingFrom _ _ _)
      · next closes =>
        rw [closes]
        exact .closed (.inr rfl) _
      · next key =>
        rw [key]
        exact draftEntries_covers f fuel level _
      · exact .cutOff (le_nestingFrom _ _ _)
    · exact draftScalar_covers f level _

theorem draftItems_covers (f : Frame) : (fuel level : Nat) → (cs : List Char) →
    Covers (nestingFrom .outside (level + 1) cs) level
      (Draft.depthItems (draftItems f fuel cs).1.1 + 1) (draftItems f fuel cs).2
  | 0, level, cs => .cutOff (le_nestingFrom _ _ _)
  | fuel + 1, level, cs => by
    have part := draftPart_covers f fuel (level + 1) cs
    unfold draftItems
    split
    · next hpart =>
      rw [hpart] at part
      exact part.last
    next d rest hpart =>
    rw [hpart] at part
    split
    · exact part.last
    · next after hafter => exact part.ends (.inl rfl) hafter
    · next after hafter =>
      split
      · exact part.last
      · exact part.last
      · refine part.next ?_
        rw [← nestingFrom_skipBlanks rest, hafter, nestingFrom_comma,
          ← nestingFrom_skipBlanks after]
        exact draftItems_covers f fuel level _
    · exact part.last

theorem draftEntries_covers (f : Frame) : (fuel level : Nat) → (cs : List Char) →
    Covers (nestingFrom .inside (level + 1) cs) level
      (Draft.depthEntries (draftEntries f fuel cs).1.1 + 1) (draftEntries f fuel cs).2
  | 0, level, cs => .cutOff (le_nestingFrom _ _ _)
  | fuel + 1, level, cs => by
    unfold draftEntries
    split
    · exact .cutOff (le_nestingFrom _ _ _)
    next key rest hkey =>
    rw [nestingFrom_lexString hkey, ← nestingFrom_skipBlanks rest]
    split
    · exact .cutOff (le_nestingFrom _ _ _)
    · next rest hcolon =>
      rw [hcolon, nestingFrom_plain (by decide)]
      have part := draftPart_covers f fuel (level + 1) rest
      split
      · next hpart =>
        rw [hpart] at part
        exact part.last
      next d rest hpart =>
      rw [hpart] at part
      split
      · exact part.last
      · next after hafter => exact part.ends (.inr rfl) hafter
      · next after hafter =>
        split
        · exact part.last
        · exact part.last
        · next more hmore =>
          refine part.next ?_
          rw [← nestingFrom_skipBlanks rest, hafter, nestingFrom_comma,
            ← nestingFrom_skipBlanks after, hmore]
          exact draftEntries_covers f fuel level _
        · exact part.last
      · exact part.last
    · exact .cutOff (le_nestingFrom _ _ _)
end

/-- A draft is no deeper than the brackets of its text are nested. -/
theorem depth_ofChars_le (stray : Option Char) (cs : List Char) :
    (Draft.ofChars stray cs).1.depth ≤ nestingFrom .outside 0 cs := by
  have covers := draftPart_covers ⟨cs.length, stray⟩ (2 * cs.length + 2) 0 cs
  exact Nat.zero_add (Draft.depth _) ▸ covers.1

end WorkflowEngine.Json
