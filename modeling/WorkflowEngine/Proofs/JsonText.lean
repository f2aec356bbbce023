import Mathlib
import WorkflowEngine.Decoding.Basic
import WorkflowEngine.Store.Command
import WorkflowEngine.Proofs.NumberText
/-!
Reading back the texts of documents. Whatever follows the text of a document is left over by the
draft of it, and the draft is the one that the document has in memory. The bounds of the loops are
twice the length of the text, as one part and one list of parts may stand at the same place.
-/
set_option autoImplicit false

namespace WorkflowEngine.Json

/-! ## Strings -/

theorem hexValue?_digitChar : ∀ n < 16, hexValue? (Nat.digitChar n) = some n := by decide

theorem readHex_code {n : Nat} (h : n < 0x20) (rest : List Char) :
    readHex ('0' :: '0' :: Nat.digitChar (n / 16) :: Nat.digitChar (n % 16) :: rest) =
      .ok (n, rest) := by
  have high := hexValue?_digitChar (n / 16) (by omega)
  have low := hexValue?_digitChar (n % 16) (by omega)
  have zero := hexValue?_digitChar 0 (by decide)
  simp only [readHex, show '0' = Nat.digitChar 0 from rfl, zero, high, low]
  rw [show ((0 * 16 + 0) * 16 + n / 16) * 16 + n % 16 = n by omega]

theorem readUnicode_code {c : Char} (h : c.toNat < 0x20) (rest : List Char) :
    readUnicode ('0' :: '0' :: Nat.digitChar (c.toNat / 16) :: Nat.digitChar (c.toNat % 16) ::
      rest) = .ok (c, rest) := by
  have trailing : isTrailing c.toNat = false := by
    simp only [isTrailing, Bool.and_eq_false_iff, decide_eq_false_iff_not]
    omega
  have leading : isLeading c.toNat = false := by
    simp only [isLeading, Bool.and_eq_false_iff, decide_eq_false_iff_not]
    omega
  unfold readUnicode
  rw [readHex_code h]
  simp [bind, Except.bind, pure, Except.pure, trailing, leading]

/-- An escape is a backslash and a text that is read as the character. -/
theorem readEscape_controlEscape {c : Char} (h : c.toNat < 0x20) (rest : List Char) :
    ∃ code, controlEscape c = '\\' :: code ∧ readEscape (code ++ rest) = .ok (c, rest) ∧
      skipEscape (code ++ rest) = .ok rest := by
  unfold controlEscape
  split
  · next hc => subst hc; exact ⟨_, rfl, rfl, rfl⟩
  split
  · next hc => subst hc; exact ⟨_, rfl, rfl, rfl⟩
  split
  · next hc => subst hc; exact ⟨_, rfl, rfl, rfl⟩
  split
  · next hc => subst hc; exact ⟨_, rfl, rfl, rfl⟩
  split
  · next hc => subst hc; exact ⟨_, rfl, rfl, rfl⟩
  · refine ⟨_, rfl, ?_, ?_⟩
    · exact readUnicode_code h rest
    · have hskip : skipEscape ('u' :: '0' :: '0' :: Nat.digitChar (c.toNat / 16) ::
          Nat.digitChar (c.toNat % 16) :: rest) = (readHex ('0' :: '0' ::
            Nat.digitChar (c.toNat / 16) :: Nat.digitChar (c.toNat % 16) :: rest)).map
              Prod.snd := rfl
      exact hskip.trans (by rw [readHex_code h]; rfl)

theorem readEscape_escape {c : Char} (h : escape c ≠ [c]) (rest : List Char) :
    ∃ code, escape c = '\\' :: code ∧ readEscape (code ++ rest) = .ok (c, rest) ∧
      skipEscape (code ++ rest) = .ok rest := by
  unfold escape at h ⊢
  split
  · next hc => subst hc; exact ⟨_, rfl, rfl, rfl⟩
  split
  · next hc => subst hc; exact ⟨_, rfl, rfl, rfl⟩
  split
  · next hc => exact readEscape_controlEscape hc rest
  · next hq hb hc => simp [hq, hb, hc] at h

/-- A character that stands for itself is none of those that have a meaning in a string. -/
theorem plain_of_escape {c : Char} (h : escape c = [c]) :
    c ≠ '"' ∧ c ≠ '\\' ∧ ¬ c.toNat < 0x20 := by
  refine ⟨?_, ?_, ?_⟩
  · rintro rfl
    exact absurd h (by decide)
  · rintro rfl
    exact absurd h (by decide)
  · intro hc
    obtain ⟨code, hcode, -⟩ := readEscape_controlEscape hc []
    unfold escape at h
    split at h
    · cases h
    split at h
    · cases h
    rw [hcode] at h
    obtain ⟨rfl, -⟩ := List.cons.inj h
    exact absurd hc (by decide)

theorem readChars_writeChars (cs rest : List Char) {fuel : Nat} (enough : cs.length < fuel) :
    readChars fuel (writeChars cs rest) = .ok (cs, rest) ∧
      skipChars fuel (writeChars cs rest) = .ok rest := by
  induction cs generalizing fuel with
  | nil =>
    obtain ⟨fuel, rfl⟩ := Nat.exists_eq_add_of_lt enough
    exact ⟨rfl, rfl⟩
  | cons c cs ih =>
    obtain ⟨fuel, rfl⟩ : ∃ n, fuel = n + 1 := ⟨fuel - 1, by omega⟩
    have enough : cs.length < fuel := by simpa using enough
    obtain ⟨hread, hskip⟩ := ih enough
    by_cases hc : escape c = [c]
    · obtain ⟨hq, hb, hlow⟩ := plain_of_escape hc
      simp [writeChars, hc, readChars, skipChars, hq, hb, hlow, hread, hskip, bind, Except.bind,
        pure, Except.pure]
    · obtain ⟨code, hcode, hre, hse⟩ := readEscape_escape hc (writeChars cs rest)
      have hquote : '\\' ≠ '"' := by decide
      simp [writeChars, hcode, readChars, skipChars, hquote, hre, hse, hread, hskip, bind,
        Except.bind, pure, Except.pure]

variable {f : Frame}

theorem lexString_writeChars (frame : f.stray = none) {s : String} (fits : s.length ≤ f.size)
    (rest : List Char) : lexString f (writeChars s.toList rest) = (.of s, some rest) := by
  have enough : s.toList.length < f.size + 1 := by
    rw [String.length_toList]
    omega
  obtain ⟨hread, hskip⟩ := readChars_writeChars s.toList rest enough
  unfold lexString
  rw [hread, hskip]
  simp [bind, Except.bind, Frame.check, frame, Lexeme.of]

theorem length_writeChars (cs rest : List Char) :
    cs.length + rest.length < (writeChars cs rest).length := by
  induction cs with
  | nil => simp [writeChars]
  | cons c cs ih =>
    have hescape : 0 < (escape c).length := by
      by_cases hc : escape c = [c]
      · simp [hc]
      · obtain ⟨code, hcode, -⟩ := readEscape_escape hc []
        simp [hcode]
    simp only [writeChars, List.length_append, List.length_cons]
    omega

/-! ## Documents -/

mutual
/-- Whether the text of every number in a document stands for the number. -/
def Exact : Json → Prop
  | .number n => n.Exact
  | .array items => ItemsExact items
  | .object entries => EntriesExact entries
  | _ => True

def ItemsExact : List Json → Prop
  | [] => True
  | item :: rest => item.Exact ∧ ItemsExact rest

def EntriesExact : List (String × Json) → Prop
  | [] => True
  | (_, item) :: rest => item.Exact ∧ EntriesExact rest
end

/-- Whether a part may start here: no blank, and no bracket that closes a list. -/
def Starts (cs : List Char) : Prop := ∃ c rest, cs = c :: rest ∧ isBlank c = false ∧ c ≠ ']'

theorem Starts.skipBlanks {cs : List Char} (h : Starts cs) : skipBlanks cs = cs := by
  obtain ⟨c, rest, rfl, hc, -⟩ := h
  simp [Json.skipBlanks, hc]

theorem starts_number {n : Number} (exact : n.Exact) {rest : List Char}
    (ends : Number.Ends rest) : Starts (n.text ++ rest) ∧
      ∃ c cs, n.text ++ rest = c :: cs ∧ (c = '-' ∨ c.isDigit = true) := by
  obtain ⟨c, cs, hcs, hc⟩ := Number.starts_of_read (exact.read_text ends)
  refine ⟨⟨c, cs, hcs, ?_, ?_⟩, c, cs, hcs, hc⟩
  · cases hb : isBlank c with
    | false => rfl
    | true =>
      simp only [isBlank, Bool.or_eq_true, beq_iff_eq] at hb
      obtain ((rfl | rfl) | rfl) | rfl := hb <;> exact absurd hc (by decide)
  · rintro rfl
    exact absurd hc (by decide)

theorem starts_write (j : Json) (exact : j.Exact) {rest : List Char} (ends : Number.Ends rest) :
    Starts (j.write rest) := by
  have lead : ∀ (c : Char) (cs : List Char), isBlank c = false → c ≠ ']' → Starts (c :: cs) :=
    fun c cs hb hc => ⟨c, cs, rfl, hb, hc⟩
  cases j with
  | null => exact lead 'n' _ (by decide) (by decide)
  | bool b => cases b <;> exact lead _ _ (by decide) (by decide)
  | number n => exact (starts_number exact ends).1
  | string s => exact lead '"' _ (by decide) (by decide)
  | array items => cases items <;> exact lead '[' _ (by decide) (by decide)
  | object entries => cases entries <;> exact lead '\x7b' _ (by decide) (by decide)

theorem ends_writeItems (items : List Json) (rest : List Char) :
    Number.Ends (writeItems items rest) := by
  cases items <;> rintro c ⟨⟩ <;> decide

theorem ends_writeEntries (entries : List (String × Json)) (rest : List Char) :
    Number.Ends (writeEntries entries rest) := by
  cases entries <;> rintro c ⟨⟩ <;> decide

theorem ends_nil : Number.Ends [] := by
  rintro c ⟨⟩

mutual
theorem length_write : (j : Json) → (exact : j.Exact) → (rest : List Char) →
    rest.length < (j.write rest).length
  | .null, _, rest | .bool true, _, rest | .bool false, _, rest => by simp [write]; omega
  | .number n, exact, rest => by
    have hexact : n.Exact := exact
    obtain ⟨c, cs, hcs, -⟩ := Number.starts_of_read (hexact.read_text ends_nil)
    rw [List.append_nil] at hcs
    simp [write, hcs]
  | .string s, _, rest => by
    have := length_writeChars s.toList rest
    simp [write, writeString]
    omega
  | .array [], _, rest => by simp [write]
  | .array (item :: items), exact, rest => by
    have hitem := length_write item exact.1 (writeItems items rest)
    have hitems := length_writeItems items exact.2 rest
    simp [write]
    omega
  | .object [], _, rest => by simp [write]
  | .object ((key, item) :: entries), exact, rest => by
    have hkey := length_writeChars key.toList (':' :: write item (writeEntries entries rest))
    have hitem := length_write item exact.1 (writeEntries entries rest)
    have hentries := length_writeEntries entries exact.2 rest
    simp [write, writeString] at hkey ⊢
    omega

theorem length_writeItems : (items : List Json) → (exact : ItemsExact items) →
    (rest : List Char) → rest.length < (writeItems items rest).length
  | [], _, rest => by simp [writeItems]
  | item :: items, exact, rest => by
    have hitem := length_write item exact.1 (writeItems items rest)
    have hitems := length_writeItems items exact.2 rest
    simp [writeItems]
    omega

theorem length_writeEntries : (entries : List (String × Json)) → (exact : EntriesExact entries) →
    (rest : List Char) → rest.length < (writeEntries entries rest).length
  | [], _, rest => by simp [writeEntries]
  | (key, item) :: entries, exact, rest => by
    have hkey := length_writeChars key.toList (':' :: write item (writeEntries entries rest))
    have hitem := length_write item exact.1 (writeEntries entries rest)
    have hentries := length_writeEntries entries exact.2 rest
    simp [writeEntries, writeString] at hkey ⊢
    omega
end

/-- A text of a single part, which no container opens. -/
theorem draftPart_scalar {fuel : Nat} {c : Char} (blank : isBlank c = false) (hl : c ≠ '[')
    (ho : c ≠ '\x7b') (cs : List Char) :
    draftPart f (fuel + 1) (c :: cs) = draftScalar f (c :: cs) := by
  have hskip : skipBlanks (c :: cs) = c :: cs := by simp [skipBlanks, blank]
  simp only [draftPart, hskip]
  split
  · next heq => exact absurd (List.cons.inj heq).1 hl
  · next heq => exact absurd (List.cons.inj heq).1 ho
  · rfl

theorem draftPart_number {fuel : Nat} {n : Number} (exact : n.Exact) {rest : List Char}
    (ends : Number.Ends rest) :
    draftPart f (fuel + 1) (n.text ++ rest) = (.number (.of n), some rest) := by
  obtain ⟨⟨d, ds, hd, blank, -⟩, c, cs, hcs, hc⟩ := starts_number exact ends
  obtain ⟨rfl, rfl⟩ := List.cons.inj (hd.symm.trans hcs)
  have hne : ∀ x : Char, ¬ (x = '-' ∨ x.isDigit = true) → d ≠ x := by
    rintro x hx rfl
    exact hx hc
  rw [hcs, draftPart_scalar blank (hne _ (by decide)) (hne _ (by decide))]
  simp only [draftScalar, hne 'n' (by decide), hne 't' (by decide), hne 'f' (by decide),
    hne '"' (by decide), hc, if_false, if_true]
  rw [← hcs, lexNumber_text exact ends]

theorem draftPart_array {fuel : Nat} {cs : List Char} (starts : Starts cs) :
    draftPart f (fuel + 1) ('[' :: cs) =
      (.array (draftItems f fuel cs).1.1 (draftItems f fuel cs).1.2, (draftItems f fuel cs).2) := by
  obtain ⟨c, cs, rfl, blank, hc⟩ := starts
  have hskip : skipBlanks ('[' :: c :: cs) = '[' :: c :: cs := by simp [skipBlanks, isBlank]
  have hskip' : skipBlanks (c :: cs) = c :: cs := by simp [skipBlanks, blank]
  simp only [draftPart, hskip, hskip']
  split
  · next heq => cases heq
  · next heq => exact absurd (List.cons.inj heq).1 hc
  · rfl

theorem draftPart_object {fuel : Nat} (cs : List Char) :
    draftPart f (fuel + 1) ('\x7b' :: '"' :: cs) =
      (.object (draftEntries f fuel cs).1.1 (draftEntries f fuel cs).1.2,
        (draftEntries f fuel cs).2) := rfl

theorem draftItems_last {fuel : Nat} {cs rest : List Char} {d : Draft}
    (h : draftPart f fuel cs = (d, some (']' :: rest))) :
    draftItems f (fuel + 1) cs = (([d], .closed), some rest) := by
  simp only [draftItems, h]
  rfl

theorem draftItems_more {fuel : Nat} {cs rest : List Char} {d : Draft} (starts : Starts rest)
    (h : draftPart f fuel cs = (d, some (',' :: rest))) :
    draftItems f (fuel + 1) cs =
      ((d :: (draftItems f fuel rest).1.1, (draftItems f fuel rest).1.2),
        (draftItems f fuel rest).2) := by
  obtain ⟨c, cs, rfl, blank, hc⟩ := starts
  have hskip : skipBlanks (',' :: c :: cs) = ',' :: c :: cs := by simp [skipBlanks, isBlank]
  have hskip' : skipBlanks (c :: cs) = c :: cs := by simp [skipBlanks, blank]
  simp only [draftItems, h, hskip, hskip']
  split
  · next heq => cases heq
  · next heq => exact absurd (List.cons.inj heq).1 hc
  · rfl

theorem draftEntries_last {fuel : Nat} {cs mid rest : List Char} {key : Lexeme String} {d : Draft}
    (hkey : lexString f cs = (key, some (':' :: mid)))
    (h : draftPart f fuel mid = (d, some ('\x7d' :: rest))) :
    draftEntries f (fuel + 1) cs = (([(key, d)], .closed), some rest) := by
  have hskip : skipBlanks (':' :: mid) = ':' :: mid := by simp [skipBlanks, isBlank]
  simp only [draftEntries, hkey, hskip, h]
  rfl

theorem draftEntries_more {fuel : Nat} {cs mid rest : List Char} {key : Lexeme String} {d : Draft}
    (hkey : lexString f cs = (key, some (':' :: mid)))
    (h : draftPart f fuel mid = (d, some (',' :: '"' :: rest))) :
    draftEntries f (fuel + 1) cs =
      (((key, d) :: (draftEntries f fuel rest).1.1, (draftEntries f fuel rest).1.2),
        (draftEntries f fuel rest).2) := by
  have hskip : skipBlanks (':' :: mid) = ':' :: mid := by simp [skipBlanks, isBlank]
  simp only [draftEntries, hkey, hskip, h]
  rfl

mutual
/-- The text of a document is drafted as the document, and what follows is left over. -/
theorem draftPart_write (frame : f.stray = none) : (j : Json) → (exact : j.Exact) →
    {rest : List Char} → (ends : Number.Ends rest) → (fits : (j.write rest).length ≤ f.size) →
    {fuel : Nat} → (enough : 2 * (j.write rest).length ≤ fuel) →
    draftPart f fuel (j.write rest) = (Draft.ofJson j, some rest)
  | j, exact, rest, ends, fits, 0, enough => by
    have := length_write j exact rest
    omega
  | .null, _, _, _, _, fuel + 1, _ | .bool true, _, _, _, _, fuel + 1, _
  | .bool false, _, _, _, _, fuel + 1, _ => rfl
  | .number n, exact, _, ends, _, fuel + 1, _ => draftPart_number exact ends
  | .string s, _, rest, _, fits, fuel + 1, _ => by
    have hlength := length_writeChars s.toList rest
    simp only [write, writeString, List.length_cons, String.length_toList] at fits hlength
    rw [write, writeString, draftPart_scalar (by decide) (by decide) (by decide)]
    have hlex := lexString_writeChars frame (s := s) (by omega) rest
    simp [draftScalar, hlex, Draft.ofJson]
  | .array [], _, _, _, _, fuel + 1, _ => rfl
  | .array (item :: items), exact, rest, _, fits, fuel + 1, enough => by
    simp only [write, List.length_cons] at fits enough ⊢
    have hitems : draftItems f fuel (write item (writeItems items rest)) =
        ((Draft.ofItems (item :: items), .closed), some rest) :=
      draftItems_write frame (item :: items) exact (List.cons_ne_nil _ _) rest
        (Nat.le_of_succ_le fits) (Nat.le_of_succ_le_succ enough)
    rw [draftPart_array (starts_write item exact.1 (ends_writeItems items rest)), hitems]
    rfl
  | .object [], _, _, _, _, fuel + 1, _ => rfl
  | .object ((key, item) :: entries), exact, rest, _, fits, fuel + 1, enough => by
    simp only [write, writeString, List.length_cons] at fits enough ⊢
    have enough' : 2 * (writeChars key.toList
      (':' :: write item (writeEntries entries rest))).length + 1 ≤ fuel := by omega
    have hentries : draftEntries f fuel
        (writeChars key.toList (':' :: write item (writeEntries entries rest))) =
          ((Draft.ofEntries ((key, item) :: entries), .closed), some rest) :=
      draftEntries_write frame ((key, item) :: entries) exact (List.cons_ne_nil _ _) rest
        (Nat.le_of_succ_le (Nat.le_of_succ_le fits)) enough'
    rw [draftPart_object, hentries]
    rfl

/-- The items of an array stand behind the comma that they start with when others are before
them. -/
theorem draftItems_write (frame : f.stray = none) : (items : List Json) →
    (exact : ItemsExact items) → (nonempty : items ≠ []) → (rest : List Char) →
    (fits : (writeItems items rest).tail.length ≤ f.size) → {fuel : Nat} →
    (enough : 2 * (writeItems items rest).tail.length + 1 ≤ fuel) →
    draftItems f fuel (writeItems items rest).tail =
      ((Draft.ofItems items, .closed), some rest)
  | [], _, nonempty, _, _, _, _ => absurd rfl nonempty
  | _ :: _, _, _, _, _, 0, enough => absurd enough (Nat.not_succ_le_zero _)
  | item :: items, exact, _, rest, fits, fuel + 1, enough => by
    simp only [writeItems, List.tail_cons] at fits enough ⊢
    have hitem := draftPart_write frame item exact.1 (ends_writeItems items rest) fits
      (Nat.le_of_succ_le_succ enough)
    have hlength := length_write item exact.1 (writeItems items rest)
    cases items with
    | nil => exact draftItems_last hitem
    | cons next more =>
      simp only [writeItems, List.length_cons] at fits enough hlength
      have fits' : (write next (writeItems more rest)).length ≤ f.size := by omega
      have enough' : 2 * (write next (writeItems more rest)).length + 1 ≤ fuel := by omega
      have hmore : draftItems f fuel (write next (writeItems more rest)) =
          ((Draft.ofItems (next :: more), .closed), some rest) :=
        draftItems_write frame (next :: more) exact.2 (List.cons_ne_nil _ _) rest fits' enough'
      have starts := starts_write next exact.2.1 (ends_writeItems more rest)
      refine (draftItems_more starts hitem).trans ?_
      rw [hmore]
      rfl

/-- The entries of an object stand behind the comma and the quote. -/
theorem draftEntries_write (frame : f.stray = none) : (entries : List (String × Json)) →
    (exact : EntriesExact entries) → (nonempty : entries ≠ []) → (rest : List Char) →
    (fits : ((writeEntries entries rest).drop 2).length ≤ f.size) → {fuel : Nat} →
    (enough : 2 * ((writeEntries entries rest).drop 2).length + 1 ≤ fuel) →
    draftEntries f fuel ((writeEntries entries rest).drop 2) =
      ((Draft.ofEntries entries, .closed), some rest)
  | [], _, nonempty, _, _, _, _ => absurd rfl nonempty
  | _ :: _, _, _, _, _, 0, enough => absurd enough (Nat.not_succ_le_zero _)
  | (key, item) :: entries, exact, _, rest, fits, fuel + 1, enough => by
    simp only [writeEntries, writeString, List.drop_succ_cons, List.drop_zero] at fits enough ⊢
    have hlength := length_writeChars key.toList (':' :: write item (writeEntries entries rest))
    have hwrite := length_write item exact.1 (writeEntries entries rest)
    simp only [List.length_cons, String.length_toList] at hlength
    have hkey := lexString_writeChars frame (s := key) (by omega)
      (':' :: write item (writeEntries entries rest))
    have room : 2 * (write item (writeEntries entries rest)).length ≤ fuel := by omega
    have hitem := draftPart_write frame item exact.1 (ends_writeEntries entries rest)
      (by omega) room
    cases entries with
    | nil => exact draftEntries_last hkey hitem
    | cons next more =>
      simp only [writeEntries, writeString, List.length_cons] at fits enough hlength hwrite
      have fits' : (writeChars next.1.toList
        (':' :: write next.2 (writeEntries more rest))).length ≤ f.size := by omega
      have enough' : 2 * (writeChars next.1.toList
        (':' :: write next.2 (writeEntries more rest))).length + 1 ≤ fuel := by omega
      have hmore : draftEntries f fuel
          (writeChars next.1.toList (':' :: write next.2 (writeEntries more rest))) =
            ((Draft.ofEntries (next :: more), .closed), some rest) :=
        draftEntries_write frame (next :: more) exact.2 (List.cons_ne_nil _ _) rest fits' enough'
      refine (draftEntries_more hkey hitem).trans ?_
      rw [hmore]
      rfl
end

theorem ofChars_write {j : Json} (exact : j.Exact) :
    Draft.ofChars none (j.write []) = (Draft.ofJson j, some []) :=
  draftPart_write rfl j exact ends_nil (Nat.le_refl _) (Nat.le_add_right _ _)

end WorkflowEngine.Json

theorem WorkflowEngine.Bytes.text?_ofText (text : String) : (ofText text).text? = some text := by
  unfold text? ofText
  rw [Array.toArray_toList, String.toUTF8_eq_toByteArray, String.fromUTF8?,
    dif_pos text.isValidUTF8]
  rfl

namespace WorkflowEngine.Decoder

variable {α : Type}

/-- What a text of a document is decoded as depends on the document alone. -/
theorem ofText_text (d : Decoder α) {j : Json} (exact : j.Exact) :
    d.ofText j.text = d (.text Json.depthLimit) (.ofJson j) := by
  unfold ofText ofChars Json.text
  simp only [String.toList_ofList, Json.ofChars_write exact]
  cases d (.text Json.depthLimit) (.ofJson j) <;> rfl

/-- The bytes of a text are decoded as the text. -/
theorem ofBytes_ofText (d : Decoder α) (text : String) :
    d.ofBytes (Bytes.ofText text) = d.ofText text := by
  have htext : String.fromUTF8? ⟨(Bytes.ofText text).toArray⟩ = some text := Bytes.text?_ofText text
  unfold ofBytes
  rw [htext]

end WorkflowEngine.Decoder
