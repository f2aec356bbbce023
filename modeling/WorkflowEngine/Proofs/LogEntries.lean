import WorkflowEngine.Log.Lines
import WorkflowEngine.Proofs.Decoders
import WorkflowEngine.Proofs.JsonText
/-!
The texts of log entries. An identifier is read back from its text, and so is an entry whose time
is; no text of an entry has a line break in it, whatever its worker and its message are.
-/
set_option autoImplicit false

namespace WorkflowEngine

/-! ## Identifiers -/

namespace Uuid

variable {cs : List Char} {c : Char}

theorem groups_of_notMem (h : '-' ∉ cs) : groups cs = [cs] := by
  induction cs with
  | nil => rfl
  | cons c cs ih =>
    simp only [List.mem_cons, not_or] at h
    simp only [groups, ih h.2, if_neg (Ne.symm h.1)]

theorem groups_append (h : '-' ∉ cs) (rest : List Char) :
    groups (cs ++ '-' :: rest) = cs :: groups rest := by
  induction cs with
  | nil => rfl
  | cons c cs ih =>
    simp only [List.mem_cons, not_or] at h
    simp only [List.cons_append, groups, ih h.2, if_neg (Ne.symm h.1)]

theorem hexNumber_append (cs cs' : List Char) (n : Nat) :
    hexNumber (cs ++ cs') n = (hexNumber cs n).bind (hexNumber cs') := by
  induction cs generalizing n with
  | nil => rfl
  | cons c cs ih =>
    simp only [List.cons_append, hexNumber]
    cases Json.hexValue? c with
    | none => rfl
    | some d => exact ih _

variable (u : Uuid)

theorem hexValue?_digitAt (i : Nat) :
    Json.hexValue? (u.digitAt i) = some (u.bits.toNat >>> (4 * (31 - i)) % 16) :=
  Json.hexValue?_digitChar _ (Nat.mod_lt _ (by decide))

theorem length_digits (first count : Nat) : (u.digits first count).length = count := by
  simp [digits]

theorem notMem_digits {c : Char} (h : Json.hexValue? c = none) (first count : Nat) :
    c ∉ u.digits first count := by
  intro hc
  obtain ⟨i, -, rfl⟩ := List.mem_map.1 hc
  exact nomatch (u.hexValue?_digitAt _).symm.trans h

theorem digits_succ (first count : Nat) :
    u.digits first (count + 1) = u.digits first count ++ [u.digitAt (first + count)] := by
  simp [digits, List.range_succ]

/-- The first digits are those of the number without its last ones. -/
theorem hexNumber_digits {count : Nat} (h : count ≤ 32) :
    hexNumber (u.digits 0 count) 0 = some (u.bits.toNat >>> (4 * (32 - count))) := by
  induction count with
  | zero =>
    have small : u.bits.toNat >>> 128 = 0 := by
      rw [Nat.shiftRight_eq_div_pow]
      exact Nat.div_eq_of_lt u.bits.isLt
    exact congrArg some small.symm
  | succ count ih =>
    have place : 4 * (32 - count) = 4 * (31 - count) + 4 := by omega
    rw [digits_succ, hexNumber_append, ih (by omega), Nat.zero_add]
    simp only [Option.bind_some, hexNumber, hexValue?_digitAt, place, Nat.shiftRight_add,
      show 32 - (count + 1) = 31 - count by omega]
    rw [Nat.shiftRight_eq_div_pow _ 4]
    exact congrArg some (Nat.div_add_mod' _ 16)

theorem groups_chars : groups u.chars =
    [u.digits 0 8, u.digits 8 4, u.digits 12 4, u.digits 16 4, u.digits 20 12] := by
  have apart : ∀ first count, '-' ∉ u.digits first count := u.notMem_digits (by decide)
  simp only [chars, List.append_assoc, List.cons_append, groups_append (apart _ _),
    groups_of_notMem (apart _ _)]

theorem ofGroups?_chars : ofGroups? u.chars = some u := by
  have all : [u.digits 0 8, u.digits 8 4, u.digits 12 4, u.digits 16 4, u.digits 20 12].flatten =
      u.digits 0 32 := rfl
  have number := u.hexNumber_digits (Nat.le_refl 32)
  simp [ofGroups?, groups_chars, groupLengths, length_digits, all, ofDigits?, number]

/-- What is printed stands alone: neither braces nor a mark are around it. -/
theorem unwrap_chars : unwrap u.chars = (u.chars, 0, true) := by
  have first : ∃ rest, u.chars = u.digitAt 0 :: rest := ⟨_, rfl⟩
  obtain ⟨rest, hchars⟩ := first
  have notBrace : u.digitAt 0 ≠ '\x7b' := by
    intro h
    exact nomatch (u.hexValue?_digitAt 0).symm.trans (congrArg Json.hexValue? h)
  have notMark : (u.digitAt 0).toLower ≠ 'u' := by
    have : ∀ n < 16, (Nat.digitChar n).toLower ≠ 'u' := by decide
    exact this _ (Nat.mod_lt _ (by decide))
  unfold unwrap
  rw [hchars, if_neg, if_neg]
  · intro h
    exact notMark (List.cons.inj h).1
  · rintro ⟨h, -⟩
    exact notBrace (Option.some.inj h)

theorem parse_text : parse u.text = .ok u := by
  have tooLong : ofDigits? u.chars = none := by
    unfold ofDigits?
    rw [if_neg]
    simp [chars, length_digits]
  simp [parse, text, unwrap_chars, tooLong, ofGroups?_chars]

theorem restores_decoder : Uuid.decoder.Restores u.toJson u := by
  intro source _
  simp only [toJson, Json.Draft.ofJson, decoder, Json.Lexeme.of, ofReading, Except.mapError, bind,
    Except.bind, parse_text]
  rfl

/-- Identifiers are told apart by their texts, and so are the files that have their names. -/
theorem text_injective : Function.Injective text := by
  intro u v h
  have parsed := u.parse_text
  rw [h, v.parse_text] at parsed
  exact (Except.ok.inj parsed).symm

end Uuid

/-! ## Times -/

namespace Timestamp

/-- Whether a time is read back from its text. -/
def Exact (t : Timestamp) : Prop := parse t.text = .ok t

instance (t : Timestamp) : Decidable t.Exact := inferInstanceAs (Decidable (parse t.text = .ok t))

theorem Exact.restores_decoder {t : Timestamp} (exact : t.Exact) :
    Timestamp.decoder.Restores t.toJson t := by
  intro source _
  have parsed : parse t.text = .ok t := exact
  simp only [toJson, Json.Draft.ofJson, decoder, Json.Lexeme.of, ofReading, Except.mapError, bind,
    Except.bind, parsed]
  rfl

end Timestamp

/-! ## Texts of one line -/

namespace Json

theorem writeString_append (s : String) (rest more : List Char) :
    writeString s (rest ++ more) = writeString s rest ++ more := by
  have chars : ∀ cs, writeChars cs (rest ++ more) = writeChars cs rest ++ more := by
    intro cs
    induction cs with
    | nil => rfl
    | cons c cs ih => simp only [writeChars, ih, List.append_assoc]
  simp only [writeString, chars, List.cons_append]

mutual
/-- The text of a document does not depend on what follows it. -/
theorem write_append : (j : Json) → (rest more : List Char) →
    j.write (rest ++ more) = j.write rest ++ more
  | .null, _, _ | .bool true, _, _ | .bool false, _, _ => rfl
  | .number n, rest, more => (List.append_assoc n.text rest more).symm
  | .string s, rest, more => writeString_append s rest more
  | .array [], _, _ | .object [], _, _ => rfl
  | .array (item :: items), rest, more => by
    simp only [write, writeItems_append items, write_append item, List.cons_append]
  | .object ((key, item) :: entries), rest, more => by
    simp only [write, writeEntries_append entries, write_append item, ← List.cons_append,
      writeString_append]

theorem writeItems_append : (items : List Json) → (rest more : List Char) →
    writeItems items (rest ++ more) = writeItems items rest ++ more
  | [], _, _ => rfl
  | item :: items, rest, more => by
    simp only [writeItems, writeItems_append items, write_append item, List.cons_append]

theorem writeEntries_append : (entries : List (String × Json)) → (rest more : List Char) →
    writeEntries entries (rest ++ more) = writeEntries entries rest ++ more
  | [], _, _ => rfl
  | (key, item) :: entries, rest, more => by
    simp only [writeEntries, writeEntries_append entries, write_append item, ← List.cons_append,
      writeString_append]
end

variable {rest : List Char}

/-- Whether a text has no control character in it, and so no line break. -/
def OneLine (cs : List Char) : Prop := ∀ c ∈ cs, ¬ c.toNat < 0x20

theorem OneLine.nil : OneLine [] := nofun

theorem OneLine.cons {c : Char} (hc : ¬ c.toNat < 0x20) (h : OneLine rest) : OneLine (c :: rest) :=
  List.forall_mem_cons.2 ⟨hc, h⟩

theorem OneLine.append {cs : List Char} (h : OneLine cs) (h' : OneLine rest) :
    OneLine (cs ++ rest) :=
  List.forall_mem_append.2 ⟨h, h'⟩

theorem OneLine.mono {cs : List Char} (h : OneLine rest) (suffix : cs <:+ rest) : OneLine cs :=
  fun c mem => h c (suffix.subset mem)

theorem OneLine.notMem {c : Char} (h : OneLine rest) (hc : c.toNat < 0x20) : c ∉ rest :=
  fun mem => h c mem hc

theorem oneLine_short {letter : Char} (h : ¬ letter.toNat < 0x20) : OneLine ['\\', letter] :=
  .cons (by decide) (.cons h .nil)

theorem not_control_digitChar : ∀ n < 16, ¬ (Nat.digitChar n).toNat < 0x20 := by decide

/-- The escape of a control character is written in others. -/
theorem oneLine_controlEscape {c : Char} (h : c.toNat < 0x20) : OneLine (controlEscape c) := by
  unfold controlEscape
  split
  · exact oneLine_short (by decide)
  split
  · exact oneLine_short (by decide)
  split
  · exact oneLine_short (by decide)
  split
  · exact oneLine_short (by decide)
  split
  · exact oneLine_short (by decide)
  · have high := not_control_digitChar (c.toNat / 16) (by omega)
    have low := not_control_digitChar (c.toNat % 16) (by omega)
    have mark : OneLine ['\\', 'u'] := oneLine_short (by decide)
    exact mark.append
      (.cons (by decide) (.cons (by decide) (.cons high (.cons low .nil))))

theorem oneLine_escape (c : Char) : OneLine (escape c) := by
  unfold escape
  split
  · exact oneLine_short (by decide)
  split
  · exact oneLine_short (by decide)
  split
  · next hc => exact oneLine_controlEscape hc
  · next hc => exact .cons hc .nil

theorem OneLine.writeChars (h : OneLine rest) (cs : List Char) :
    OneLine (writeChars cs rest) := by
  induction cs with
  | nil => exact .cons (by decide) h
  | cons c cs ih => exact (oneLine_escape c).append ih

theorem OneLine.writeString (h : OneLine rest) (s : String) : OneLine (writeString s rest) :=
  .cons (by decide) (h.writeChars s.toList)

/-- Entries that are strings, by their keys. -/
def stringEntries (fields : List (String × String)) : List (String × Json) :=
  fields.map fun field => (field.1, .string field.2)

theorem OneLine.writeEntries (h : OneLine rest) (fields : List (String × String)) :
    OneLine (writeEntries (stringEntries fields) rest) := by
  induction fields with
  | nil => exact .cons (by decide) h
  | cons field fields ih =>
    exact .cons (by decide) (((ih.writeString field.2).cons (by decide)).writeString field.1)

end Json

/-! ## Entries -/

namespace LogEntry

variable {e : LogEntry}

/-- All fields are written as strings. -/
def fields (e : LogEntry) : List (String × String) :=
  [("job_id", e.job.uuid.text), ("worker", e.worker.name), ("timestamp", e.timestamp.text),
    ("message", e.message)]

theorem oneLine_write (e : LogEntry) : Json.OneLine (e.toJson.write []) :=
  .cons (by decide) ((Json.OneLine.writeEntries .nil e.fields).mono (List.suffix_cons ',' _))

theorem exact_toJson (e : LogEntry) : e.toJson.Exact :=
  ⟨trivial, trivial, trivial, trivial, trivial⟩

theorem restores_decoder (exact : e.timestamp.Exact) :
    LogEntry.decoder.Restores e.toJson e :=
  Decoder.restores_record _ <| Layout.restores_pure LogEntry.mk _
    |>.required rfl (Uuid.restores_decoder e.job.uuid).map
    |>.required rfl (Decoder.restores_string e.worker.name).map
    |>.required rfl exact.restores_decoder
    |>.required rfl (Decoder.restores_string e.message)

end LogEntry

end WorkflowEngine
