import WorkflowEngine.Failure.Codec
import WorkflowEngine.Proofs.JsonText
import Mathlib
/-!
Only the text of a cancelled outcome is decoded as one. The head of a text tells what it stands
for, whatever comes after it.
-/
set_option autoImplicit false

namespace WorkflowEngine

namespace Json

variable {f : Frame}

/-- The first entry of an object, whatever comes after its value. -/
theorem draftEntries_first (fuel : Nat) {cs mid : List Char} {key : Lexeme String}
    (hkey : lexString f cs = (key, some (':' :: mid))) :
    ∃ more ending rest, draftEntries f (fuel + 1) cs =
      (((key, (draftPart f fuel mid).1) :: more, ending), rest) := by
  have hskip : skipBlanks (':' :: mid) = ':' :: mid := by simp [skipBlanks, isBlank]
  simp only [draftEntries, hkey, hskip]
  split
  · next d hd => exact ⟨_, _, _, by rw [hd]⟩
  · next d rest hd =>
    rw [hd]
    split
    · exact ⟨_, _, _, rfl⟩
    · exact ⟨_, _, _, rfl⟩
    · split <;> exact ⟨_, _, _, rfl⟩
    · exact ⟨_, _, _, rfl⟩

theorem draftPart_first (frame : f.stray = none) (fuel : Nat) {key : String}
    (fits : key.length ≤ f.size) (cs : List Char) :
    ∃ more ending rest, draftPart f (fuel + 2) ('\x7b' :: writeString key (':' :: cs)) =
      (.object ((.of key, (draftPart f fuel cs).1) :: more) ending, rest) := by
  obtain ⟨more, ending, rest, hentries⟩ :=
    draftEntries_first fuel (lexString_writeChars frame fits (':' :: cs))
  refine ⟨more, ending, rest, ?_⟩
  rw [writeString, draftPart_object, hentries]

theorem draftPart_string (frame : f.stray = none) (fuel : Nat) {s : String} (fits : s.length ≤ f.size)
    (rest : List Char) :
    draftPart f (fuel + 1) (writeString s rest) = (.string (.of s), some rest) := by
  rw [writeString, draftPart_scalar (by decide) (by decide) (by decide)]
  simp [draftScalar, lexString_writeChars frame fits rest]

/-- The draft of the text of an object with an entry. -/
theorem ofChars_first (key : String) (item : Json) (entries : List (String × Json)) :
    ∃ fuel more ending rest,
      Draft.ofChars none ((Json.object ((key, item) :: entries)).write []) =
        (.object ((.of key, (draftPart
          ⟨((Json.object ((key, item) :: entries)).write []).length, none⟩ (fuel + 3)
            (item.write (writeEntries entries []))).1) :: more) ending, rest) := by
  have hlength := length_writeChars key.toList (':' :: item.write (writeEntries entries []))
  have fits : key.length ≤ ((Json.object ((key, item) :: entries)).write []).length := by
    rw [String.length_toList] at hlength
    simp only [write, writeString, List.length_cons]
    omega
  obtain ⟨fuel, hfuel⟩ : ∃ fuel,
      2 * ((Json.object ((key, item) :: entries)).write []).length + 2 = fuel + 3 + 2 :=
    ⟨2 * ((Json.object ((key, item) :: entries)).write []).length - 3, by
      simp only [write, writeString, List.length_cons]
      omega⟩
  obtain ⟨more, ending, rest, hpart⟩ :=
    draftPart_first (f := ⟨((Json.object ((key, item) :: entries)).write []).length, none⟩)
      rfl (fuel + 3) fits (item.write (writeEntries entries []))
  refine ⟨fuel, more, ending, rest, ?_⟩
  unfold Draft.ofChars
  rw [hfuel]
  exact hpart

end Json

theorem Except.of_bind_ok {ε α β : Type} {x : Except ε α} {f : α → Except ε β} {b : β}
    (h : (x >>= f) = .ok b) : ∃ a, x = .ok a ∧ f a = .ok b := by
  cases x with
  | error e => cases h
  | ok a => exact ⟨a, rfl, h⟩

namespace Decoder

open Json (Draft Lexeme Ending)

variable {α β : Type} {levels : Nat} {d : Draft} {more : Entries} {ending : Ending} {a : α}

theorem of_map_ok {decoder : Decoder β} {f : β → α} {source : Source}
    (h : decoder.map f source d = .ok a) : ∃ b, decoder source d = .ok b ∧ a = f b := by
  unfold Decoder.map at h
  cases hb : decoder source d with
  | error e =>
    rw [hb] at h
    cases h
  | ok b =>
    rw [hb] at h
    cases h
    exact ⟨b, rfl, rfl⟩

/-- An alternative is decoded by the content of the variant that the first entry names. -/
theorem of_alternative_ok {variants : List (String × Content α)} {name : String}
    {content : Content α} (known : variants.lookup name = some content)
    (h : alternative variants (.text levels) (.object ((.of name, d) :: more) ending) = .ok a) :
    ∃ inner, Source.inside (.text levels) = .ok inner ∧ content.decoder inner d = .ok a := by
  obtain ⟨inner, hinner, h⟩ := Except.of_bind_ok h
  obtain ⟨_, ⟨⟩, h⟩ := Except.of_bind_ok h
  obtain ⟨_, hfind, h⟩ := Except.of_bind_ok h
  simp only [findContent, known] at hfind
  cases hfind
  obtain ⟨b, hb, h⟩ := Except.of_bind_ok h
  obtain ⟨_, -, h⟩ := Except.of_bind_ok h
  cases h
  exact ⟨inner, hinner, hb⟩

theorem of_close_ok {keys : SplitKeys} {a b : α} {es : Entries}
    (h : keys.close ending a es = .ok b) : b = a := by
  obtain ⟨entry, -, h⟩ := Except.of_bind_ok h
  cases entry with
  | none =>
    cases h
    rfl
  | some entry => cases h

/-- A variant that stands before its content is decoded by it. -/
theorem of_split_ok {title : String} {keys : SplitKeys} {variants : Decoder (SplitVariant α)}
    {variant : SplitVariant α} {source : Source} (required : variant.absent = none)
    (known : ∀ inner, variants inner d = .ok variant)
    (h : split title keys variants source (.object ((.of keys.tag, d) :: more) ending) = .ok a) :
    ∃ inner content, variant.content inner content = .ok a := by
  obtain ⟨inner, -, h⟩ := Except.of_bind_ok h
  have hnext : keys.next ending ((.of keys.tag, d) :: more) = .ok (some (true, d, more)) := by
    simp [SplitKeys.next, Lexeme.of, ofReading, Except.mapError, bind, Except.bind]
    rfl
  unfold SplitKeys.decode at h
  rw [hnext] at h
  obtain ⟨_, ⟨⟩, h⟩ := Except.of_bind_ok h
  obtain ⟨_, hknown, h⟩ := Except.of_bind_ok h
  cases hknown.symm.trans (known inner)
  obtain ⟨entry, -, h⟩ := Except.of_bind_ok h
  match entry with
  | none =>
    simp only [required] at h
    cases h
  | some (true, _) => cases h
  | some (false, content, rest) =>
    obtain ⟨b, hb, h⟩ := Except.of_bind_ok h
    cases of_close_ok h
    exact ⟨inner, content, hb⟩

end Decoder

/-- Nothing that was written for an error is decoded as a cancellation. -/
theorem Fault.of_decoder_ok {source : Source} {more : Entries} {ending : Json.Ending} {f : Fault}
    (h : decoder source (.object ((.of "fault", .string (.of "error")) :: more) ending) = .ok f) :
    ∃ e, f = .error e := by
  have known : ∀ inner, variants inner (.string (.of "error")) =
      .ok ⟨WorkflowError.decoder.map .error, none⟩ := fun _ => rfl
  obtain ⟨inner, content, h⟩ := Decoder.of_split_ok rfl known h
  obtain ⟨e, -, he⟩ := Decoder.of_map_ok h
  exact ⟨e, he⟩

namespace Outcome

open Json (Draft Lexeme)

variable {levels : Nat} {d : Draft} {more : Entries} {ending : Json.Ending} {o : Outcome}

theorem ok_of_decoder
    (h : decoder (.text levels) (.object ((.of "Ok", d) :: more) ending) = .ok o) :
    ∃ v, o = .ok v := by
  obtain ⟨inner, -, hv⟩ := Decoder.of_alternative_ok rfl h
  obtain ⟨v, -, ho⟩ := Decoder.of_map_ok hv
  exact ⟨v, ho⟩

theorem error_of_decoder {rest : Entries} {inside : Json.Ending}
    (h : decoder (.text levels)
      (.object ((.of "Err", .object ((.of "fault", .string (.of "error")) :: rest) inside) ::
        more) ending) = .ok o) :
    ∃ e, o = .error (.error e) := by
  obtain ⟨inner, -, ho⟩ := Decoder.of_alternative_ok rfl h
  obtain ⟨f, hf, rfl⟩ := Decoder.of_map_ok ho
  obtain ⟨e, rfl⟩ := Fault.of_decoder_ok hf
  exact ⟨e, rfl⟩

/-- An outcome that is decoded from a text is what its draft is decoded as. -/
theorem of_decode {text : String} (h : decode text = o) (readable : ∀ e, o ≠ .error (.error e)) :
    decoder (.text Json.depthLimit) (Draft.ofChars none text.toList).1 = .ok o := by
  unfold decode at h
  split at h
  · next o' ho =>
    subst h
    obtain ⟨a, ha, h⟩ := Except.of_bind_ok ho
    obtain ⟨_, -, h⟩ := Except.of_bind_ok h
    cases h
    exact ha
  · next e _ => exact absurd h.symm (readable _)

theorem decode_ok_ne_cancelled (v : Value) :
    decode (encode (.ok v)) ≠ .error .cancelled := by
  intro h
  have hd := of_decode h (by simp)
  obtain ⟨fuel, more, ending, rest, hdraft⟩ := Json.ofChars_first "Ok" v.json []
  rw [encode, Json.text, String.toList_ofList, toJson, hdraft] at hd
  obtain ⟨v', hv'⟩ := ok_of_decoder hd
  cases hv'

/-- The draft of an error begins with what kind of fault it is. -/
theorem draft_error {f : Json.Frame} (frame : f.stray = none) (fits : 5 ≤ f.size)
    (e : WorkflowError) (fuel : Nat) (rest : List Char) :
    ∃ more ending, (Json.draftPart f (fuel + 3) ((Fault.error e).toJson.write rest)).1 =
      .object ((.of "fault", .string (.of "error")) :: more) ending := by
  have hfault : "fault".length ≤ f.size := fits
  have herror : "error".length ≤ f.size := fits
  obtain ⟨more, ending, rest', hpart⟩ := Json.draftPart_first frame (fuel + 1) hfault
    ((Json.string "error").write (Json.writeEntries [("error", e.toJson)] rest))
  rw [Json.write, Json.draftPart_string frame _ herror] at hpart
  refine ⟨more, ending, ?_⟩
  rw [Fault.toJson, Json.write, Json.write, hpart]

theorem decode_error_ne_cancelled (e : WorkflowError) :
    decode (encode (.error (.error e))) ≠ .error .cancelled := by
  intro h
  have hd := of_decode h (by simp)
  obtain ⟨fuel, more, ending, rest, hdraft⟩ :=
    Json.ofChars_first "Err" (Fault.error e).toJson []
  have long : 5 ≤ ((Json.object [("Err", (Fault.error e).toJson)]).write []).length := by
    have := Json.length_writeChars "Err".toList
      (':' :: (Fault.error e).toJson.write (Json.writeEntries [] []))
    simp [Json.write, Json.writeString] at this ⊢
    omega
  obtain ⟨more', ending', hfault⟩ := draft_error
    (f := ⟨((Json.object [("Err", (Fault.error e).toJson)]).write []).length, none⟩) rfl long e fuel
    (Json.writeEntries [] [])
  rw [encode, Json.text, String.toList_ofList, toJson, hdraft, hfault] at hd
  obtain ⟨e', he'⟩ := error_of_decoder hd
  cases he'

/-- Only the text of a cancelled outcome is decoded as one. -/
theorem decode_eq_cancelled (h : decode o.encode = .error .cancelled) : o = .error .cancelled := by
  rcases o with (e | -) | v
  · exact absurd h (decode_error_ne_cancelled e)
  · rfl
  · exact absurd h (decode_ok_ne_cancelled v)

end Outcome

end WorkflowEngine
