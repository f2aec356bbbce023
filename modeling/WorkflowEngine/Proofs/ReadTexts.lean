import WorkflowEngine.Proofs.Decoders
import WorkflowEngine.Proofs.OutcomeText
/-!
Texts that are read as documents. Blanks, escapes and the forms of numbers leave no trace in the
draft of such a text, so that a decoder sees the document alone.
-/
set_option autoImplicit false

namespace WorkflowEngine.Json

/-! ## Drafts without a trace of the text -/

/-- Whether a part is nothing but its value, if it has one. -/
def Lexeme.Settled {α : Type} (s : Lexeme α) : Prop := ∀ a, s.read = .ok a → s = .of a

theorem Lexeme.settled_of_skipped {α : Type} (read : Except SyntaxError α) :
    Lexeme.Settled ⟨read, none⟩ := by
  rintro a rfl
  rfl

namespace Draft

/-- Whether a draft is nothing but its document, if it can be read. -/
def Settled (d : Draft) : Prop := ∀ room j, d.read room = .ok j → d = .ofJson j

theorem settled_null : Settled .null := by
  rintro _ _ ⟨⟩
  rfl

theorem settled_bool (b : Bool) : Settled (.bool b) := by
  rintro _ _ ⟨⟩
  rfl

theorem settled_string {s : Lexeme String} (h : s.Settled) : Settled (.string s) := by
  intro room j hj
  rw [read] at hj
  cases hread : s.read with
  | error cause =>
    rw [hread] at hj
    cases hj
  | ok text =>
    rw [hread] at hj
    cases hj
    rw [h text hread]
    rfl

theorem settled_number {n : Lexeme Number} (h : n.Settled) : Settled (.number n) := by
  intro room j hj
  rw [read] at hj
  cases hread : n.read with
  | error cause =>
    rw [hread] at hj
    cases hj
  | ok number =>
    rw [hread] at hj
    cases hj
    rw [h number hread]
    rfl

theorem ofItems_of_settled {room : Room} {items : List Draft} {js : List Json}
    (h : ∀ d ∈ items, d.Settled) (read : readItems room items = .ok js) :
    items = ofItems js := by
  induction items generalizing js with
  | nil =>
    cases read
    rfl
  | cons d rest ih =>
    obtain ⟨first, later⟩ := List.forall_mem_cons.1 h
    obtain ⟨j, hj, read⟩ := Except.of_bind_ok read
    obtain ⟨others, hothers, read⟩ := Except.of_bind_ok read
    cases read
    rw [ofItems, ← first _ j hj, ← ih later hothers]

theorem settled_array {items : List Draft} (h : ∀ d ∈ items, d.Settled) :
    Settled (.array items .closed) := by
  intro room j hj
  obtain ⟨inner, -, hj⟩ := Except.of_bind_ok hj
  obtain ⟨js, hjs, hj⟩ := Except.of_bind_ok hj
  cases hj
  rw [ofJson, ← ofItems_of_settled h hjs]

theorem ofEntries_of_settled {room : Room} {entries : List (Lexeme String × Draft)}
    {es : List (String × Json)} (h : ∀ e ∈ entries, e.1.Settled ∧ e.2.Settled)
    (read : readEntries room entries = .ok es) : entries = ofEntries es := by
  induction entries generalizing es with
  | nil =>
    cases read
    rfl
  | cons entry rest ih =>
    obtain ⟨key, d⟩ := entry
    obtain ⟨⟨keyed, first⟩, later⟩ := List.forall_mem_cons.1 h
    obtain ⟨name, hname, read⟩ := Except.of_bind_ok read
    obtain ⟨j, hj, read⟩ := Except.of_bind_ok read
    obtain ⟨others, hothers, read⟩ := Except.of_bind_ok read
    cases read
    rw [ofEntries, ← keyed name hname, ← first _ j hj, ← ih later hothers]

theorem settled_object {entries : List (Lexeme String × Draft)}
    (h : ∀ e ∈ entries, e.1.Settled ∧ e.2.Settled) : Settled (.object entries .closed) := by
  intro room j hj
  obtain ⟨inner, -, hj⟩ := Except.of_bind_ok hj
  obtain ⟨es, hes, hj⟩ := Except.of_bind_ok hj
  cases hj
  rw [ofJson, ← ofEntries_of_settled h hes]

end Draft

/-! ## Drafts of texts that end -/

variable {f : Frame} {cs rest : List Char} {d : Draft}

theorem settled_lexString {s : Lexeme String} (h : lexString f cs = (s, some rest)) :
    s.Settled := by
  unfold lexString at h
  split at h
  · cases h
    exact Lexeme.settled_of_skipped _
  · cases h

theorem settled_lexNumber {n : Lexeme Number} (h : lexNumber cs = (n, some rest)) :
    n.Settled := by
  unfold lexNumber at h
  split at h
  · cases h
    exact Lexeme.settled_of_skipped _
  · cases h

theorem eq_of_draftLiteral {d' : Draft} {letters : List Char}
    (h : draftLiteral d letters cs = (d', some rest)) : d' = d := by
  unfold draftLiteral at h
  split at h
  · cases h
    rfl
  · cases h

theorem settled_draftScalar (h : draftScalar f cs = (d, some rest)) : d.Settled := by
  unfold draftScalar at h
  split at h
  · cases h
  · next c cs =>
    split at h
    · exact eq_of_draftLiteral h ▸ Draft.settled_null
    split at h
    · exact eq_of_draftLiteral h ▸ Draft.settled_bool true
    split at h
    · exact eq_of_draftLiteral h ▸ Draft.settled_bool false
    split at h
    · obtain ⟨rfl, hrest⟩ := Prod.mk.inj h
      exact Draft.settled_string (settled_lexString (Prod.ext rfl hrest))
    split at h
    · obtain ⟨rfl, hrest⟩ := Prod.mk.inj h
      exact Draft.settled_number (settled_lexNumber (Prod.ext rfl hrest))
    · cases h

/-- What the loops over a text find, if they get to the end of it. -/
structure SettledTo (f : Frame) (fuel : Nat) : Prop where
  part : ∀ {cs rest d}, draftPart f fuel cs = (d, some rest) → d.Settled
  items : ∀ {cs rest ds ending}, draftItems f fuel cs = ((ds, ending), some rest) →
    ending = .closed ∧ ∀ d ∈ ds, d.Settled
  entries : ∀ {cs rest es ending}, draftEntries f fuel cs = ((es, ending), some rest) →
    ending = .closed ∧ ∀ e ∈ es, e.1.Settled ∧ e.2.Settled

theorem settledTo (f : Frame) (fuel : Nat) : SettledTo f fuel := by
  -- The loops call one another with less fuel, so what each finds is shown of all three at once.
  induction fuel with
  | zero =>
    refine ⟨?_, ?_, ?_⟩
    · intro cs rest d h
      cases h
    · intro cs rest ds ending h
      cases h
    · intro cs rest es ending h
      cases h
  | succ fuel ih =>
    refine ⟨?part, ?items, ?entries⟩
    case part =>
      intro cs rest d h
      unfold draftPart at h
      split at h
      · split at h
        · cases h
        · cases h
          exact Draft.settled_array (List.forall_mem_nil _)
        · obtain ⟨rfl, hrest⟩ := Prod.mk.inj h
          obtain ⟨closed, settled⟩ := ih.items (Prod.ext (Prod.ext rfl rfl) hrest)
          exact closed ▸ Draft.settled_array settled
      · split at h
        · cases h
        · cases h
          exact Draft.settled_object (List.forall_mem_nil _)
        · obtain ⟨rfl, hrest⟩ := Prod.mk.inj h
          obtain ⟨closed, settled⟩ := ih.entries (Prod.ext (Prod.ext rfl rfl) hrest)
          exact closed ▸ Draft.settled_object settled
        · cases h
      · exact settled_draftScalar h
    case items =>
      intro cs rest ds ending h
      unfold draftItems at h
      split at h
      · cases h
      · next d rest' hpart =>
        have first := ih.part hpart
        split at h
        · cases h
        · cases h
          exact ⟨rfl, by simpa using first⟩
        · split at h
          · cases h
          · cases h
          · obtain ⟨hds, hrest⟩ := Prod.mk.inj h
            obtain ⟨rfl, rfl⟩ := Prod.mk.inj hds
            obtain ⟨closed, settled⟩ := ih.items (Prod.ext (Prod.ext rfl rfl) hrest)
            exact ⟨closed, List.forall_mem_cons.2 ⟨first, settled⟩⟩
        · cases h
    case entries =>
      intro cs rest es ending h
      unfold draftEntries at h
      split at h
      · cases h
      · next key rest' hkey =>
        have keyed := settled_lexString hkey
        split at h
        · cases h
        · split at h
          · cases h
          · next d rest' hpart =>
            have first := ih.part hpart
            split at h
            · cases h
            · cases h
              exact ⟨rfl, by simpa using ⟨keyed, first⟩⟩
            · split at h
              · cases h
              · cases h
              · obtain ⟨hes, hrest⟩ := Prod.mk.inj h
                obtain ⟨rfl, rfl⟩ := Prod.mk.inj hes
                obtain ⟨closed, settled⟩ := ih.entries (Prod.ext (Prod.ext rfl rfl) hrest)
                exact ⟨closed, List.forall_mem_cons.2 ⟨⟨keyed, first⟩, settled⟩⟩
              · cases h
            · cases h
        · cases h

/-- The draft of a text that is read is that of its document, and only blanks follow it. -/
theorem ofChars_of_read {text : String} {j : Json} (h : Json.read text = .ok j) :
    j.depth ≤ depthLimit ∧ ∃ rest, Draft.ofChars none text.toList = (.ofJson j, rest) ∧
      checkEnd rest = .ok () := by
  unfold Json.read at h
  cases hdraft : Draft.ofChars none text.toList with
  | mk d rest =>
    rw [hdraft] at h
    obtain ⟨i, hi, h⟩ := Except.of_bind_ok h
    obtain ⟨_, ended, h⟩ := Except.of_bind_ok h
    cases h
    cases rest with
    | none => cases ended
    | some rest =>
      obtain rfl := (settledTo _ _).part hdraft _ j hi
      rw [Draft.read_ofJson_within] at hi
      split at hi
      · next within => exact ⟨within, some rest, rfl, ended⟩
      · cases hi

end WorkflowEngine.Json

/-- A decoder sees of a text that is read the document alone. -/
theorem WorkflowEngine.Decoder.ofText_of_read {α : Type} (d : Decoder α) {text : String} {j : Json}
    (h : Json.read text = .ok j) : d.ofText text = d (.text Json.depthLimit) (.ofJson j) := by
  obtain ⟨-, rest, hdraft, ended⟩ := Json.ofChars_of_read h
  unfold ofText ofChars
  simp only [hdraft, ended]
  cases d (.text Json.depthLimit) (.ofJson j) <;> rfl
