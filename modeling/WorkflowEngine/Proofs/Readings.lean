import WorkflowEngine.Decoding.Variant
import WorkflowEngine.Proofs.OutcomeText
/-!
How deep a document is that was read of a draft: as deep as the draft, for which there was room.
`Source.Caps` bounds what a source lets a decoder see of a draft.
-/
set_option autoImplicit false

namespace WorkflowEngine

open Json (Draft Lexeme Room)

/-! ## Documents that were read -/

namespace Json

theorem depthEntries_addEntry_le (key : String) (item : Json) (entries : List (String × Json)) :
    depthEntries (addEntry key item entries) ≤ max item.depth (depthEntries entries) := by
  induction entries with
  | nil => exact Nat.le_refl _
  | cons entry rest ih =>
    obtain ⟨next, other⟩ := entry
    unfold addEntry
    split
    · exact Nat.le_refl _
    split
    · exact Nat.le_max_right _ _
    · simp only [depthEntries]
      omega

mutual
/-- Of two entries with one key only one is left, so a canonical form is no deeper. -/
theorem depth_canonical_le : (j : Json) → j.canonical.depth ≤ j.depth
  | .null | .bool _ | .number _ | .string _ => Nat.le_refl _
  | .array items => Nat.succ_le_succ (depthItems_canonicalItems_le items)
  | .object entries => Nat.succ_le_succ (depthEntries_canonicalEntries_le entries)

theorem depthItems_canonicalItems_le : (items : List Json) →
    depthItems (canonicalItems items) ≤ depthItems items
  | [] => Nat.le_refl _
  | item :: rest => by
    have first := depth_canonical_le item
    have others := depthItems_canonicalItems_le rest
    simp only [canonicalItems, depthItems]
    omega

theorem depthEntries_canonicalEntries_le : (entries : List (String × Json)) →
    depthEntries (canonicalEntries entries) ≤ depthEntries entries
  | [] => Nat.le_refl _
  | (key, item) :: rest => by
    have added := depthEntries_addEntry_le key item.canonical (canonicalEntries rest)
    have first := depth_canonical_le item
    have others := depthEntries_canonicalEntries_le rest
    simp only [canonicalEntries, depthEntries]
    omega
end

theorem eq_null_of_canonical {j : Json} (h : j.canonical = .null) : j = .null := by
  cases j with
  | null => rfl
  | bool | number | string | array | object => cases h

theorem depthItems_map_le {α : Type} {f : α → Json} {as : List α} {n : Nat}
    (h : ∀ a ∈ as, (f a).depth ≤ n) : depthItems (as.map f) ≤ n := by
  induction as with
  | nil => exact Nat.zero_le n
  | cons a as ih =>
    obtain ⟨first, others⟩ := List.forall_mem_cons.1 h
    exact Nat.max_le.2 ⟨first, ih others⟩

/-- Whether a draft of some depth fits into the room that is left. -/
def Room.Fits (room : Room) (depth : Nat) : Prop := ∀ levels ∈ room, depth ≤ levels

namespace Room

variable {room inner : Room} {m n : Nat}

theorem fits_max : room.Fits (max m n) ↔ room.Fits m ∧ room.Fits n := by
  simp only [Fits, Nat.max_le, forall_and]

theorem fits_zero (room : Room) : room.Fits 0 := fun levels _ => Nat.zero_le levels

theorem fits_of_inside (hinside : room.inside = .ok inner) (h : inner.Fits n) :
    room.Fits (n + 1) := by
  unfold Room.inside at hinside
  split at hinside
  · rintro _ ⟨⟩
  · cases hinside
  · cases hinside
    rintro _ ⟨⟩
    exact Nat.succ_le_succ (h _ rfl)

end Room

namespace Draft

mutual
/-- A document that was read is as deep as its draft, for which there was room. -/
theorem depth_of_read {room : Room} : (d : Draft) → {j : Json} → (h : d.read room = .ok j) →
    j.depth = d.depth ∧ room.Fits d.depth
  | .absent _, _, h | .misspelt _, _, h => nomatch h
  | .null, _, h | .bool _, _, h => by
    cases h
    exact ⟨rfl, room.fits_zero⟩
  | .number n, _, h => by
    cases hn : n.read with
    | error cause =>
      rw [read, hn] at h
      cases h
    | ok n =>
      rw [read, hn] at h
      cases h
      exact ⟨rfl, room.fits_zero⟩
  | .string s, _, h => by
    cases hs : s.read with
    | error cause =>
      rw [read, hs] at h
      cases h
    | ok s =>
      rw [read, hs] at h
      cases h
      exact ⟨rfl, room.fits_zero⟩
  | .array items ending, _, h => by
    obtain ⟨inner, hinside, h⟩ := Except.of_bind_ok h
    obtain ⟨xs, hitems, h⟩ := Except.of_bind_ok h
    obtain ⟨_, -, h⟩ := Except.of_bind_ok h
    cases h
    obtain ⟨same, fits⟩ := depth_of_readItems items hitems
    exact ⟨congrArg (· + 1) same, Room.fits_of_inside hinside fits⟩
  | .object entries ending, _, h => by
    obtain ⟨inner, hinside, h⟩ := Except.of_bind_ok h
    obtain ⟨es, hentries, h⟩ := Except.of_bind_ok h
    obtain ⟨_, -, h⟩ := Except.of_bind_ok h
    cases h
    obtain ⟨same, fits⟩ := depth_of_readEntries entries hentries
    exact ⟨congrArg (· + 1) same, Room.fits_of_inside hinside fits⟩

theorem depth_of_readItems {room : Room} : (ds : List Draft) → {js : List Json} →
    (h : readItems room ds = .ok js) →
    Json.depthItems js = depthItems ds ∧ room.Fits (depthItems ds)
  | [], _, h => by
    cases h
    exact ⟨rfl, room.fits_zero⟩
  | d :: rest, _, h => by
    obtain ⟨j, hj, h⟩ := Except.of_bind_ok h
    obtain ⟨js, hjs, h⟩ := Except.of_bind_ok h
    cases h
    obtain ⟨same, fits⟩ := depth_of_read d hj
    obtain ⟨same', fits'⟩ := depth_of_readItems rest hjs
    exact ⟨congrArg₂ max same same', Room.fits_max.2 ⟨fits, fits'⟩⟩

theorem depth_of_readEntries {room : Room} : (ds : List (Lexeme String × Draft)) →
    {es : List (String × Json)} → (h : readEntries room ds = .ok es) →
    Json.depthEntries es = depthEntries ds ∧ room.Fits (depthEntries ds)
  | [], _, h => by
    cases h
    exact ⟨rfl, room.fits_zero⟩
  | (key, d) :: rest, _, h => by
    obtain ⟨name, -, h⟩ := Except.of_bind_ok h
    obtain ⟨j, hj, h⟩ := Except.of_bind_ok h
    obtain ⟨es, hes, h⟩ := Except.of_bind_ok h
    cases h
    obtain ⟨same, fits⟩ := depth_of_read d hj
    obtain ⟨same', fits'⟩ := depth_of_readEntries rest hes
    exact ⟨congrArg₂ max same same', Room.fits_max.2 ⟨fits, fits'⟩⟩
end

theorem eq_null_of_read {room : Room} {d : Draft} (h : d.read room = .ok .null) : d = .null := by
  cases d with
  | null => rfl
  | absent cause | misspelt cause | bool b => cases h
  | number n =>
    unfold read at h
    cases hn : n.read <;> rw [hn] at h <;> cases h
  | string s =>
    unfold read at h
    cases hs : s.read <;> rw [hs] at h <;> cases h
  | array items ending | object entries ending =>
    obtain ⟨_, -, h⟩ := Except.of_bind_ok h
    obtain ⟨_, -, h⟩ := Except.of_bind_ok h
    obtain ⟨_, -, h⟩ := Except.of_bind_ok h
    cases h

end Draft

end Json

/-! ## Sources -/

namespace Source

/-- Whether what is read of a draft is at most `n` containers deep: either the draft is, or it
stands in a text in which no more may be opened. -/
def Caps (source : Source) (depth n : Nat) : Prop := depth ≤ n ∨ source = .text n

namespace Caps

variable {source inner : Source} {k m n : Nat} {d : Draft} {j : Json} {u : Unit}

theorem mono (h : source.Caps m n) (le : k ≤ m) : source.Caps k n := h.imp_left le.trans

theorem inside (h : source.Caps (m + 1) n) (opens : source.inside = .ok inner) :
    ∃ k, n = k + 1 ∧ inner.Caps m k := by
  cases h with
  | inl le => exact ⟨n - 1, by omega, .inl (by omega)⟩
  | inr text =>
    subst text
    cases n with
    | zero => cases opens
    | succ n =>
      cases opens
      exact ⟨n, rfl, .inr rfl⟩

/-- What was read whole is within the bound itself. -/
theorem read (h : source.Caps d.depth n) (hread : d.read source.room = .ok j) : d.depth ≤ n := by
  cases h with
  | inl le => exact le
  | inr text =>
    subst text
    exact (Draft.depth_of_read d hread).2 n rfl

theorem keep (h : source.Caps d.depth n) (hkeep : source.keep d = .ok u) : d.depth ≤ n := by
  cases h with
  | inl le => exact le
  | inr text =>
    subst text
    unfold Source.keep at hkeep
    cases hread : d.read (Source.room (.text n)) with
    | error cause =>
      simp only [hread] at hkeep
      cases hkeep
    | ok j => exact read (.inr rfl) hread

end Caps

end Source

end WorkflowEngine
