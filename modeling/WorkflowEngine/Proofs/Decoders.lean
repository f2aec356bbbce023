import Mathlib
import WorkflowEngine.Decoding.Variant
/-!
Decoding documents that are in memory or were read whole. Their drafts have no faults of form, so
that only a limit of depth can stand in the way. `Decoder.Restores` says that a decoder gives back
the value a document was made of wherever there is room for it; each way to build a decoder from
others has a lemma that passes this on.
-/
set_option autoImplicit false

namespace WorkflowEngine

open Json (Draft Lexeme Ending Room SyntaxError)

/-! ## Documents and their drafts -/

namespace Json

theorem addEntry_of_before {key : String} {entries : List (String × Json)}
    (h : before key entries = true) (item : Json) :
    addEntry key item entries = (key, item) :: entries := by
  cases entries with
  | nil => rfl
  | cons entry rest => exact if_pos (of_decide_eq_true h)

mutual
/-- A document in canonical form is its own canonical form. -/
theorem canonical_of_isCanonical : (j : Json) → (h : j.isCanonical = true) → j.canonical = j
  | .null, _ | .bool _, _ | .number _, _ | .string _, _ => rfl
  | .array items, h => congrArg Json.array (canonicalItems_of_areCanonical items h)
  | .object entries, h => congrArg Json.object (canonicalEntries_of_entriesCanonical entries h)

theorem canonicalItems_of_areCanonical : (items : List Json) → (h : areCanonical items = true) →
    canonicalItems items = items
  | [], _ => rfl
  | item :: rest, h => by
    simp only [areCanonical, Bool.and_eq_true] at h
    rw [canonicalItems, canonical_of_isCanonical item h.1, canonicalItems_of_areCanonical rest h.2]

theorem canonicalEntries_of_entriesCanonical : (entries : List (String × Json)) →
    (h : entriesCanonical entries = true) → canonicalEntries entries = entries
  | [], _ => rfl
  | (key, item) :: rest, h => by
    simp only [entriesCanonical, Bool.and_eq_true] at h
    rw [canonicalEntries, canonical_of_isCanonical item h.1.1,
      canonicalEntries_of_entriesCanonical rest h.2, addEntry_of_before h.1.2]
end

/-- The values of the entries with a key. -/
def valuesAt (key : String) : List (String × Json) → List Json
  | [] => []
  | (name, item) :: rest => if name = key then item :: valuesAt key rest else valuesAt key rest

theorem depth_le_of_mem_valuesAt {key : String} {entries : List (String × Json)} {j : Json}
    (h : j ∈ valuesAt key entries) : j.depth ≤ depthEntries entries := by
  induction entries with
  | nil => cases h
  | cons entry rest ih =>
    obtain ⟨name, item⟩ := entry
    simp only [valuesAt] at h
    simp only [depthEntries]
    split at h
    · cases h with
      | head => exact Nat.le_max_left _ _
      | tail _ h => exact Nat.le_trans (ih h) (Nat.le_max_right _ _)
    · exact Nat.le_trans (ih h) (Nat.le_max_right _ _)

namespace Draft

mutual
@[simp] theorem depth_ofJson : (j : Json) → (ofJson j).depth = j.depth
  | .null | .bool _ | .number _ | .string _ => rfl
  | .array items => congrArg (· + 1) (depthItems_ofItems items)
  | .object entries => congrArg (· + 1) (depthEntries_ofEntries entries)

theorem depthItems_ofItems : (items : List Json) →
    depthItems (ofItems items) = Json.depthItems items
  | [] => rfl
  | item :: rest => congrArg₂ max (depth_ofJson item) (depthItems_ofItems rest)

theorem depthEntries_ofEntries : (entries : List (String × Json)) →
    depthEntries (ofEntries entries) = Json.depthEntries entries
  | [] => rfl
  | (_, item) :: rest => congrArg₂ max (depth_ofJson item) (depthEntries_ofEntries rest)
end

mutual
@[simp] theorem skipFault?_ofJson : (j : Json) → (ofJson j).skipFault? = none
  | .null | .bool _ | .number _ | .string _ => rfl
  | .array items => by
    simp only [ofJson, skipFault?, itemsSkipFault?_ofItems items]
    rfl
  | .object entries => by
    simp only [ofJson, skipFault?, entriesSkipFault?_ofEntries entries]
    rfl

theorem itemsSkipFault?_ofItems : (items : List Json) → itemsSkipFault? (ofItems items) = none
  | [] => rfl
  | item :: rest => by
    rw [ofItems, itemsSkipFault?, skipFault?_ofJson item, itemsSkipFault?_ofItems rest]
    rfl

theorem entriesSkipFault?_ofEntries : (entries : List (String × Json)) →
    entriesSkipFault? (ofEntries entries) = none
  | [] => rfl
  | (_, item) :: rest => by
    rw [ofEntries, entriesSkipFault?, skipFault?_ofJson item, entriesSkipFault?_ofEntries rest]
    rfl
end

mutual
/-- Within a limit, exactly the documents that are no deeper are read. -/
theorem read_ofJson_within (levels : Nat) : (j : Json) →
    (ofJson j).read (some levels) = if j.depth ≤ levels then .ok j else .error .tooDeep
  | .null | .bool _ | .number _ | .string _ => (if_pos (Nat.zero_le levels)).symm
  | .array items => by
    cases levels with
    | zero => rfl
    | succ levels =>
      simp only [ofJson, read, Room.inside, bind, Except.bind, Json.depth,
        Nat.add_le_add_iff_right, readItems_ofItems_within levels items]
      by_cases h : Json.depthItems items ≤ levels
      · simp only [if_pos h]
        rfl
      · simp only [if_neg h]
  | .object entries => by
    cases levels with
    | zero => rfl
    | succ levels =>
      simp only [ofJson, read, Room.inside, bind, Except.bind, Json.depth,
        Nat.add_le_add_iff_right, readEntries_ofEntries_within levels entries]
      by_cases h : Json.depthEntries entries ≤ levels
      · simp only [if_pos h]
        rfl
      · simp only [if_neg h]

theorem readItems_ofItems_within (levels : Nat) : (items : List Json) →
    readItems (some levels) (ofItems items) =
      if Json.depthItems items ≤ levels then .ok items else .error .tooDeep
  | [] => (if_pos (Nat.zero_le levels)).symm
  | item :: rest => by
    simp only [ofItems, readItems, bind, Except.bind, Json.depthItems, Nat.max_le,
      read_ofJson_within levels item, readItems_ofItems_within levels rest]
    by_cases h : item.depth ≤ levels
    · by_cases hr : Json.depthItems rest ≤ levels
      · simp only [h, hr, if_true, and_self]
        rfl
      · simp only [h, hr, if_true, if_false, and_false]
    · simp only [h, if_false, false_and]

theorem readEntries_ofEntries_within (levels : Nat) : (entries : List (String × Json)) →
    readEntries (some levels) (ofEntries entries) =
      if Json.depthEntries entries ≤ levels then .ok entries else .error .tooDeep
  | [] => (if_pos (Nat.zero_le levels)).symm
  | (key, item) :: rest => by
    simp only [ofEntries, readEntries, Lexeme.of, bind, Except.bind, Json.depthEntries, Nat.max_le,
      read_ofJson_within levels item, readEntries_ofEntries_within levels rest]
    by_cases h : item.depth ≤ levels
    · by_cases hr : Json.depthEntries rest ≤ levels
      · simp only [h, hr, if_true, and_self]
        rfl
      · simp only [h, hr, if_true, if_false, and_false]
    · simp only [h, if_false, false_and]
end

end Draft

end Json

@[simp] theorem Value.ofJson_json (v : Value) : Value.ofJson v.json = v :=
  Value.ext (v.json.canonical_of_isCanonical v.canonical)

/-! ## Sources -/

namespace Source

/-- Whether there is room for a document of some depth. -/
def Holds (depth : Nat) : Source → Prop
  | .text levels => depth ≤ levels
  | _ => True

instance (depth : Nat) (source : Source) : Decidable (source.Holds depth) := by
  cases source <;> unfold Holds <;> infer_instance

variable {source : Source} {m n : Nat}

theorem Holds.mono (h : source.Holds n) (le : m ≤ n) : source.Holds m := by
  cases source with
  | text levels => exact Nat.le_trans le h
  | kept | memory | settings => trivial

theorem inside_of_holds (h : source.Holds (n + 1)) :
    ∃ inner, source.inside = .ok inner ∧ inner.Holds n := by
  cases source with
  | text levels =>
    cases levels with
    | zero => exact absurd h (Nat.not_succ_le_zero n)
    | succ levels => exact ⟨.text levels, rfl, Nat.le_of_succ_le_succ h⟩
  | kept => exact ⟨.kept, rfl, trivial⟩
  | memory => exact ⟨.memory, rfl, trivial⟩
  | settings => exact ⟨.settings, rfl, trivial⟩

/-- Where there is no room for an object, it does not open or there is none for its entries. -/
theorem inside_of_not_holds (h : ¬ source.Holds (n + 1)) :
    source.inside = .error (.malformed .tooDeep) ∨
      ∃ inner, source.inside = .ok inner ∧ ¬ inner.Holds n := by
  cases source with
  | text levels =>
    cases levels with
    | zero => exact .inl rfl
    | succ levels =>
      exact .inr ⟨.text levels, rfl, fun hn => h (Nat.succ_le_succ hn)⟩
  | kept | memory | settings => exact absurd trivial h

theorem read_ofJson (source : Source) (j : Json) :
    (Draft.ofJson j).read source.room =
      if source.Holds j.depth then .ok j else .error .tooDeep := by
  cases source with
  | text levels => exact Draft.read_ofJson_within levels j
  | kept | memory | settings => exact (Draft.read_ofJson j).trans (if_pos trivial).symm

theorem keep_ofJson (source : Source) (j : Json) :
    source.keep (Draft.ofJson j) =
      if source.Holds j.depth then .ok () else .error (.malformed .tooDeep) := by
  cases source with
  | text levels =>
    unfold keep
    rw [read_ofJson]
    by_cases h : (Source.text levels).Holds j.depth
    · rw [if_pos h, if_pos h]
      rfl
    · rw [if_neg h, if_neg h]
      rfl
  | kept | memory | settings => rfl

end Source

namespace Decoder

variable {α β : Type} {d : Decoder α} {j : Json} {a : α}

/-- Whether a document is decoded as a value wherever there is room for it. -/
def Restores (d : Decoder α) (j : Json) (a : α) : Prop :=
  ∀ source : Source, source.Holds j.depth → d source (.ofJson j) = .ok a

theorem restores_value (v : Value) : Decoder.value.Restores v.json v := by
  intro source h
  unfold Decoder.value
  rw [Source.read_ofJson, if_pos h]
  exact congrArg Except.ok v.ofJson_json

theorem restores_string (s : String) : Decoder.string.Restores (.string s) s := fun _ _ => rfl

theorem restores_integer {low high i : Int} (expected : String)
    (h : -0x8000000000000000 ≤ i ∧ i < 0x10000000000000000) (range : low ≤ i ∧ i < high) :
    (Decoder.integer low high expected).Restores (.number (.integer i h)) i :=
  fun _ _ => if_pos range

theorem Restores.map {f : α → β} (h : d.Restores j a) : (d.map f).Restores j (f a) := by
  intro source room
  unfold Decoder.map
  rw [h source room]
  rfl

theorem restores_uint64 (expected : String) (n : UInt64) :
    (Decoder.uint64 expected).Restores (.integer n) n := by
  have range : 0 ≤ (n.toNat : Int) ∧ (n.toNat : Int) < 0x10000000000000000 := by
    have := n.toNat_lt
    omega
  have hn : UInt64.ofNat (n.toNat : Int).toNat = n := by simp
  have fits : -0x8000000000000000 ≤ (n.toNat : Int) ∧ (n.toNat : Int) < 0x10000000000000000 :=
    ⟨Int.le_trans (by decide) range.1, range.2⟩
  have h : (Decoder.uint64 expected).Restores (.number (.integer n.toNat fits)) _ :=
    (restores_integer expected fits range).map
  rwa [hn] at h

theorem Restores.refine {check : α → Except String β} {b : β} (h : d.Restores j a)
    (checked : check a = .ok b) : (d.refine check).Restores j b := by
  intro source room
  unfold Decoder.refine
  rw [h source room]
  simp only [bind, Except.bind, checked]
  rfl

theorem restores_optional_null : d.optional.Restores .null none := fun _ _ => rfl

theorem Restores.optional (h : d.Restores j a) (present : j ≠ .null) :
    d.optional.Restores j (some a) := by
  intro source room
  have hoptional : d.optional source (.ofJson j) = (d source (.ofJson j)).map some := by
    cases j with
    | null => exact absurd rfl present
    | bool | number | string | array | object => rfl
  rw [hoptional, h source room]
  rfl

theorem items_ofItems {source : Source} {xs : List β} {f : β → Json} {g : β → α}
    (h : ∀ x ∈ xs, d.Restores (f x) (g x)) (room : source.Holds (Json.depthItems (xs.map f))) :
    d.items source (Draft.ofItems (xs.map f)) = .ok (xs.map g) := by
  induction xs with
  | nil => rfl
  | cons x xs ih =>
    have hx := h x List.mem_cons_self source (room.mono (Nat.le_max_left _ _))
    have hxs := ih (fun y hy => h y (List.mem_cons_of_mem x hy))
      (room.mono (Nat.le_max_right _ _))
    simp [Draft.ofItems, Decoder.items, hx, hxs, bind, Except.bind, pure, Except.pure]

theorem Restores.list {xs : List β} {f : β → Json} {g : β → α}
    (h : ∀ x ∈ xs, d.Restores (f x) (g x)) :
    d.list.Restores (.array (xs.map f)) (xs.map g) := by
  intro source room
  obtain ⟨inner, hinside, hinner⟩ := Source.inside_of_holds room
  simp only [Draft.ofJson, Decoder.list, hinside, items_ofItems h hinner, bind, Except.bind]
  rfl

end Decoder

/-! ## Records -/

theorem firstEntry_of_absent {key : String} {es : List (String × Json)}
    (h : Json.valuesAt key es = []) (n : Nat) : firstEntry key n (Draft.ofEntries es) = none := by
  induction es generalizing n with
  | nil => rfl
  | cons entry rest ih =>
    obtain ⟨name, item⟩ := entry
    simp only [Json.valuesAt] at h
    split at h
    · cases h
    · next hname => simp [Draft.ofEntries, firstEntry, isKey, Lexeme.of, hname, ih h]

theorem firstEntry_of_cons {key : String} {es : List (String × Json)} {j : Json}
    {js : List Json} (h : Json.valuesAt key es = j :: js) (n : Nat) :
    ∃ m rest, firstEntry key n (Draft.ofEntries es) =
        some (m, .ofJson j, Draft.ofEntries rest) ∧
      Json.valuesAt key rest = js := by
  induction es generalizing n with
  | nil => cases h
  | cons entry rest ih =>
    obtain ⟨name, item⟩ := entry
    simp only [Json.valuesAt] at h
    split at h
    · next hname =>
      obtain ⟨rfl, hrest⟩ := List.cons.inj h
      refine ⟨n, rest, ?_, hrest⟩
      simp [Draft.ofEntries, firstEntry, isKey, Lexeme.of, hname]
    · next hname =>
      obtain ⟨m, others, hfirst, hothers⟩ := ih h (n + 1)
      refine ⟨m, others, ?_, hothers⟩
      simp [Draft.ofEntries, firstEntry, isKey, Lexeme.of, hname, hfirst]

theorem checkEntries_ofEntries (names : List String) (es : List (String × Json)) (n : Nat) :
    checkEntries names .closed n (Draft.ofEntries es) = .ok () := by
  induction es generalizing n with
  | nil => rfl
  | cons entry rest ih =>
    obtain ⟨name, item⟩ := entry
    have hform : checkEnding (Draft.ofJson item).skipFault? = .ok () := by
      rw [Draft.skipFault?_ofJson]
      rfl
    simp only [Draft.ofEntries, checkEntries, Lexeme.of, hform, ih]
    show (if (!names.contains name) = true then .ok () else .ok () : Placed Unit) = .ok ()
    exact ite_self _

namespace Layout

variable {α β : Type} {f : Layout (α → β)} {g : α → β} {d : Decoder α} {a : α} {j : Json}
  {name : String} {es : List (String × Json)}

/-- Whether the fields that the entries of an object stand for are read wherever there is room. -/
def Restores (layout : Layout α) (es : List (String × Json)) (a : α) : Prop :=
  ∀ (source : Source) (described : String) (index : Nat), source.Holds (Json.depthEntries es) →
    layout.read source described index (.entries (Draft.ofEntries es)) = .ok a

theorem restores_pure (a : α) (es : List (String × Json)) : (Layout.pure a).Restores es a :=
  fun _ _ _ _ => rfl

theorem readEntry_of_single {absence : Absence α} {source : Source}
    (present : Json.valuesAt name es = [j]) (h : d source (.ofJson j) = .ok a) :
    readEntry name absence d source (Draft.ofEntries es) = .ok a := by
  obtain ⟨m, rest, hfirst, hrest⟩ := firstEntry_of_cons present 0
  simp only [readEntry, hfirst, h, firstEntry_of_absent hrest]
  rfl

theorem readEntry_of_absent {source : Source} (absent : Json.valuesAt name es = []) :
    readEntry name (.defaulted a) d source (Draft.ofEntries es) = .ok a := by
  simp only [readEntry, firstEntry_of_absent absent]
  rfl

theorem Restores.seq {x : Layout α} (hf : f.Restores es g) (hx : x.Restores es a) :
    (f.seq x).Restores es (g a) := by
  intro source described index room
  simp only [Layout.seq, hf source described index room, hx source described _ room]
  rfl

theorem restores_field {absence : Absence α} (present : Json.valuesAt name es = [j])
    (h : d.Restores j a) : (field name absence d).Restores es a := by
  intro source described index room
  have mem : j ∈ Json.valuesAt name es := present ▸ List.mem_cons_self
  exact readEntry_of_single present (h source (room.mono (Json.depth_le_of_mem_valuesAt mem)))

theorem Restores.required (hf : f.Restores es g) (present : Json.valuesAt name es = [j])
    (h : d.Restores j a) : (f.required name d).Restores es (g a) :=
  hf.seq (restores_field present h)

theorem Restores.defaulted {default : α} (hf : f.Restores es g)
    (present : Json.valuesAt name es = [j]) (h : d.Restores j a) :
    (f.defaulted name default d).Restores es (g a) :=
  hf.seq (restores_field present h)

theorem Restores.absent (hf : f.Restores es g) (absent : Json.valuesAt name es = []) :
    (f.defaulted name a d).Restores es (g a) :=
  hf.seq fun _ _ _ _ => readEntry_of_absent absent

end Layout

namespace Decoder

variable {α : Type} {j : Json} {a : α} {es : List (String × Json)}

theorem restores_record {layout : Layout α} (title : String) (h : layout.Restores es a) :
    (Decoder.record title layout).Restores (.object es) a := by
  intro source room
  obtain ⟨inner, hinside, hinner⟩ := Source.inside_of_holds room
  simp only [Draft.ofJson, Decoder.record, hinside, bind, Except.bind, checkEntries_ofEntries,
    h inner _ _ hinner]
  rfl

/-! ## Alternatives -/

theorem restores_name {variants : List (String × Content α)} {name : String}
    (known : variants.lookup name = some (.unit a)) :
    (alternative variants).Restores (.string name) a := by
  have hfind : findContent variants name = .ok (.unit a) := by
    unfold findContent
    rw [known]
  intro source _
  show (do (← findContent variants name).alone) = .ok a
  rw [hfind]
  rfl

end Decoder

namespace Variant

variable {α : Type} {es : List (String × Json)}

theorem restores_record {a : α} {layout : Layout α} (name title : String)
    (h : layout.Restores es a) : (record name title layout).content.Restores (.object es) a :=
  Decoder.restores_record _ h

theorem restores_empty (name : String) (a : α) : (empty name a).content.Restores (.object es) a :=
  fun _ _ => rfl

end Variant

namespace Source

theorem holds_max {source : Source} {m n : Nat} :
    source.Holds (max m n) ↔ source.Holds m ∧ source.Holds n := by
  cases source with
  | text levels => exact Nat.max_le
  | kept | memory | settings => exact ⟨fun _ => ⟨trivial, trivial⟩, fun _ => trivial⟩

end Source

namespace Decoder

variable {α : Type} {tag : String} {es : List (String × Json)}

/-- An entry without the tag is kept along with others, if there is room for all of them. -/
theorem takeTag_cons {d : Decoder α} {source : Source} {found taken : Option α} {name : String}
    {rest others : List (String × Json)} (j : Json) (hname : name ≠ tag)
    (h : takeTag tag d source found (Draft.ofEntries rest) =
      if source.Holds (Json.depthEntries others) then .ok (taken, Draft.ofEntries others)
      else .error (.malformed .tooDeep)) :
    takeTag tag d source found (Draft.ofEntries ((name, j) :: rest)) =
      if source.Holds (Json.depthEntries ((name, j) :: others)) then
        .ok (taken, Draft.ofEntries ((name, j) :: others))
      else .error (.malformed .tooDeep) := by
  have hstep : takeTag tag d source found (Draft.ofEntries ((name, j) :: rest)) = (do
      source.keep (.ofJson j)
      let rest ← takeTag tag d source found (Draft.ofEntries rest)
      return (rest.1, (Lexeme.of name, .ofJson j) :: rest.2)) := by
    simp only [Draft.ofEntries, takeTag, Lexeme.of]
    exact if_neg hname
  rw [hstep, Source.keep_ofJson, h]
  simp only [Json.depthEntries, Source.holds_max]
  by_cases hj : source.Holds j.depth
  · by_cases hothers : source.Holds (Json.depthEntries others)
    · simp only [hj, hothers, if_true, and_self]
      rfl
    · simp only [hj, hothers, if_true, if_false, and_false]
      rfl
  · simp only [hj, if_false, false_and]
    rfl

/-- Entries without the tag are kept, if there is room for all of them. -/
theorem takeTag_of_untagged {d : Decoder α} (source : Source) (found : Option α)
    (untagged : Json.valuesAt tag es = []) :
    takeTag tag d source found (Draft.ofEntries es) =
      if source.Holds (Json.depthEntries es) then .ok (found, Draft.ofEntries es)
      else .error (.malformed .tooDeep) := by
  induction es with
  | nil =>
    rw [if_pos]
    · rfl
    · cases source <;> simp [Source.Holds, Json.depthEntries]
  | cons entry rest ih =>
    obtain ⟨name, j⟩ := entry
    simp only [Json.valuesAt] at untagged
    split at untagged
    · cases untagged
    · next hname => exact takeTag_cons j hname (ih untagged)

theorem variantName_string {variants : List (Variant α)} {variant : Variant α} {name : String}
    (known : Variant.find variants name = .ok variant) (source : Source) :
    variantName variants source (.ofJson (.string name)) = .ok variant := by
  cases source <;> exact known

/-- A tagged record is decoded as the content of its variant, if there is room for it. -/
theorem tagged_ofJson {variants : List (Variant α)} {variant : Variant α} {name : String}
    (title : String) (known : Variant.find variants name = .ok variant)
    (untagged : Json.valuesAt tag es = []) (source : Source) :
    tagged title tag variants source (.ofJson (.object ((tag, .string name) :: es))) =
      if source.Holds (Json.depthEntries es + 1) then variant.content .kept (.ofJson (.object es))
      else .error (.malformed .tooDeep) := by
  have hfirst : ∀ inner : Source, takeTag tag (variantName variants) inner none
      (Draft.ofEntries ((tag, .string name) :: es)) =
        takeTag tag (variantName variants) inner (some variant) (Draft.ofEntries es) := by
    intro inner
    have hname : variantName variants inner (.string (.of name)) = .ok variant :=
      variantName_string known inner
    simp only [Draft.ofEntries, Draft.ofJson, takeTag]
    refine (if_pos rfl).trans ?_
    show (do
      let a ← variantName variants inner (.string (.of name))
      takeTag tag (variantName variants) inner (some a) (Draft.ofEntries es)) = _
    rw [hname]
    rfl
  by_cases room : source.Holds (Json.depthEntries es + 1)
  · obtain ⟨inner, hinside, hinner⟩ := Source.inside_of_holds room
    rw [if_pos room]
    simp only [Draft.ofJson, tagged, hfirst, hinside, takeTag_of_untagged inner _ untagged,
      if_pos hinner, bind, Except.bind]
    rfl
  · rw [if_neg room]
    obtain hinside | ⟨inner, hinside, hinner⟩ := Source.inside_of_not_holds room
    · simp only [Draft.ofJson, tagged, hinside]
      rfl
    · simp only [Draft.ofJson, tagged, hfirst, hinside, takeTag_of_untagged inner _ untagged,
        if_neg hinner, bind, Except.bind]

theorem Restores.tagged {variants : List (Variant α)} {variant : Variant α} {name : String} {a : α}
    (title : String) (known : Variant.find variants name = .ok variant)
    (untagged : Json.valuesAt tag es = []) (h : variant.content.Restores (.object es) a) :
    (Decoder.tagged title tag variants).Restores (.object ((tag, .string name) :: es)) a := by
  intro source room
  have hdepth : (Json.object ((tag, .string name) :: es)).depth = Json.depthEntries es + 1 :=
    congrArg (· + 1) (Nat.zero_max _)
  rw [tagged_ofJson title known untagged, if_pos (hdepth ▸ room)]
  exact h .kept trivial

end Decoder

end WorkflowEngine
