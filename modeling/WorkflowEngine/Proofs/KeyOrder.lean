import WorkflowEngine.Proofs.NormalForm
/-!
What is captured as a value is read back although the value keeps the entries of its objects in the
order of their keys. `Decoder.Rereads` says that a decoder gives for the canonical form of a
document what it gives for the document; each way to build a decoder from others has a lemma that
passes this on.
-/
set_option autoImplicit false

namespace WorkflowEngine

open Json (Draft Lexeme)

/-! ## Entries in order -/

namespace Json

variable {key name : String} {item j : Json} {entries : List (String × Json)}

theorem valuesAt_addEntry_of_ne (h : name ≠ key) :
    valuesAt key (addEntry name item entries) = valuesAt key entries := by
  induction entries with
  | nil => simp [addEntry, valuesAt, h]
  | cons entry rest ih =>
    obtain ⟨next, other⟩ := entry
    unfold addEntry
    split
    · exact if_neg h
    split
    · rfl
    · simp only [valuesAt, ih]

theorem valuesAt_addEntry_self (h : valuesAt key entries = []) :
    valuesAt key (addEntry key item entries) = [item] := by
  induction entries with
  | nil => exact if_pos rfl
  | cons entry rest ih =>
    obtain ⟨next, other⟩ := entry
    have hne : next ≠ key := by
      rintro rfl
      simp [valuesAt] at h
    have hrest : valuesAt key rest = [] := by
      simpa only [valuesAt, if_neg hne] using h
    unfold addEntry
    split
    · simp only [valuesAt, if_true, if_neg hne, hrest]
    · rw [if_neg fun heq : key = next => hne heq.symm]
      simp only [valuesAt, if_neg hne, ih hrest]

theorem valuesAt_canonicalEntries_nil (h : valuesAt key entries = []) :
    valuesAt key (canonicalEntries entries) = [] := by
  induction entries with
  | nil => rfl
  | cons entry rest ih =>
    obtain ⟨name, item⟩ := entry
    by_cases hname : name = key
    · simp [valuesAt, hname] at h
    · rw [valuesAt, if_neg hname] at h
      rw [canonicalEntries, valuesAt_addEntry_of_ne hname, ih h]

theorem valuesAt_canonicalEntries_single (h : valuesAt key entries = [j]) :
    valuesAt key (canonicalEntries entries) = [j.canonical] := by
  induction entries with
  | nil => cases h
  | cons entry rest ih =>
    obtain ⟨name, item⟩ := entry
    rw [canonicalEntries]
    by_cases hname : name = key
    · subst hname
      rw [valuesAt, if_pos rfl] at h
      obtain ⟨rfl, hrest⟩ := List.cons.inj h
      exact valuesAt_addEntry_self (valuesAt_canonicalEntries_nil hrest)
    · rw [valuesAt, if_neg hname] at h
      rw [valuesAt_addEntry_of_ne hname, ih h]

/-- The entries with other keys. -/
def without (key : String) (entries : List (String × Json)) : List (String × Json) :=
  entries.filter fun entry => entry.1 ≠ key

theorem without_cons_of_eq (h : name = key) :
    without key ((name, item) :: entries) = without key entries :=
  List.filter_cons_of_neg (by simpa using h)

theorem without_cons_of_ne (h : name ≠ key) :
    without key ((name, item) :: entries) = (name, item) :: without key entries :=
  List.filter_cons_of_pos (by simpa using h)

theorem without_of_valuesAt_nil (h : valuesAt key entries = []) :
    without key entries = entries := by
  induction entries with
  | nil => rfl
  | cons entry rest ih =>
    obtain ⟨name, item⟩ := entry
    by_cases hname : name = key
    · simp [valuesAt, hname] at h
    · rw [valuesAt, if_neg hname] at h
      rw [without_cons_of_ne hname, ih h]

theorem valuesAt_without (h : name ≠ key) (entries : List (String × Json)) :
    valuesAt name (without key entries) = valuesAt name entries := by
  induction entries with
  | nil => rfl
  | cons entry rest ih =>
    obtain ⟨next, item⟩ := entry
    by_cases hnext : next = key
    · rw [without_cons_of_eq hnext, ih, valuesAt, if_neg fun heq => h (heq.symm.trans hnext)]
    · simp only [without_cons_of_ne hnext, valuesAt, ih]

theorem depthEntries_without (flat : ∀ j ∈ valuesAt key entries, j.depth = 0) :
    depthEntries (without key entries) = depthEntries entries := by
  induction entries with
  | nil => rfl
  | cons entry rest ih =>
    obtain ⟨name, item⟩ := entry
    by_cases hname : name = key
    · rw [valuesAt, if_pos hname, List.forall_mem_cons] at flat
      rw [without_cons_of_eq hname, ih flat.2, depthEntries, flat.1, Nat.zero_max]
    · rw [valuesAt, if_neg hname] at flat
      rw [without_cons_of_ne hname, depthEntries, depthEntries, ih flat]

theorem before_without {bound : String} (hb : before bound entries = true)
    (h : entriesCanonical entries = true) : before bound (without key entries) = true := by
  induction entries with
  | nil => rfl
  | cons entry rest ih =>
    obtain ⟨next, other⟩ := entry
    simp only [entriesCanonical, Bool.and_eq_true] at h
    by_cases hnext : next = key
    · rw [without_cons_of_eq hnext]
      exact ih (before_of_lt (of_decide_eq_true hb) h.1.2) h.2
    · rw [without_cons_of_ne hnext]
      exact hb

theorem without_addEntry_self : without key (addEntry key item entries) = without key entries := by
  induction entries with
  | nil => simp [addEntry, without]
  | cons entry rest ih =>
    obtain ⟨next, other⟩ := entry
    unfold addEntry
    split
    · simp [without]
    split
    · rfl
    · simp only [without, List.filter_cons] at ih ⊢
      rw [ih]

theorem without_addEntry_of_ne (hname : name ≠ key) (h : entriesCanonical entries = true) :
    without key (addEntry name item entries) = addEntry name item (without key entries) := by
  induction entries with
  | nil => simp [addEntry, without, hname]
  | cons entry rest ih =>
    obtain ⟨next, other⟩ := entry
    simp only [entriesCanonical, Bool.and_eq_true] at h
    by_cases hnext : next = key
    · rw [without_cons_of_eq hnext, addEntry]
      split
      · next hlt =>
        rw [addEntry_of_before (before_without (before_of_lt hlt h.1.2) h.2),
          without_cons_of_ne hname, without_cons_of_eq hnext]
      · rw [if_neg fun heq : name = next => hname (heq.trans hnext), without_cons_of_eq hnext,
          ih h.2]
    · rw [without_cons_of_ne hnext, addEntry, addEntry]
      split
      · rw [without_cons_of_ne hname, without_cons_of_ne hnext]
      split
      · exact without_cons_of_ne hnext
      · rw [without_cons_of_ne hnext, ih h.2]

theorem without_canonicalEntries (key : String) (entries : List (String × Json)) :
    without key (canonicalEntries entries) = canonicalEntries (without key entries) := by
  induction entries with
  | nil => rfl
  | cons entry rest ih =>
    obtain ⟨name, item⟩ := entry
    rw [canonicalEntries]
    by_cases hname : name = key
    · rw [← hname, without_addEntry_self, hname, ih]
      simp [without]
    · rw [without_addEntry_of_ne hname (entriesCanonical_canonicalEntries rest), ih]
      simp [without, hname, canonicalEntries]

theorem canonicalItems_eq_map (items : List Json) : canonicalItems items = items.map canonical := by
  induction items with
  | nil => rfl
  | cons item rest ih => rw [canonicalItems, ih, List.map_cons]

theorem canonical_canonical (j : Json) : j.canonical.canonical = j.canonical :=
  canonical_of_isCanonical _ j.isCanonical_canonical

theorem Draft.ofItems_eq_map (items : List Json) : ofItems items = items.map ofJson := by
  induction items with
  | nil => rfl
  | cons item rest ih => rw [ofItems, ih, List.map_cons]

end Json

/-! ## Single values and lists -/

/-- Whether nothing limits how deep a document may be. -/
def Source.Unlimited (source : Source) : Prop := source.room = none

theorem Source.Unlimited.inside {source : Source} (h : source.Unlimited) :
    source.inside = .ok source := by
  cases source with
  | text levels => cases h
  | kept | memory | settings => rfl

theorem Source.Unlimited.holds {source : Source} (h : source.Unlimited) (depth : Nat) :
    source.Holds depth := by
  cases source with
  | text levels => cases h
  | kept | memory | settings => trivial

namespace Decoder

variable {α β : Type} {d : Decoder α}

/-- Whether the canonical form of a document is decoded as the document is. -/
def Rereads (d : Decoder α) : Prop :=
  ∀ ⦃source : Source⦄ ⦃j : Json⦄ ⦃a : α⦄, source.Unlimited → d source (.ofJson j) = .ok a →
    d source (.ofJson j.canonical) = .ok a

theorem rereads_value : Decoder.value.Rereads := by
  intro source j v unlimited hv
  have hread : ∀ j, Decoder.value source (.ofJson j) = .ok (.ofJson j) := by
    intro j
    have h : (Draft.ofJson j).read source.room = .ok j := unlimited ▸ Draft.read_ofJson j
    unfold Decoder.value
    rw [h]
    rfl
  have same : Value.ofJson j.canonical = Value.ofJson j := Value.ext j.canonical_canonical
  rw [hread] at hv ⊢
  rw [same]
  exact hv

theorem rereads_string : Decoder.string.Rereads := by
  intro source j s _ h
  cases j with
  | array | object => exact absurd h (mismatch_ne_ok _ _ _)
  | _ => exact h

theorem rereads_integer (low high : Int) (expected : String) :
    (Decoder.integer low high expected).Rereads := by
  intro source j i _ h
  cases j with
  | array | object => exact absurd h (mismatch_ne_ok _ _ _)
  | _ => exact h

theorem Rereads.map {f : α → β} (h : d.Rereads) : (d.map f).Rereads := by
  intro source j b unlimited hb
  obtain ⟨a, ha, rfl⟩ := of_map_ok hb
  unfold Decoder.map
  rw [h unlimited ha]
  rfl

theorem rereads_uint64 (expected : String) : (Decoder.uint64 expected).Rereads :=
  (rereads_integer _ _ _).map

theorem Rereads.refine {check : α → Except String β} (h : d.Rereads) :
    (d.refine check).Rereads := by
  intro source j b unlimited hb
  obtain ⟨a, ha, hb⟩ := Except.of_bind_ok hb
  unfold Decoder.refine
  rw [h unlimited ha]
  exact hb

theorem Rereads.optional (h : d.Rereads) : d.optional.Rereads := by
  have present : ∀ {source : Source} {j : Json}, j ≠ .null →
      d.optional source (.ofJson j) = d.map some source (.ofJson j) := by
    intro source j hj
    cases j with
    | null => exact absurd rfl hj
    | bool | number | string | array | object => rfl
  intro source j o unlimited ho
  by_cases hj : j = .null
  · subst hj
    exact ho
  · rw [present hj] at ho
    rw [present fun hnull => hj (Json.eq_null_of_canonical hnull)]
    exact h.map unlimited ho

theorem Rereads.items {source : Source} {js : List Json} {as : List α} (h : d.Rereads)
    (unlimited : source.Unlimited) (has : d.items source (Draft.ofItems js) = .ok as) :
    d.items source (Draft.ofItems (Json.canonicalItems js)) = .ok as := by
  induction js generalizing as with
  | nil => exact has
  | cons j rest ih =>
    obtain ⟨a, ha, has⟩ := Except.of_bind_ok has
    obtain ⟨others, hothers, has⟩ := Except.of_bind_ok has
    simp only [Json.canonicalItems, Draft.ofItems, Decoder.items, h unlimited ha, ih hothers, bind,
      Except.bind]
    exact has

theorem Rereads.list (h : d.Rereads) : d.list.Rereads := by
  intro source j as unlimited has
  cases j with
  | array js =>
    simp only [Draft.ofJson, Decoder.list, Json.canonical, unlimited.inside, bind, Except.bind]
      at has ⊢
    obtain ⟨others, hothers, has⟩ := Except.of_bind_ok has
    rw [h.items unlimited hothers]
    exact has
  | _ => exact absurd has (mismatch_ne_ok _ _ _)

end Decoder

/-! ## Records -/

namespace Layout

variable {α β : Type} {f : Layout (α → β)} {d : Decoder α} {name : String}

/-- Whether fields are read of entries in the order of their keys, or of items in canonical form, as
they are read of the entries or the items. -/
structure Rereads (layout : Layout α) : Prop where
  entries : ∀ ⦃source : Source⦄ ⦃described : String⦄ ⦃index : Nat⦄ ⦃es : List (String × Json)⦄
    ⦃a : α⦄, source.Unlimited →
    layout.read source described index (.entries (Draft.ofEntries es)) = .ok a →
    layout.read source described index (.entries (Draft.ofEntries (Json.canonicalEntries es))) =
      .ok a
  items : ∀ ⦃source : Source⦄ ⦃described : String⦄ ⦃index : Nat⦄ ⦃js : List Json⦄ ⦃a : α⦄,
    source.Unlimited →
    layout.read source described index (.items (Draft.ofItems js) .closed) = .ok a →
    layout.read source described index (.items (Draft.ofItems (Json.canonicalItems js)) .closed) =
      .ok a

theorem rereads_pure (a : α) : (Layout.pure a).Rereads :=
  ⟨fun _ _ _ _ _ _ => id, fun _ _ _ _ _ _ => id⟩

/-- An entry is missing, or it is there once. -/
theorem of_readEntry_ok {absence : Absence α} {source : Source} {es : List (String × Json)} {a : α}
    (h : readEntry name absence d source (Draft.ofEntries es) = .ok a) :
    (Json.valuesAt name es = [] ∧ absence.inObject? = some a) ∨
      ∃ j, Json.valuesAt name es = [j] ∧ d source (.ofJson j) = .ok a := by
  cases hvalues : Json.valuesAt name es with
  | nil =>
    simp only [readEntry, firstEntry_of_absent hvalues] at h
    split at h
    · next default =>
      cases h
      exact .inl ⟨rfl, default⟩
    · cases h
  | cons j more =>
    obtain ⟨m, rest, hfirst, hrest⟩ := firstEntry_of_cons hvalues 0
    simp only [readEntry, hfirst] at h
    obtain ⟨b, hb, h⟩ := Except.of_bind_ok h
    cases more with
    | nil =>
      simp only [firstEntry_of_absent hrest] at h
      cases h
      exact .inr ⟨j, rfl, Placed.of_at_ok hb⟩
    | cons k more =>
      obtain ⟨_, _, hagain, -⟩ := firstEntry_of_cons hrest (m + 1)
      simp only [hagain] at h
      cases h

theorem rereads_field {absence : Absence α} (hd : d.Rereads) : (field name absence d).Rereads where
  entries source described index es a unlimited ha := by
    change readEntry name absence d source _ = .ok a at ha
    change readEntry name absence d source _ = .ok a
    rcases of_readEntry_ok ha with ⟨absent, default⟩ | ⟨j, present, hj⟩
    · simp only [readEntry, default,
        firstEntry_of_absent (Json.valuesAt_canonicalEntries_nil absent)]
    · exact readEntry_of_single (Json.valuesAt_canonicalEntries_single present) (hd unlimited hj)
  items source described index js a unlimited ha := by
    change readItem absence d source described index _ .closed = .ok a at ha
    change readItem absence d source described index _ .closed = .ok a
    unfold readItem at ha ⊢
    simp only [Draft.ofItems_eq_map, Json.canonicalItems_eq_map, List.getElem?_map,
      List.length_map] at ha ⊢
    cases hitem : js[index]? with
    | none =>
      rw [hitem] at ha
      exact ha
    | some j =>
      rw [hitem] at ha
      have hj : d source (.ofJson j) = .ok a := Placed.of_at_ok ha
      simp only [Option.map_some, hd unlimited hj]
      rfl

theorem Rereads.seq {x : Layout α} (hf : f.Rereads) (hx : x.Rereads) : (f.seq x).Rereads where
  entries source described index es b unlimited hb := by
    obtain ⟨g, a, hg, ha, rfl⟩ := Placed.of_both_ok hb
    simp only [Layout.seq, hf.entries unlimited hg, hx.entries unlimited ha]
    rfl
  items source described index js b unlimited hb := by
    obtain ⟨g, a, hg, ha, rfl⟩ := Placed.of_both_ok hb
    simp only [Layout.seq, hf.items unlimited hg, hx.items unlimited ha]
    rfl

theorem Rereads.required (hf : f.Rereads) (hd : d.Rereads) : (f.required name d).Rereads :=
  hf.seq (rereads_field hd)

theorem Rereads.defaulted {default : α} (hf : f.Rereads) (hd : d.Rereads) :
    (f.defaulted name default d).Rereads :=
  hf.seq (rereads_field hd)

end Layout

namespace Decoder

variable {α : Type}

theorem rereads_record {layout : Layout α} (title : String) (h : layout.Rereads) :
    (Decoder.record title layout).Rereads := by
  intro source j a unlimited ha
  cases j with
  | object es =>
    simp only [Draft.ofJson, Decoder.record, Json.canonical, unlimited.inside, bind, Except.bind,
      checkEntries_ofEntries] at ha ⊢
    obtain ⟨g, b, hg, hb, rfl⟩ := Placed.of_both_ok (Except.of_mapError_ok ha)
    cases hg
    rw [h.entries unlimited hb]
    rfl
  | array js =>
    simp only [Draft.ofJson, Decoder.record, Json.canonical, unlimited.inside, bind, Except.bind]
      at ha ⊢
    obtain ⟨b, hb, ha⟩ := Except.of_bind_ok ha
    rw [h.items unlimited (Except.of_mapError_ok hb)]
    simp only [Draft.ofItems_eq_map, Json.canonicalItems_eq_map, List.length_map] at ha ⊢
    exact ha
  | _ => exact absurd ha (mismatch_ne_ok _ _ _)

end Decoder

/-! ## Records with a tag -/

namespace Decoder

variable {α : Type} {tag : String} {source : Source} {es : List (String × Json)} {d : Decoder α}
  {others : Entries}

/-- Once the tag was met it must not come again. -/
theorem of_takeTag_some {a : α} {taken : Option α}
    (h : takeTag tag d source (some a) (Draft.ofEntries es) = .ok (taken, others)) :
    Json.valuesAt tag es = [] ∧ taken = some a ∧ others = Draft.ofEntries es := by
  induction es generalizing taken others with
  | nil =>
    cases h
    exact ⟨rfl, rfl, rfl⟩
  | cons entry rest ih =>
    obtain ⟨name, j⟩ := entry
    obtain ⟨_, hname, h⟩ := Except.of_bind_ok h
    cases hname
    split at h
    · cases h
    · next hname =>
      obtain ⟨_, -, h⟩ := Except.of_bind_ok h
      obtain ⟨⟨found, kept⟩, hrest, h⟩ := Except.of_bind_ok h
      cases h
      obtain ⟨untagged, rfl, rfl⟩ := ih hrest
      exact ⟨(if_neg hname).trans untagged, rfl, rfl⟩

/-- The tag is there once, and the entries with other keys are kept. -/
theorem of_takeTag_none {a : α}
    (h : takeTag tag d source none (Draft.ofEntries es) = .ok (some a, others)) :
    ∃ j, Json.valuesAt tag es = [j] ∧ d source (.ofJson j) = .ok a ∧
      others = Draft.ofEntries (Json.without tag es) := by
  induction es generalizing others with
  | nil => cases h
  | cons entry rest ih =>
    obtain ⟨name, j⟩ := entry
    obtain ⟨_, hname, h⟩ := Except.of_bind_ok h
    cases hname
    split at h
    · next hname =>
      obtain ⟨b, hb, h⟩ := Except.of_bind_ok h
      obtain ⟨untagged, hab, rfl⟩ := of_takeTag_some h
      cases hab
      refine ⟨j, (if_pos hname).trans (congrArg _ untagged), hb, ?_⟩
      rw [Json.without_cons_of_eq hname, Json.without_of_valuesAt_nil untagged]
    · next hname =>
      obtain ⟨_, -, h⟩ := Except.of_bind_ok h
      obtain ⟨⟨found, kept⟩, hrest, h⟩ := Except.of_bind_ok h
      cases h
      obtain ⟨i, hi, ha, rfl⟩ := ih hrest
      refine ⟨i, (if_neg hname).trans hi, ha, ?_⟩
      rw [Json.without_cons_of_ne hname]
      rfl

/-- The tag is taken from among the entries, if there is room for the others. -/
theorem takeTag_of_single {j : Json} {a : α} (single : Json.valuesAt tag es = [j])
    (ha : d source (.ofJson j) = .ok a) :
    takeTag tag d source none (Draft.ofEntries es) =
      if source.Holds (Json.depthEntries (Json.without tag es)) then
        .ok (some a, Draft.ofEntries (Json.without tag es))
      else .error (.malformed .tooDeep) := by
  induction es with
  | nil => cases single
  | cons entry rest ih =>
    obtain ⟨name, i⟩ := entry
    by_cases hname : name = tag
    · rw [Json.valuesAt, if_pos hname] at single
      obtain ⟨rfl, untagged⟩ := List.cons.inj single
      rw [Json.without_cons_of_eq hname, Json.without_of_valuesAt_nil untagged,
        ← takeTag_of_untagged source (some a) untagged]
      refine (if_pos hname).trans ?_
      show (do
        let a ← d source (Draft.ofJson i)
        takeTag tag d source (some a) (Draft.ofEntries rest)) = _
      rw [ha]
      rfl
    · rw [Json.valuesAt, if_neg hname] at single
      rw [Json.without_cons_of_ne hname]
      exact takeTag_cons i hname (ih single)

theorem rereads_variantName (variants : List (Variant α)) : (variantName variants).Rereads := by
  intro source j variant _ h
  cases j with
  | array | object =>
    cases source <;> exact absurd h (mismatch_ne_ok _ _ _)
  | _ => exact h

theorem keepItems_ofItems (source : Source) (js : List Json) :
    keepItems source (Draft.ofItems js) =
      if source.Holds (Json.depthItems js) then .ok () else .error (.malformed .tooDeep) := by
  induction js with
  | nil => exact (if_pos source.holds_zero).symm
  | cons j rest ih =>
    rw [Draft.ofItems, keepItems, Source.keep_ofJson, ih]
    simp only [Json.depthItems, Source.holds_max]
    by_cases hj : source.Holds j.depth
    · simp only [hj, if_true, true_and]
      rfl
    · simp only [hj, if_false, false_and]
      rfl

theorem rereads_tagged (title : String) {variants : List (Variant α)}
    (h : ∀ variant ∈ variants, variant.content.Rereads) :
    (tagged title tag variants).Rereads := by
  have kept : Source.Unlimited .kept := rfl
  intro source j a unlimited ha
  have keeps : ∀ js, keepItems source (Draft.ofItems js) = .ok () :=
    fun _ => (keepItems_ofItems _ _).trans (if_pos (unlimited.holds _))
  cases j with
  | object es =>
    simp only [Draft.ofJson, tagged, Json.canonical, unlimited.inside, bind, Except.bind] at ha ⊢
    obtain ⟨⟨found, others⟩, htag, ha⟩ := Except.of_bind_ok ha
    cases found with
    | none => cases ha
    | some variant =>
      obtain ⟨j, single, hvariant, rfl⟩ := of_takeTag_none htag
      have content : variant.content .kept (.ofJson (.object (Json.without tag es))) = .ok a := ha
      rw [takeTag_of_single (Json.valuesAt_canonicalEntries_single single)
        (rereads_variantName variants unlimited hvariant), if_pos (unlimited.holds _),
        Json.without_canonicalEntries]
      exact h variant (mem_of_variantName hvariant) kept content
  | array js =>
    cases js with
    | nil => exact ha
    | cons j rest =>
      simp only [Draft.ofJson, Draft.ofItems, tagged, Json.canonical, Json.canonicalItems,
        unlimited.inside, keeps, bind, Except.bind] at ha ⊢
      obtain ⟨variant, hvariant, ha⟩ := Except.of_bind_ok ha
      have content : variant.content .kept (.ofJson (.array rest)) = .ok a := ha
      rw [rereads_variantName variants unlimited hvariant]
      exact h variant (mem_of_variantName hvariant) kept content
  | _ => exact absurd ha (mismatch_ne_ok _ _ _)

end Decoder

namespace Variant

variable {α : Type}

theorem rereads_record (name title : String) {layout : Layout α} (h : layout.Rereads) :
    (record name title layout).content.Rereads :=
  Decoder.rereads_record _ h

theorem rereads_empty (name : String) (a : α) : (empty name a).content.Rereads := by
  intro source j b _ hb
  cases j with
  | array js =>
    simp only [empty, Draft.ofJson, Json.canonical, Draft.ofItems_eq_map,
      Json.canonicalItems_eq_map, List.length_map] at hb ⊢
    exact hb
  | _ => exact hb

end Variant

/-! ## Alternatives -/

namespace Decoder

variable {α : Type}

theorem rereads_unit : Decoder.unit.Rereads := by
  intro source j u _ h
  cases j with
  | array js =>
    cases js with
    | nil => exact h
    | cons j js => cases source <;> exact absurd h (mismatch_ne_ok _ _ _)
  | object es =>
    cases es with
    | nil => exact h
    | cons entry es => cases source <;> exact absurd h (mismatch_ne_ok _ _ _)
  | _ => exact h

theorem rereads_alternative {variants : List (String × Content α)}
    (h : ∀ entry ∈ variants, entry.2.decoder.Rereads) : (alternative variants).Rereads := by
  intro source j a unlimited ha
  cases j with
  | object es =>
    match es with
    | [] => exact ha
    | [(name, j)] =>
      have entry : ∀ j : Json, alternative variants source (.ofJson (.object [(name, j)])) = (do
          let content ← findContent variants name
          content.decoder source (Draft.ofJson j)) := by
        intro j
        cases source with
        | text levels => cases unlimited
        | kept | memory | settings => rfl
      have single : (Json.object [(name, j)]).canonical = .object [(name, j.canonical)] := rfl
      rw [entry] at ha
      rw [single, entry]
      obtain ⟨content, hfind, ha⟩ := Except.of_bind_ok ha
      obtain ⟨known, mem⟩ := of_findContent_ok hfind
      rw [hfind]
      exact h _ mem unlimited ha
    | _ :: _ :: _ =>
      cases source with
      | text levels => cases unlimited
      | kept | memory | settings => cases ha
  | array js =>
    cases source with
    | text levels => cases unlimited
    | kept | memory | settings => exact absurd ha (mismatch_ne_ok _ _ _)
  | _ => exact ha

end Decoder

/-! ## Handles, functions, operations and errors -/

theorem Key.rereads : Key.decoder.Rereads :=
  Decoder.rereads_record _ <| (Layout.rereads_pure _)
    |>.required Decoder.rereads_string
    |>.required Decoder.rereads_string

theorem Cell.rereads : Cell.decoder.Rereads :=
  Decoder.rereads_record _ <| (Layout.rereads_pure _).required Key.rereads

theorem Atom.rereads : Atom.decoder.Rereads :=
  Decoder.rereads_record _ <| (Layout.rereads_pure _).required Key.rereads

theorem Sequence.rereads : Sequence.decoder.Rereads :=
  Decoder.Rereads.refine <| Decoder.rereads_record _ <| (Layout.rereads_pure _)
    |>.required Key.rereads
    |>.required (Decoder.rereads_uint64 _)
    |>.required (Decoder.rereads_uint64 _)

theorem PartitionVector.rereads : PartitionVector.decoder.Rereads :=
  Decoder.rereads_record _ <| (Layout.rereads_pure _).required Sequence.rereads.list

theorem FunctionRef.rereads : FunctionRef.decoder.Rereads :=
  Decoder.rereads_record _ <| (Layout.rereads_pure _)
    |>.required Decoder.rereads_string
    |>.defaulted Decoder.rereads_value

theorem Operation.rereads_variants : ∀ variant ∈ variants, variant.content.Rereads := by
  have values : Decoder.value.list.Rereads := Decoder.rereads_value.list
  simp only [variants, List.forall_mem_cons]
  refine ⟨
    Variant.rereads_record _ _ <| (Layout.rereads_pure _) |>.required (Decoder.rereads_uint64 _),
    Variant.rereads_record _ _ <| (Layout.rereads_pure _) |>.required Decoder.rereads_string,
    Variant.rereads_record _ _ <| (Layout.rereads_pure _)
      |>.required Decoder.rereads_string |>.required values,
    Variant.rereads_empty _ _,
    Variant.rereads_empty _ _,
    Variant.rereads_empty _ _,
    Variant.rereads_record _ _ <| (Layout.rereads_pure _)
      |>.required Decoder.rereads_string |>.required Decoder.rereads_value,
    Variant.rereads_record _ _ <| (Layout.rereads_pure _)
      |>.required Decoder.rereads_value |>.defaulted Decoder.rereads_string.optional,
    Variant.rereads_record _ _ <| (Layout.rereads_pure _) |>.required Cell.rereads,
    Variant.rereads_record _ _ <| (Layout.rereads_pure _) |>.required Decoder.rereads_string,
    Variant.rereads_record _ _ <| (Layout.rereads_pure _) |>.required values,
    Variant.rereads_record _ _ <| (Layout.rereads_pure _) |>.required Sequence.rereads,
    Variant.rereads_record _ _ <| (Layout.rereads_pure _)
      |>.required Sequence.rereads |>.required (Decoder.rereads_uint64 _),
    Variant.rereads_record _ _ <| (Layout.rereads_pure _) |>.required Sequence.rereads.list,
    Variant.rereads_record _ _ <| (Layout.rereads_pure _) |>.required PartitionVector.rereads,
    Variant.rereads_record _ _ <| (Layout.rereads_pure _) |>.required Decoder.rereads_value,
    Variant.rereads_record _ _ <| (Layout.rereads_pure _) |>.required Atom.rereads,
    Variant.rereads_record _ _ <| (Layout.rereads_pure _)
      |>.required Atom.rereads |>.required FunctionRef.rereads,
    Variant.rereads_record _ _ <| (Layout.rereads_pure _)
      |>.required Atom.rereads |>.required Decoder.rereads_value,
    Variant.rereads_record _ _ <| (Layout.rereads_pure _)
      |>.required Atom.rereads |>.required FunctionRef.rereads,
    Variant.rereads_record _ _ <| (Layout.rereads_pure _) |>.required Atom.rereads,
    fun _ none => absurd none List.not_mem_nil⟩

theorem Operation.rereads : Operation.decoder.Rereads :=
  Decoder.rereads_tagged _ rereads_variants

theorem ErrorKind.rereads : ErrorKind.decoder.Rereads := by
  refine Decoder.rereads_alternative ?_
  simp only [List.forall_mem_cons]
  exact ⟨Decoder.rereads_unit.map, Decoder.rereads_unit.map, Decoder.rereads_unit.map,
    Decoder.rereads_unit.map, Decoder.rereads_unit.map, Decoder.rereads_unit.map,
    Decoder.rereads_string.map, fun _ none => absurd none List.not_mem_nil⟩

theorem WorkflowError.rereads : WorkflowError.decoder.Rereads :=
  Decoder.rereads_record _ <| (Layout.rereads_pure _)
    |>.required ErrorKind.rereads
    |>.required Decoder.rereads_string
    |>.defaulted Decoder.rereads_value.optional

/-- A null payload adds nothing to the depth. -/
theorem WorkflowError.depth_withoutNull (e : WorkflowError) :
    e.withoutNull.toJson.depth = e.toJson.depth := by
  obtain ⟨kind, message, payload⟩ := e
  cases payload with
  | none => rfl
  | some v =>
    cases hv : v.isNull with
    | false => simp [withoutNull, Option.filter, hv]
    | true =>
      obtain rfl := Value.eq_null_of_isNull hv
      have dropped : (WorkflowError.mk kind message (some .null)).withoutNull =
          ⟨kind, message, none⟩ := rfl
      rw [dropped]
      simp [toJson, Json.depth, Json.depthEntries, Value.null]

/-! ## Workflows -/

namespace Workflow

theorem rereads_variants {inner : Decoder Workflow} (h : inner.Rereads) :
    ∀ variant ∈ variants inner, variant.content.Rereads := by
  simp only [variants, List.forall_mem_cons]
  exact ⟨
    Variant.rereads_record _ _ <| (Layout.rereads_pure _) |>.required Decoder.rereads_value,
    Variant.rereads_record _ _ <| (Layout.rereads_pure _)
      |>.required h |>.required FunctionRef.rereads,
    Variant.rereads_record _ _ <| (Layout.rereads_pure _) |>.required h.list,
    Variant.rereads_record _ _ <| (Layout.rereads_pure _) |>.required h.list,
    Variant.rereads_record _ _ <| (Layout.rereads_pure _) |>.required Operation.rereads,
    Variant.rereads_record _ _ <| (Layout.rereads_pure _)
      |>.required h |>.required FunctionRef.rereads,
    Variant.rereads_record _ _ <| (Layout.rereads_pure _) |>.required WorkflowError.rereads,
    fun _ none => absurd none List.not_mem_nil⟩

theorem decoderTo_rereads (levels : Nat) : (decoderTo levels).Rereads := by
  induction levels with
  | zero => exact fun _ _ _ _ h => nomatch h
  | succ levels ih => exact Decoder.rereads_tagged _ (rereads_variants ih)

mutual
theorem depth_withoutNulls : (w : Workflow) → w.withoutNulls.toJson.depth = w.toJson.depth
  | .ret _ | .perform _ => rfl
  | .bind body f | .tryWith body f => by
    simp only [withoutNulls, toJson, Json.depth, Json.depthEntries, depth_withoutNulls body]
  | .parallel children | .choice children => by
    simp only [withoutNulls, toJson, Json.depth, Json.depthEntries,
      depthItems_allWithoutNulls children]
  | .raise error => by
    simp only [withoutNulls, toJson, Json.depth, Json.depthEntries,
      WorkflowError.depth_withoutNull error]

theorem depthItems_allWithoutNulls : (ws : List Workflow) →
    Json.depthItems (allToJson (allWithoutNulls ws)) = Json.depthItems (allToJson ws)
  | [] => rfl
  | w :: ws => by
    simp only [allWithoutNulls, allToJson, Json.depthItems, depth_withoutNulls w,
      depthItems_allWithoutNulls ws]
end

theorem decoderTo_canonical (w : Workflow) :
    decoderTo (w.toJson.depth + 1) .memory (.ofJson w.toJson.canonical) = .ok w.withoutNulls := by
  refine decoderTo_rereads _ rfl ?_
  rw [decoderTo_toJson w (Nat.le_refl _)]
  exact if_pos trivial

/-- No entry of a workflow's document is dropped when its entries are put in order. -/
theorem depth_canonical (w : Workflow) : w.toJson.canonical.depth = w.toJson.depth := by
  refine Nat.le_antisymm (Json.depth_canonical_le _) ?_
  have yields := decoderTo_yields _ (.inl (Nat.le_refl _)) w.decoderTo_canonical
  rw [Draft.depth_ofJson] at yields
  exact w.depth_withoutNulls ▸ yields.1

@[simp] theorem depth_toValue (w : Workflow) : w.toValue.json.depth = w.toJson.depth :=
  w.depth_canonical

/-- A captured workflow is read back, however deep it is, but for the null payloads of errors that
it raises. -/
theorem ofValue_toValue (w : Workflow) : ofValue w.toValue = .ok w.withoutNulls := by
  have hdepth : (Draft.ofJson w.toJson.canonical).depth = w.toJson.depth := by
    rw [Draft.depth_ofJson, w.depth_canonical]
  have read : decoder.ofValue w.toValue = .ok w.withoutNulls := by
    show decoderTo ((Draft.ofJson w.toJson.canonical).depth + 1) .memory _ = _
    rw [hdepth]
    exact w.decoderTo_canonical
  unfold ofValue
  rw [read]
  rfl

end Workflow

end WorkflowEngine
