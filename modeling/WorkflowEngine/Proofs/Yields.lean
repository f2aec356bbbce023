import WorkflowEngine.Proofs.OutcomeText
import WorkflowEngine.Proofs.Readings
/-!
What decoders give for whatever draft they accept, however it is spelt. `Decoder.Yields` bounds a
result by how deep the draft is, or by how many containers the source lets it open; each way to
build a decoder from others has a lemma that passes this on.
-/
set_option autoImplicit false

namespace WorkflowEngine

open Json (Draft Lexeme Ending)

theorem Except.of_mapError_ok {ε ε' α : Type} {x : Except ε α} {f : ε → ε'} {a : α}
    (h : x.mapError f = .ok a) : x = .ok a := by
  cases x with
  | error e => cases h
  | ok b =>
    cases h
    rfl

/-! ## Single values and lists -/

namespace Decoder

variable {α β : Type} {d : Decoder α} {P Q : Nat → α → Prop} {R : Nat → β → Prop}

/-- Whether all that is decoded of drafts within a bound has a property that may depend on it. -/
def Yields (d : Decoder α) (P : Nat → α → Prop) : Prop :=
  ∀ ⦃source : Source⦄ ⦃draft : Draft⦄ ⦃n : Nat⦄ ⦃a : α⦄, source.Caps draft.depth n →
    d source draft = .ok a → P n a

theorem mismatch_ne_ok (draft : Draft) (expected : String) (a : α) :
    mismatch draft expected ≠ .ok a := by
  intro h
  obtain ⟨_, -, h⟩ := Except.of_bind_ok h
  cases h

theorem yields_any (d : Decoder α) : d.Yields fun _ _ => True :=
  fun _ _ _ _ _ _ => trivial

theorem Yields.imp (h : d.Yields P) (implies : ∀ n a, P n a → Q n a) : d.Yields Q :=
  fun _ _ _ _ caps ha => implies _ _ (h caps ha)

theorem of_value_ok {source : Source} {draft : Draft} {v : Value}
    (h : Decoder.value source draft = .ok v) :
    ∃ j, draft.read source.room = .ok j ∧ v.json = j.canonical := by
  unfold Decoder.value at h
  cases hread : draft.read source.room with
  | error cause =>
    rw [hread] at h
    cases h
  | ok j =>
    rw [hread] at h
    cases h
    exact ⟨j, rfl, rfl⟩

theorem yields_value : Decoder.value.Yields fun n v => v.json.depth ≤ n := by
  intro source draft n v caps hv
  obtain ⟨j, hread, hj⟩ := of_value_ok hv
  calc v.json.depth
    _ = j.canonical.depth := congrArg Json.depth hj
    _ ≤ j.depth := Json.depth_canonical_le j
    _ = draft.depth := (Draft.depth_of_read draft hread).1
    _ ≤ n := caps.read hread

/-- Only a null is decoded as the value of null. -/
theorem eq_null_of_value {source : Source} {draft : Draft}
    (h : Decoder.value source draft = .ok .null) : draft = .null := by
  obtain ⟨j, hread, hj⟩ := of_value_ok h
  cases Json.eq_null_of_canonical hj.symm
  exact Draft.eq_null_of_read hread

theorem Yields.map {f : α → β} (h : d.Yields fun n a => R n (f a)) : (d.map f).Yields R := by
  intro source draft n b caps hb
  obtain ⟨a, ha, rfl⟩ := of_map_ok hb
  exact h caps ha

theorem Yields.refine {check : α → Except String β}
    (h : d.Yields fun n a => ∀ b, check a = .ok b → R n b) : (d.refine check).Yields R := by
  intro source draft n b caps hb
  obtain ⟨a, ha, hb⟩ := Except.of_bind_ok hb
  cases hcheck : check a with
  | error reason =>
    simp only [hcheck] at hb
    cases hb
  | ok c =>
    simp only [hcheck] at hb
    cases hb
    exact h caps ha b hcheck

theorem Yields.items {source : Source} {drafts : List Draft} {as : List α} {n : Nat}
    (h : d.Yields P) (caps : source.Caps (Draft.depthItems drafts) n)
    (has : d.items source drafts = .ok as) : ∀ a ∈ as, P n a := by
  induction drafts generalizing as with
  | nil =>
    cases has
    exact fun _ none => nomatch none
  | cons draft rest ih =>
    obtain ⟨a, ha, has⟩ := Except.of_bind_ok has
    obtain ⟨others, hothers, has⟩ := Except.of_bind_ok has
    cases has
    exact List.forall_mem_cons.2 ⟨h (caps.mono (Nat.le_max_left _ _)) ha,
      ih (caps.mono (Nat.le_max_right _ _)) hothers⟩

theorem Yields.list {R : Nat → List α → Prop} (h : d.Yields P)
    (all : ∀ n as, (∀ a ∈ as, P n a) → R (n + 1) as) : d.list.Yields R := by
  intro source draft n as caps has
  cases draft with
  | array drafts ending =>
    obtain ⟨inner, opens, has⟩ := Except.of_bind_ok has
    obtain ⟨_, hitems, has⟩ := Except.of_bind_ok has
    obtain ⟨_, -, has⟩ := Except.of_bind_ok has
    cases has
    obtain ⟨m, rfl, within⟩ := caps.inside opens
    exact all m as (h.items within hitems)
  | _ => exact absurd has (mismatch_ne_ok _ _ _)

/-- A part that may be null is decoded as itself if it is not. -/
theorem yields_optional (h : ∀ {source : Source} {draft : Draft} {n : Nat} {a : α},
      source.Caps draft.depth n → draft ≠ .null → d source draft = .ok a → P n a) :
    d.optional.Yields fun n o => ∀ a ∈ o, P n a := by
  intro source draft n o caps ho
  by_cases hnull : draft = .null
  · subst hnull
    cases ho
    exact fun _ none => nomatch none
  · have present : d.optional source draft = (d source draft).map some := by
      cases draft with
      | null => exact absurd rfl hnull
      | absent | misspelt | bool | number | string | array | object => rfl
    have mapped : d.map some source draft = .ok o := present.symm.trans ho
    obtain ⟨a, ha, rfl⟩ := of_map_ok mapped
    rintro _ ⟨⟩
    exact h caps hnull ha

theorem yields_optional_value :
    Decoder.value.optional.Yields fun n o => ∀ v ∈ o, v.json.depth ≤ n ∧ v ≠ Value.null := by
  refine yields_optional (P := fun n (v : Value) => v.json.depth ≤ n ∧ v ≠ .null) ?_
  refine fun caps present hv => ⟨yields_value caps hv, ?_⟩
  rintro rfl
  exact present (eq_null_of_value hv)

end Decoder

/-! ## Records -/

namespace Placed

variable {α β : Type} {a : α} {b : β} {place : Nat}

theorem of_at_ok {x : Except DecodeError α} (h : Placed.at place x = .ok a) : x = .ok a := by
  cases x with
  | error e => cases h
  | ok c =>
    cases h
    rfl

theorem of_both_ok {f : Placed (α → β)} {x : Placed α} (h : Placed.both f x = .ok b) :
    ∃ g a, f = .ok g ∧ x = .ok a ∧ b = g a := by
  cases f with
  | error e =>
    cases x with
    | error e' =>
      simp only [Placed.both] at h
      split at h <;> cases h
    | ok a => cases h
  | ok g =>
    cases x with
    | error e => cases h
    | ok a =>
      cases h
      exact ⟨g, a, rfl, rfl, rfl⟩

end Placed

def Members.depth : Members → Nat
  | .entries es => Draft.depthEntries es
  | .items xs _ => Draft.depthItems xs

theorem depth_le_of_firstEntry {key : String} {es rest : Entries} {m n : Nat} {d : Draft}
    (h : firstEntry key n es = some (m, d, rest)) : d.depth ≤ Draft.depthEntries es := by
  induction es generalizing n with
  | nil => cases h
  | cons entry more ih =>
    obtain ⟨name, other⟩ := entry
    unfold firstEntry at h
    split at h
    · cases h
      exact Nat.le_max_left _ _
    · exact (ih h).trans (Nat.le_max_right _ _)

theorem depth_le_of_mem_items {drafts : List Draft} {d : Draft} (h : d ∈ drafts) :
    d.depth ≤ Draft.depthItems drafts := by
  induction h with
  | head => exact Nat.le_max_left _ _
  | tail _ _ ih => exact ih.trans (Nat.le_max_right _ _)

namespace Layout

variable {α β : Type} {f : Layout (α → β)} {d : Decoder α} {P : Nat → α → Prop}
  {R : Nat → β → Prop} {name : String}

/-- Whether all that is read of fields within a bound has a property that may depend on it. -/
def Yields (layout : Layout α) (P : Nat → α → Prop) : Prop :=
  ∀ ⦃source : Source⦄ ⦃described : String⦄ ⦃index : Nat⦄ ⦃members : Members⦄ ⦃n : Nat⦄ ⦃a : α⦄,
    source.Caps members.depth n → layout.read source described index members = .ok a → P n a

theorem yields_pure {a : α} (h : ∀ n, P n a) : (Layout.pure a).Yields P := by
  rintro source described index members n _ - ⟨⟩
  exact h n

/-- A field has a property that its values and its default have. -/
theorem yields_field {absence : Absence α} (hd : d.Yields P)
    (object : ∀ a ∈ absence.inObject?, ∀ n, P n a) (array : ∀ a ∈ absence.inArray?, ∀ n, P n a) :
    (field name absence d).Yields P := by
  intro source described index members n a caps ha
  cases members with
  | entries es =>
    change readEntry name absence d source es = .ok a at ha
    unfold readEntry at ha
    split at ha
    · split at ha
      · next b default =>
        cases ha
        exact object _ default n
      · cases ha
    · next m draft rest hfirst =>
      obtain ⟨b, hb, ha⟩ := Except.of_bind_ok ha
      have hb := hd (caps.mono (depth_le_of_firstEntry hfirst)) (Placed.of_at_ok hb)
      split at ha
      · cases ha
        exact hb
      · cases ha
  | items xs ending =>
    change readItem absence d source described index xs ending = .ok a at ha
    unfold readItem at ha
    split at ha
    · next draft hitem =>
      exact hd (caps.mono (depth_le_of_mem_items (List.mem_of_getElem? hitem)))
        (Placed.of_at_ok ha)
    · obtain ⟨_, -, ha⟩ := Except.of_bind_ok ha
      split at ha
      · next b default =>
        cases ha
        exact array _ default n
      · cases ha

/-- Fields one after the other: what is made of the first ones holds of any value of the next. -/
theorem Yields.seq {x : Layout α} (hf : f.Yields fun n g => ∀ a, P n a → R n (g a))
    (hx : x.Yields P) : (f.seq x).Yields R := by
  intro source described index members n b caps hb
  obtain ⟨g, a, hg, ha, rfl⟩ := Placed.of_both_ok hb
  exact hf caps hg a (hx caps ha)

theorem Yields.required (hf : f.Yields fun n g => ∀ a, P n a → R n (g a)) (hd : d.Yields P) :
    (f.required name d).Yields R :=
  hf.seq (yields_field hd (by simp [Absence.inObject?]) (by simp [Absence.inArray?]))

theorem Yields.defaulted {default : α} (hf : f.Yields fun n g => ∀ a, P n a → R n (g a))
    (hd : d.Yields P) (hdefault : ∀ n, P n default) :
    (f.defaulted name default d).Yields R := by
  refine hf.seq (yields_field hd ?_ ?_)
  · rintro _ ⟨⟩
    exact hdefault
  · rintro _ ⟨⟩
    exact hdefault

end Layout

namespace Decoder

variable {α : Type} {P : Nat → α → Prop}

theorem yields_record {layout : Layout α} (title : String)
    (h : layout.Yields fun n a => P (n + 1) a) : (Decoder.record title layout).Yields P := by
  intro source draft n a caps ha
  cases draft with
  | object es ending =>
    obtain ⟨inner, opens, ha⟩ := Except.of_bind_ok ha
    obtain ⟨g, b, hform, hb, rfl⟩ := Placed.of_both_ok (Except.of_mapError_ok ha)
    obtain ⟨m, rfl, within⟩ := caps.inside opens
    cases hentries : checkEntries layout.names ending 0 es with
    | error e =>
      rw [hentries] at hform
      cases hform
    | ok _ =>
      rw [hentries] at hform
      cases hform
      exact h (show inner.Caps (Members.depth (.entries es)) m from within) hb
  | array xs ending =>
    obtain ⟨inner, opens, ha⟩ := Except.of_bind_ok ha
    obtain ⟨b, hb, ha⟩ := Except.of_bind_ok ha
    obtain ⟨_, -, ha⟩ := Except.of_bind_ok ha
    cases ha
    obtain ⟨m, rfl, within⟩ := caps.inside opens
    exact h (show inner.Caps (Members.depth (.items xs ending)) m from within)
      (Except.of_mapError_ok hb)
  | _ => exact absurd ha (mismatch_ne_ok _ _ _)

end Decoder

/-! ## Records with a tag -/

namespace Variant

variable {α : Type} {P : Nat → α → Prop}

/-- Whether all that a variant reads of the kept parts of a container has a property. -/
def Yields (variant : Variant α) (P : Nat → α → Prop) : Prop :=
  variant.content.Yields fun n a => 0 < n → P n a

theorem yields_record (name title : String) {layout : Layout α}
    (h : layout.Yields fun n a => P (n + 1) a) : (record name title layout).Yields P :=
  (Decoder.yields_record _ h).imp fun _ _ ha _ => ha

theorem yields_empty (name : String) {a : α} (h : ∀ n, P (n + 1) a) :
    (empty name a).Yields P := by
  intro source draft n b _ hb opened
  obtain ⟨m, rfl⟩ : ∃ m, n = m + 1 := ⟨n - 1, by omega⟩
  cases draft with
  | array xs ending =>
    change (checkSurplus source 0 xs.length ending).map (fun _ => a) = .ok b at hb
    cases hsurplus : checkSurplus source 0 xs.length ending with
    | error e =>
      rw [hsurplus] at hb
      cases hb
    | ok _ =>
      rw [hsurplus] at hb
      cases hb
      exact h m
  | _ =>
    cases hb
    exact h m

theorem mem_of_find {variants : List (Variant α)} {name : String} {variant : Variant α}
    (h : find variants name = .ok variant) : variant ∈ variants := by
  unfold find at h
  split at h
  · next hfind =>
    cases h
    exact List.mem_of_find?_eq_some hfind
  · cases h

end Variant

namespace Decoder

variable {α : Type} {P : Nat → α → Prop} {source : Source} {draft : Draft} {n : Nat}

theorem mem_of_variantName {variants : List (Variant α)} {variant : Variant α}
    (h : variantName variants source draft = .ok variant) : variant ∈ variants := by
  unfold variantName at h
  split at h
  · obtain ⟨name, -, h⟩ := Except.of_bind_ok h
    exact Variant.mem_of_find h
  · obtain ⟨number, -, h⟩ := Except.of_bind_ok h
    split at h
    · exact absurd h (mismatch_ne_ok _ _ _)
    split at h
    · exact absurd h (mismatch_ne_ok _ _ _)
    split at h
    · next hvariant =>
      cases h
      exact List.mem_of_getElem? hvariant
    · cases h
  · exact absurd h (mismatch_ne_ok _ _ _)

/-- The other entries are kept within the bound, and what counts as the tag was under it. -/
theorem of_takeTag_ok {tag : String} {d : Decoder α} {Q : α → Prop} {es others : Entries}
    {found taken : Option α} (reads : ∀ {draft a}, d source draft = .ok a → Q a)
    (caps : source.Caps (Draft.depthEntries es) n)
    (h : takeTag tag d source found es = .ok (taken, others)) :
    (∀ a ∈ taken, a ∈ found ∨ Q a) ∧ Draft.depthEntries others ≤ n := by
  induction es generalizing found others with
  | nil =>
    cases h
    exact ⟨fun _ => .inl, Nat.zero_le n⟩
  | cons entry rest ih =>
    obtain ⟨key, j⟩ := entry
    have before := caps.mono (Nat.le_max_right j.depth (Draft.depthEntries rest))
    obtain ⟨name, -, h⟩ := Except.of_bind_ok h
    split at h
    · cases found with
      | some a => cases h
      | none =>
        obtain ⟨a, ha, h⟩ := Except.of_bind_ok h
        obtain ⟨tagged, within⟩ := ih before h
        refine ⟨fun b hb => .inr ?_, within⟩
        rcases tagged b hb with same | hb
        · exact Option.some.inj same ▸ reads ha
        · exact hb
    · obtain ⟨_, hkeep, h⟩ := Except.of_bind_ok h
      obtain ⟨⟨_, kept⟩, hrest, h⟩ := Except.of_bind_ok h
      cases h
      obtain ⟨tagged, within⟩ := ih before hrest
      exact ⟨tagged, Nat.max_le.2 ⟨(caps.mono (Nat.le_max_left _ _)).keep hkeep, within⟩⟩

theorem of_keepItems_ok {drafts : List Draft} {u : Unit}
    (caps : source.Caps (Draft.depthItems drafts) n)
    (h : keepItems source drafts = .ok u) : Draft.depthItems drafts ≤ n := by
  induction drafts with
  | nil => exact Nat.zero_le n
  | cons draft rest ih =>
    obtain ⟨_, hkeep, h⟩ := Except.of_bind_ok h
    exact Nat.max_le.2 ⟨(caps.mono (Nat.le_max_left _ _)).keep hkeep,
      ih (caps.mono (Nat.le_max_right _ _)) h⟩

theorem yields_tagged (title tag : String) {variants : List (Variant α)}
    (h : ∀ variant ∈ variants, variant.Yields P) : (tagged title tag variants).Yields P := by
  intro source draft n a caps ha
  cases draft with
  | object es ending =>
    obtain ⟨inner, opens, ha⟩ := Except.of_bind_ok ha
    obtain ⟨⟨found, others⟩, htag, ha⟩ := Except.of_bind_ok ha
    obtain ⟨_, -, ha⟩ := Except.of_bind_ok ha
    obtain ⟨m, rfl, within⟩ := caps.inside opens
    obtain ⟨tagged, kept⟩ := of_takeTag_ok mem_of_variantName within htag
    cases found with
    | none => cases ha
    | some variant =>
      have known := (tagged variant rfl).resolve_left (nomatch ·)
      have within : (Draft.object others .closed).depth ≤ m + 1 := Nat.succ_le_succ kept
      exact h variant known (.inl within) ha m.succ_pos
  | array xs ending =>
    cases xs with
    | nil =>
      obtain ⟨_, -, ha⟩ := Except.of_bind_ok ha
      obtain ⟨_, -, ha⟩ := Except.of_bind_ok ha
      cases ha
    | cons x xs =>
      obtain ⟨inner, opens, ha⟩ := Except.of_bind_ok ha
      obtain ⟨variant, hvariant, ha⟩ := Except.of_bind_ok ha
      obtain ⟨_, hkeep, ha⟩ := Except.of_bind_ok ha
      obtain ⟨_, -, ha⟩ := Except.of_bind_ok ha
      obtain ⟨m, rfl, within⟩ := caps.inside opens
      have kept := of_keepItems_ok (within.mono (Nat.le_max_right _ _)) hkeep
      have within : (Draft.array xs .closed).depth ≤ m + 1 := Nat.succ_le_succ kept
      exact h variant (mem_of_variantName hvariant) (.inl within) ha m.succ_pos
  | _ => exact absurd ha (mismatch_ne_ok _ _ _)

/-! ## Alternatives -/

/-- Whether a variant's content has a property: as a name it stands for a value within any bound, as
an entry it is inside an object. -/
def Content.Yields : Content α → (Nat → α → Prop) → Prop
  | .unit a, P => ∀ n, P n a
  | .part d, P => d.Yields fun n a => P (n + 1) a

theorem of_findContent_ok {variants : List (String × Content α)} {name : String}
    {content : Content α} (h : findContent variants name = .ok content) :
    ∃ known, (known, content) ∈ variants := by
  unfold findContent at h
  split at h
  · next hlookup =>
    cases h
    obtain ⟨before, after, rfl, -⟩ := List.lookup_eq_some_iff.1 hlookup
    exact ⟨name, List.mem_append_right _ List.mem_cons_self⟩
  · cases h

theorem Content.Yields.alone {content : Content α} {a : α} (h : content.Yields P)
    (ha : content.alone = .ok a) (n : Nat) : P n a := by
  cases content with
  | unit b =>
    cases ha
    exact h n
  | part d => cases ha

theorem Content.Yields.entry {content : Content α} {a : α} (h : content.Yields P)
    (caps : source.Caps draft.depth n) (ha : content.decoder source draft = .ok a) :
    P (n + 1) a := by
  cases content with
  | unit b =>
    obtain ⟨_, -, rfl⟩ := of_map_ok ha
    exact h (n + 1)
  | part d => exact h caps ha

theorem yields_alternative {variants : List (String × Content α)}
    (h : ∀ entry ∈ variants, entry.2.Yields P) : (alternative variants).Yields P := by
  have yields : ∀ {name : String} {content : Content α},
      findContent variants name = .ok content → content.Yields P := by
    intro name content hfind
    obtain ⟨known, mem⟩ := of_findContent_ok hfind
    exact h _ mem
  intro source draft n a caps ha
  unfold alternative at ha
  split at ha
  · obtain ⟨name, -, ha⟩ := Except.of_bind_ok ha
    obtain ⟨content, hfind, ha⟩ := Except.of_bind_ok ha
    exact (yields hfind).alone ha n
  · obtain ⟨inner, opens, ha⟩ := Except.of_bind_ok ha
    obtain ⟨m, rfl, within⟩ := caps.inside opens
    split at ha
    · cases ha
    · obtain ⟨name, -, ha⟩ := Except.of_bind_ok ha
      obtain ⟨content, hfind, ha⟩ := Except.of_bind_ok ha
      obtain ⟨b, hb, ha⟩ := Except.of_bind_ok ha
      obtain ⟨_, -, ha⟩ := Except.of_bind_ok ha
      cases ha
      exact (yields hfind).entry (within.mono (Nat.le_max_left _ _)) hb
  · cases ha
  · cases ha
  · next _ _ j _ untext =>
    obtain ⟨name, -, ha⟩ := Except.of_bind_ok ha
    obtain ⟨content, hfind, ha⟩ := Except.of_bind_ok ha
    -- outside of texts no container is counted, but the draft itself is no deeper than the bound
    have within := caps.resolve_right (untext n)
    cases n with
    | zero => cases within
    | succ m =>
      have below : j.depth ≤ m := (Nat.le_max_left _ _).trans (Nat.le_of_succ_le_succ within)
      exact (yields hfind).entry (.inl below) ha
  · cases ha
  · exact absurd ha (mismatch_ne_ok _ _ _)

theorem yields_named (variants : List (String × α)) :
    (named variants).Yields fun _ a => ∃ name, (name, a) ∈ variants := by
  refine yields_alternative fun entry mem => ?_
  obtain ⟨⟨name, a⟩, known, rfl⟩ := List.mem_map.1 mem
  exact fun _ => ⟨name, known⟩

theorem yields_emptyContent (title : String) {a : α} (h : ∀ n, P n a) :
    (emptyContent title a).Yields P := by
  intro source draft n b _ hb
  cases draft with
  | null =>
    cases hb
    exact h n
  | _ => exact absurd hb (mismatch_ne_ok _ _ _)

/-! ## Tag and content as two entries -/

theorem depth_le_of_next {keys : SplitKeys} {ending : Ending} {es rest : Entries} {isTag : Bool}
    {d : Draft} (h : keys.next ending es = .ok (some (isTag, d, rest))) :
    d.depth ≤ Draft.depthEntries es ∧ Draft.depthEntries rest ≤ Draft.depthEntries es := by
  induction es with
  | nil =>
    unfold SplitKeys.next at h
    cases hending : checkEnding ending.objectFault? <;> rw [hending] at h <;> cases h
  | cons entry more ih =>
    obtain ⟨key, j⟩ := entry
    obtain ⟨name, -, h⟩ := Except.of_bind_ok h
    split at h
    · cases h
      exact ⟨Nat.le_max_left _ _, Nat.le_max_right _ _⟩
    split at h
    · cases h
      exact ⟨Nat.le_max_left _ _, Nat.le_max_right _ _⟩
    · obtain ⟨_, -, h⟩ := Except.of_bind_ok h
      obtain ⟨first, others⟩ := ih h
      exact ⟨first.trans (Nat.le_max_right _ _), others.trans (Nat.le_max_right _ _)⟩

end Decoder

namespace SplitVariant

variable {α : Type} {P : Nat → α → Prop}

/-- Whether what a variant stands for has a property, with its content inside a container. -/
structure Yields (variant : SplitVariant α) (P : Nat → α → Prop) : Prop where
  content : variant.content.Yields fun n a => P (n + 1) a
  absent : ∀ a ∈ variant.absent, ∀ n, P (n + 1) a

end SplitVariant

namespace Decoder

variable {α : Type} {P : Nat → α → Prop} {variants : Decoder (SplitVariant α)}

theorem yields_decode {keys : SplitKeys} {source : Source} {ending : Ending} {es : Entries}
    {n : Nat} {a : α} (h : variants.Yields fun _ variant => variant.Yields P)
    (caps : source.Caps (Draft.depthEntries es) n)
    (ha : keys.decode variants source ending es = .ok a) : P (n + 1) a := by
  obtain ⟨entry, hnext, ha⟩ := Except.of_bind_ok ha
  match entry with
  | none => cases ha
  | some (true, d, rest) =>
    obtain ⟨first, others⟩ := depth_le_of_next hnext
    obtain ⟨variant, hvariant, ha⟩ := Except.of_bind_ok ha
    have yields := h (caps.mono first) hvariant
    obtain ⟨entry, hnext', ha⟩ := Except.of_bind_ok ha
    match entry with
    | none =>
      cases habsent : variant.absent with
      | none =>
        simp only [habsent] at ha
        cases ha
      | some b =>
        simp only [habsent] at ha
        cases ha
        exact yields.absent a habsent n
    | some (true, _) => cases ha
    | some (false, content, rest') =>
      obtain ⟨b, hb, ha⟩ := Except.of_bind_ok ha
      cases of_close_ok ha
      exact yields.content (caps.mono ((depth_le_of_next hnext').1.trans others)) hb
  | some (false, held, rest) =>
    obtain ⟨first, others⟩ := depth_le_of_next hnext
    obtain ⟨_, hkeep, ha⟩ := Except.of_bind_ok ha
    obtain ⟨entry, hnext', ha⟩ := Except.of_bind_ok ha
    match entry with
    | none => cases ha
    | some (false, _) => cases ha
    | some (true, d, rest') =>
      obtain ⟨variant, hvariant, ha⟩ := Except.of_bind_ok ha
      obtain ⟨b, hb, ha⟩ := Except.of_bind_ok ha
      cases of_close_ok ha
      have yields := h (caps.mono ((depth_le_of_next hnext').1.trans others)) hvariant
      exact yields.content (.inl ((caps.mono first).keep hkeep)) hb

theorem yields_split (title : String) (keys : SplitKeys)
    (h : variants.Yields fun _ variant => variant.Yields P) :
    (split title keys variants).Yields P := by
  intro source draft n a caps ha
  cases draft with
  | object es ending =>
    obtain ⟨inner, opens, ha⟩ := Except.of_bind_ok ha
    obtain ⟨m, rfl, within⟩ := caps.inside opens
    exact yields_decode h within ha
  | array xs ending =>
    obtain ⟨inner, opens, ha⟩ := Except.of_bind_ok ha
    obtain ⟨m, rfl, within⟩ := caps.inside opens
    match xs with
    | [] =>
      obtain ⟨_, -, ha⟩ := Except.of_bind_ok ha
      cases ha
    | x :: more =>
      obtain ⟨variant, hvariant, ha⟩ := Except.of_bind_ok ha
      match more with
      | [] =>
        obtain ⟨_, -, ha⟩ := Except.of_bind_ok ha
        cases ha
      | y :: rest =>
        obtain ⟨b, hb, ha⟩ := Except.of_bind_ok ha
        obtain ⟨_, -, ha⟩ := Except.of_bind_ok ha
        cases ha
        have mem : y ∈ x :: y :: rest := List.mem_cons_of_mem x List.mem_cons_self
        exact (h (within.mono (Nat.le_max_left _ _)) hvariant).content
          (within.mono (depth_le_of_mem_items mem)) hb
  | _ => exact absurd ha (mismatch_ne_ok _ _ _)

end Decoder

end WorkflowEngine
