import Mathlib
import WorkflowEngine.Proofs.KeyOrder
/-!
The ways to write a record. In an object each of its components stands once, anywhere and among
entries of other names; in an array the components stand in their order. A component may be left out
only if that says something. Each way to build a decoder of records from others has a lemma that
says which spellings it accepts, wherever the depth of a document is not limited.
-/
set_option autoImplicit false

namespace WorkflowEngine

open Json (Draft)

/-! ## Spellings -/

/-- A component of a record: its name, how its value may be written, and whether it may be left
out. -/
structure Component where
  name : String
  Written : Json → Prop
  Omissible : Prop := False

/-- What may stand at the place of a component. -/
inductive Component.Stands (c : Component) : List Json → Prop
  | written {j : Json} (h : c.Written j) : Stands c [j]
  | omitted (h : c.Omissible) : Stands c []

/-- The spellings of a record. -/
inductive Spells (cs : List Component) : Json → Prop
  | object {es : List (String × Json)} (h : ∀ c ∈ cs, c.Stands (Json.valuesAt c.name es)) :
      Spells cs (.object es)
  | array {xs : List Json} (few : xs.length ≤ cs.length)
      (h : ∀ (i : Nat) (c : Component), cs[i]? = some c → c.Stands xs[i]?.toList) :
      Spells cs (.array xs)

/-- The spellings of a record with a name under a tag. -/
def Tagged (tag name : String) (cs : List Component) : Json → Prop :=
  Spells ({ name := tag, Written := (· = .string name) } :: cs)

@[simp] theorem Component.stands_one {c : Component} {j : Json} : c.Stands [j] ↔ c.Written j :=
  ⟨fun | .written h => h, .written⟩

@[simp] theorem Component.stands_none {c : Component} : c.Stands [] ↔ c.Omissible :=
  ⟨fun | .omitted h => h, .omitted⟩

section Spells

variable {c : Component} {cs : List Component} {j : Json} {js : List Json}
  {es : List (String × Json)}

@[simp] theorem spells_object :
    Spells cs (.object es) ↔ ∀ c ∈ cs, c.Stands (Json.valuesAt c.name es) :=
  ⟨fun | .object h => h, .object⟩

@[simp] theorem spells_array_nil : Spells cs (.array []) ↔ ∀ c ∈ cs, c.Omissible := by
  constructor
  · rintro (_ | ⟨-, h⟩) c hc
    obtain ⟨i, hi⟩ := List.getElem?_of_mem hc
    simpa using h i c hi
  · exact fun h => .array (Nat.zero_le _) fun i c hi => .omitted (h c (List.mem_of_getElem? hi))

@[simp] theorem spells_array_cons :
    Spells (c :: cs) (.array (j :: js)) ↔ c.Written j ∧ Spells cs (.array js) := by
  constructor
  · rintro (_ | ⟨few, h⟩)
    exact ⟨Component.stands_one.1 (h 0 c rfl),
      .array (Nat.le_of_succ_le_succ few) fun i c hc => h (i + 1) c hc⟩
  · rintro ⟨first, _ | ⟨few, h⟩⟩
    refine .array (Nat.succ_le_succ few) fun i d hd => ?_
    cases i with
    | zero =>
      cases hd
      exact .written first
    | succ i => exact h i d hd

theorem Spells.depth_pos (h : Spells cs j) : 0 < j.depth := by
  cases h <;> exact Nat.succ_pos _

end Spells

namespace Component

def string (name s : String) : Component := { name, Written := (· = .string s) }

def count (name : String) (n : UInt64) : Component := { name, Written := (· = .integer n) }

/-- A value may be written in any document that has it. -/
def value (name : String) (v : Value) : Component := { name, Written := (Value.ofJson · = v) }

def list {α : Type} (name : String) (Written : α → Json → Prop) (as : List α) : Component :=
  { name, Written := fun j => ∃ js, j = .array js ∧ List.Forall₂ Written as js }

def values (name : String) (vs : List Value) : Component :=
  .list name (fun v j => Value.ofJson j = v) vs

end Component

/-! ## What is accepted -/

namespace Decoder

variable {α β : Type} {d : Decoder α} {n : Nat} {W : Json → Prop} {a : α}

/-- Whether the documents with a property that are not too deep are decoded as a value, as parts
that were kept. -/
def Accepts (d : Decoder α) (n : Nat) (W : Json → Prop) (a : α) : Prop :=
  ∀ j, W j → j.depth ≤ n → d .kept (.ofJson j) = .ok a

theorem Restores.accepts {j : Json} (h : d.Restores j a) : d.Accepts n (· = j) a := by
  rintro _ rfl -
  exact h .kept trivial

theorem Accepts.mono {m : Nat} (h : d.Accepts n W a) (le : m ≤ n) : d.Accepts m W a :=
  fun j hj within => h j hj (within.trans le)

theorem accepts_value (v : Value) : Decoder.value.Accepts n (Value.ofJson · = v) v := by
  rintro j rfl -
  unfold Decoder.value
  rw [Source.read_ofJson, if_pos (show Source.kept.Holds _ from trivial)]
  rfl

theorem Accepts.refine {check : α → Except String β} {b : β} (h : d.Accepts n W a)
    (checked : check a = .ok b) : (d.refine check).Accepts n W b := by
  intro j hj within
  unfold Decoder.refine
  rw [h j hj within]
  simp only [bind, Except.bind, checked]
  rfl

theorem Accepts.optional (h : d.Accepts n W a) (present : ¬ W .null) :
    d.optional.Accepts n W (some a) := by
  intro j hj within
  have hoptional : d.optional .kept (.ofJson j) = (d .kept (.ofJson j)).map some := by
    cases j with
    | null => exact absurd hj present
    | bool | number | string | array | object => rfl
  rw [hoptional, h j hj within]
  rfl

theorem accepts_items {Written : α → Json → Prop} {as : List α} {js : List Json}
    (h : ∀ a ∈ as, d.Accepts n (Written a) a) (written : List.Forall₂ Written as js)
    (within : Json.depthItems js ≤ n) : d.items .kept (Draft.ofItems js) = .ok as := by
  induction written with
  | nil => rfl
  | @cons a j as js first _ ih =>
    obtain ⟨here, later⟩ := Nat.max_le.1 within
    simp only [Draft.ofItems, Decoder.items, h a List.mem_cons_self j first here,
      ih (fun b hb => h b (List.mem_cons_of_mem a hb)) later]
    rfl

theorem accepts_list {Written : α → Json → Prop} {as : List α}
    (h : ∀ a ∈ as, d.Accepts n (Written a) a) :
    d.list.Accepts n (fun j => ∃ js, j = .array js ∧ List.Forall₂ Written as js) as := by
  rintro _ ⟨js, rfl, written⟩ within
  have items := accepts_items h written (Nat.le_of_succ_le within)
  simp only [Draft.ofJson, Decoder.list, Source.inside, items, bind, Except.bind]
  rfl

end Decoder

theorem Json.depth_le_of_getElem? {js : List Json} {i : Nat} {j : Json} (h : js[i]? = some j) :
    j.depth ≤ Json.depthItems js := by
  induction js generalizing i with
  | nil => cases h
  | cons first rest ih =>
    cases i with
    | zero =>
      cases h
      exact Nat.le_max_left _ _
    | succ i => exact (ih h).trans (Nat.le_max_right _ _)

namespace Layout

variable {α β : Type} {f : Layout (α → β)} {g : α → β} {d : Decoder α} {n : Nat}
  {cs : List Component} {c : Component} {a : α}

/-- Whether the fields of a record are read from each of its spellings. -/
structure Accepts (layout : Layout α) (n : Nat) (cs : List Component) (a : α) : Prop where
  width : layout.width = cs.length
  entries : ∀ {es : List (String × Json)} (described : String) (index : Nat),
    (∀ c ∈ cs, c.Stands (Json.valuesAt c.name es)) → Json.depthEntries es ≤ n →
      layout.read .kept described index (.entries (Draft.ofEntries es)) = .ok a
  items : ∀ {xs : List Json} (described : String) (index : Nat),
    (∀ (i : Nat) (c : Component), cs[i]? = some c → c.Stands xs[index + i]?.toList) →
    Json.depthItems xs ≤ n →
      layout.read .kept described index (.items (Draft.ofItems xs) .closed) = .ok a

theorem accepts_pure (n : Nat) (a : α) : (Layout.pure a).Accepts n [] a :=
  ⟨rfl, fun _ _ _ _ => rfl, fun _ _ _ _ => rfl⟩

/-- A component is read as a field if its spellings are, and the field has its value by default if
the component may be left out. -/
theorem accepts_field {absence : Absence α} (h : d.Accepts n c.Written a)
    (object : c.Omissible → absence.inObject? = some a)
    (array : c.Omissible → absence.inArray? = some a) :
    (field c.name absence d).Accepts n [c] a where
  width := rfl
  entries := by
    intro es described index stands within
    have here := stands c List.mem_cons_self
    change readEntry c.name absence d .kept (Draft.ofEntries es) = .ok a
    generalize hat : Json.valuesAt c.name es = o at here
    cases here with
    | @written j written =>
      have mem : j ∈ Json.valuesAt c.name es := hat ▸ List.mem_cons_self
      exact readEntry_of_single hat
        (h j written ((Json.depth_le_of_mem_valuesAt mem).trans within))
    | omitted omissible =>
      simp only [readEntry, firstEntry_of_absent hat, object omissible]
  items := by
    intro xs described index stands within
    have here := stands 0 c rfl
    rw [Nat.add_zero] at here
    change readItem absence d .kept described index (Draft.ofItems xs) .closed = .ok a
    unfold readItem
    rw [Json.Draft.ofItems_eq_map, List.getElem?_map]
    cases hat : xs[index]? with
    | none =>
      rw [hat] at here
      cases here with
      | omitted omissible =>
        simp only [Option.map_none, array omissible]
        rfl
    | some j =>
      rw [hat] at here
      cases here with
      | written written =>
        have here := h j written ((Json.depth_le_of_getElem? hat).trans within)
        simp only [Option.map_some, here]
        rfl

theorem Accepts.seq {x : Layout α} {ds : List Component} (hf : f.Accepts n cs g)
    (hx : x.Accepts n ds a) : (f.seq x).Accepts n (cs ++ ds) (g a) where
  width := by
    rw [List.length_append, ← hf.width, ← hx.width]
    exact List.length_append
  entries := by
    intro es described index stands within
    obtain ⟨first, later⟩ := List.forall_mem_append.1 stands
    simp only [Layout.seq, hf.entries described index first within,
      hx.entries described _ later within]
    rfl
  items := by
    intro xs described index stands within
    have first := hf.items described index (fun i c hc => stands i c
      ((List.getElem?_append_left (List.getElem?_eq_some_iff.1 hc).1).trans hc)) within
    have later := hx.items described (index + f.width) (fun i c hc => by
      have place : (cs ++ ds)[cs.length + i]? = some c := by
        rw [List.getElem?_append_right (Nat.le_add_right _ _), Nat.add_sub_cancel_left, hc]
      have := stands (cs.length + i) c place
      rwa [hf.width, Nat.add_assoc]) within
    simp only [Layout.seq, first, later]
    rfl

variable {name : String} {W : Json → Prop} {O : Prop}

theorem Accepts.required (hf : f.Accepts n cs g) (h : d.Accepts n W a) :
    (f.required name d).Accepts n (cs ++ [⟨name, W, False⟩]) (g a) :=
  hf.seq (accepts_field (c := ⟨name, W, False⟩) h False.elim False.elim)

theorem Accepts.defaulted {default : α} (hf : f.Accepts n cs g) (h : d.Accepts n W a)
    (left_out : O → default = a) :
    (f.defaulted name default d).Accepts n (cs ++ [⟨name, W, O⟩]) (g a) :=
  hf.seq (accepts_field (c := ⟨name, W, O⟩) h (fun o => congrArg some (left_out o))
    fun o => congrArg some (left_out o))

end Layout

namespace Decoder

variable {α : Type} {n : Nat} {cs : List Component} {a : α}

theorem accepts_record {layout : Layout α} (title : String) (h : layout.Accepts n cs a) :
    (Decoder.record title layout).Accepts (n + 1) (Spells cs) a := by
  rintro _ (@⟨es, stands⟩ | @⟨xs, few, stands⟩) within
  · have read := h.entries (title ++ " with " ++ countOf layout.width "element") 0 stands
      (Nat.le_of_succ_le_succ within)
    simp only [Draft.ofJson, Decoder.record, Source.inside, bind, Except.bind,
      checkEntries_ofEntries, read]
    rfl
  · have read := h.items (title ++ " with " ++ countOf layout.width "element") 0
      (by simpa using stands) (Nat.le_of_succ_le_succ within)
    have length : (Draft.ofItems xs).length ≤ layout.width := by
      rw [Json.Draft.ofItems_eq_map, List.length_map, h.width]
      exact few
    simp only [Draft.ofJson, Decoder.record, Source.inside, bind, Except.bind, read,
      Except.mapError, checkSurplus, if_pos length]
    rfl

theorem accepts_record_within {layout : Layout α} (title : String) (h : layout.Accepts n cs a) :
    (Decoder.record title layout).Accepts n (Spells cs) a :=
  (accepts_record title h).mono (Nat.le_succ n)

theorem accepts_empty (name : String) (a : α) :
    (Variant.empty name a).content.Accepts n (Spells []) a := by
  rintro _ (_ | @⟨xs, few, -⟩) -
  · rfl
  · cases List.eq_nil_of_length_eq_zero (Nat.le_zero.1 few)
    rfl

/-! ## Records with a tag -/

/-- A spelling of a tagged record is decoded, if what is left without the tag is. -/
theorem tagged_of_spelling {tag name title : String} {variants : List (Variant α)}
    {variant : Variant α} (known : Variant.find variants name = .ok variant)
    (apart : ∀ c ∈ cs, c.name ≠ tag) (content : variant.content.Accepts n (Spells cs) a) {j : Json}
    (spelt : Tagged tag name cs j) (within : j.depth ≤ n) :
    (tagged title tag variants).Reads j a := by
  cases spelt with
  | @object es stands =>
    refine reads_container rfl (fun _ => rfl) fun source => ?_
    obtain ⟨tagged, others⟩ := List.forall_mem_cons.1 stands
    generalize hat : Json.valuesAt tag es = o at tagged
    cases tagged with
    | omitted h => cases h
    | written h =>
      subst h
      -- The tag is no container, so what is left without it is as deep as all was.
      have depth : Json.depthEntries (Json.without tag es) = Json.depthEntries es :=
        Json.depthEntries_without (by simp [hat, Json.depth])
      have rest : Spells cs (.object (Json.without tag es)) :=
        .object fun c hc => Json.valuesAt_without (apart c hc) es ▸ others c hc
      have decoded := content _ rest ((congrArg (· + 1) depth).trans_le within)
      rw [← depth, takeTag_of_single hat (variantName_string known source)]
      split
      · exact decoded
      · rfl
  | @array xs few stands =>
    cases xs with
    | nil => exact nomatch stands 0 _ rfl
    | cons x xs =>
      obtain ⟨rfl, rest⟩ := spells_array_cons.1 (.array few stands)
      refine reads_container rfl (fun _ => rfl) fun source => ?_
      have decoded := content _ rest ((Nat.succ_le_succ (Nat.le_max_right _ _)).trans within)
      have named : variantName variants source (.string (.of name)) = .ok variant :=
        variantName_string known source
      have depth : Json.depthItems (.string name :: xs) = Json.depthItems xs := Nat.zero_max _
      simp only [Draft.ofJson, named, keepItems_ofItems, depth, bind, Except.bind]
      by_cases room : source.Holds (Json.depthItems xs)
      · rw [if_pos room, if_pos room]
        exact decoded
      · rw [if_neg room, if_neg room]

end Decoder

end WorkflowEngine
