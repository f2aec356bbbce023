import Mathlib
import WorkflowEngine.Proofs.Yields
/-!
Two decoders of the same documents, of which one checks more than the other. Whatever it accepts the
other one accepts too, with a related result. Each way to build a decoder from others has a lemma
that passes this on.
-/
set_option autoImplicit false

namespace WorkflowEngine

open Json (Draft Ending)

/-! ## Results that another computation has too -/

section Results

variable {ε ε' α β γ δ : Type} {R : α → β → Prop} {S : γ → δ → Prop}

/-- Whether one computation succeeds if another one does, and with a related result. -/
def Refines (R : α → β → Prop) (x : Except ε α) (y : Except ε β) : Prop :=
  ∀ a, x = .ok a → ∃ b, y = .ok b ∧ R a b

theorem refines_self (x : Except ε α) : Refines Eq x x := fun a h => ⟨a, h, rfl⟩

theorem refines_ok {a : α} {b : β} (h : R a b) :
    Refines R (.ok a : Except ε α) (.ok b) := by
  rintro _ ⟨⟩
  exact ⟨b, rfl, h⟩

theorem refines_error {e : ε} {y : Except ε β} : Refines R (.error e) y := nofun

theorem Refines.bind {x : Except ε α} {y : Except ε β} {f : α → Except ε γ} {g : β → Except ε δ}
    (h : Refines R x y) (next : ∀ a b, R a b → Refines S (f a) (g b)) :
    Refines S (x >>= f) (y >>= g) := by
  intro c hc
  obtain ⟨a, ha, hc⟩ := Except.of_bind_ok hc
  obtain ⟨b, rfl, related⟩ := h a ha
  exact next a b related c hc

/-- What both computations have in common stands before the parts that differ. -/
theorem Refines.after (x : Except ε α) {f : α → Except ε γ} {g : α → Except ε δ}
    (next : ∀ a, Refines S (f a) (g a)) : Refines S (x >>= f) (x >>= g) :=
  (refines_self x).bind fun a _ same => same ▸ next a

theorem Refines.mapError {x : Except ε α} {y : Except ε β} (h : Refines R x y) (f : ε → ε') :
    Refines R (x.mapError f) (y.mapError f) := by
  intro a ha
  obtain ⟨b, rfl, related⟩ := h a (Except.of_mapError_ok ha)
  exact ⟨b, rfl, related⟩

theorem Refines.at {x : Except DecodeError α} {y : Except DecodeError β} (h : Refines R x y)
    (place : Nat) : Refines R (Placed.at place x) (Placed.at place y) := by
  intro a ha
  obtain ⟨b, rfl, related⟩ := h a (Placed.of_at_ok ha)
  exact ⟨b, rfl, related⟩

theorem Refines.both {f : Placed (α → γ)} {g : Placed (β → δ)} {x : Placed α} {y : Placed β}
    (hf : Refines (fun p q => ∀ a b, R a b → S (p a) (q b)) f g) (hx : Refines R x y) :
    Refines S (Placed.both f x) (Placed.both g y) := by
  intro c hc
  obtain ⟨p, a, hp, ha, rfl⟩ := Placed.of_both_ok hc
  obtain ⟨q, rfl, related⟩ := hf p hp
  obtain ⟨b, rfl, hab⟩ := hx a ha
  exact ⟨q b, rfl, related a b hab⟩

end Results

/-! ## Decoders that accept less -/

namespace Decoder

variable {α β γ : Type} {d : Decoder α} {raw : Decoder β} {R : α → β → Prop}

/-- Whether another decoder accepts all that a decoder accepts, and with a related result. -/
def Refines (d : Decoder α) (raw : Decoder β) (R : α → β → Prop) : Prop :=
  ∀ source draft, WorkflowEngine.Refines R (d source draft) (raw source draft)

theorem refines_any (d : Decoder α) : d.Refines d fun _ _ => True :=
  fun _ _ a h => ⟨a, h, trivial⟩

theorem Refines.mono {S : α → β → Prop} (h : d.Refines raw R) (le : ∀ a b, R a b → S a b) :
    d.Refines raw S :=
  fun source draft a ha => (h source draft a ha).imp fun b => And.imp_right (le a b)

theorem refines_refine {check : α → Except String γ} {S : γ → α → Prop}
    (related : ∀ a c, check a = .ok c → S c a) : (d.refine check).Refines d S := by
  intro source draft c hc
  obtain ⟨a, ha, hc⟩ := Except.of_bind_ok hc
  refine ⟨a, ha, related a c ?_⟩
  cases hcheck : check a with
  | error reason =>
    simp only [hcheck] at hc
    cases hc
  | ok c' =>
    simp only [hcheck] at hc
    cases hc
    rfl

theorem refines_mismatch {draft : Draft} {expected : String} {y : Except DecodeError β} :
    WorkflowEngine.Refines R (mismatch draft expected) y :=
  fun a h => absurd h (mismatch_ne_ok draft expected a)

theorem Refines.items (h : d.Refines raw R) (source : Source) (drafts : List Draft) :
    WorkflowEngine.Refines (List.Forall₂ R) (d.items source drafts) (raw.items source drafts) := by
  induction drafts with
  | nil => exact refines_ok .nil
  | cons draft rest ih =>
    exact (h source draft).bind fun a b related =>
      ih.bind fun as bs all => refines_ok (.cons related all)

theorem Refines.list (h : d.Refines raw R) : d.list.Refines raw.list (List.Forall₂ R) := by
  intro source draft
  cases draft with
  | array drafts ending =>
    exact .after source.inside fun inner =>
      (h.items inner drafts).bind fun as bs all => .after _ fun _ => refines_ok all
  | _ => exact refines_mismatch

end Decoder

namespace Layout

variable {α β γ δ : Type} {f : Layout (α → γ)} {g : Layout (β → δ)} {d : Decoder α}
  {raw : Decoder β} {R : α → β → Prop} {S : γ → δ → Prop} {name : String}

/-- Whether another layout has the same fields and reads all that a layout reads, with a related
result. -/
structure Refines (layout : Layout α) (raw : Layout β) (R : α → β → Prop) : Prop where
  names : layout.names = raw.names
  read : ∀ source described index members, WorkflowEngine.Refines R
    (layout.read source described index members) (raw.read source described index members)

theorem Refines.width {layout : Layout α} {raw : Layout β} (h : layout.Refines raw R) :
    layout.width = raw.width :=
  congrArg List.length h.names

theorem refines_pure {a : α} {b : β} (related : R a b) :
    (Layout.pure a).Refines (Layout.pure b) R :=
  ⟨rfl, fun _ _ _ _ => refines_ok related⟩

theorem refines_field (h : d.Refines raw R) :
    (field name .required d).Refines (field name .required raw) R := by
  refine ⟨rfl, fun source described index members => ?_⟩
  cases members with
  | entries es =>
    change WorkflowEngine.Refines R (readEntry name .required d source es)
      (readEntry name .required raw source es)
    unfold readEntry
    split
    · exact refines_error
    · next n draft rest _ =>
      refine ((h source draft).at _).bind fun a b related => ?_
      split
      · exact refines_ok related
      · exact refines_error
  | items xs ending =>
    change WorkflowEngine.Refines R (readItem .required d source described index xs ending)
      (readItem .required raw source described index xs ending)
    unfold readItem
    split
    · exact (h source _).at _
    · exact .after _ fun _ => refines_error

theorem Refines.seq {x : Layout α} {y : Layout β}
    (hf : f.Refines g fun p q => ∀ a b, R a b → S (p a) (q b)) (hx : x.Refines y R) :
    (f.seq x).Refines (g.seq y) S := by
  refine ⟨congrArg₂ (· ++ ·) hf.names hx.names, fun source described index members => ?_⟩
  simp only [Layout.seq, hf.width]
  exact (hf.read _ _ _ _).both (hx.read _ _ _ _)

theorem Refines.required (hf : f.Refines g fun p q => ∀ a b, R a b → S (p a) (q b))
    (h : d.Refines raw R) : (f.required name d).Refines (g.required name raw) S :=
  hf.seq (refines_field h)

end Layout

namespace Decoder

variable {α β : Type} {R : α → β → Prop}

theorem refines_record {layout : Layout α} {raw : Layout β} (title : String)
    (h : layout.Refines raw R) : (Decoder.record title layout).Refines (.record title raw) R := by
  intro source draft
  simp only [Decoder.record, h.names, h.width]
  cases draft with
  | object es ending =>
    refine .after source.inside fun inner => .mapError (.both ?_ (h.read _ _ _ _)) _
    intro p hp
    cases hform : checkEntries raw.names ending 0 es with
    | error e =>
      rw [hform] at hp
      cases hp
    | ok _ =>
      rw [hform] at hp
      cases hp
      exact ⟨id, rfl, fun _ _ => id⟩
  | array xs ending =>
    exact .after source.inside fun inner =>
      ((h.read _ _ _ _).mapError _).bind fun a b related => .after _ fun _ => refines_ok related
  | _ => exact refines_mismatch

end Decoder

/-! ## Variants that accept less -/

namespace Variant

variable {α β : Type} {R : α → β → Prop}

/-- Whether another variant of the same name accepts all that a variant accepts. -/
structure Refines (variant : Variant α) (raw : Variant β) (R : α → β → Prop) : Prop where
  name : variant.name = raw.name
  content : variant.content.Refines raw.content R

theorem refines_record {layout : Layout α} {raw : Layout β} (name title : String)
    (h : layout.Refines raw R) : (record name title layout).Refines (record name title raw) R :=
  ⟨rfl, Decoder.refines_record _ h⟩

variable {variants : List (Variant α)} {raws : List (Variant β)}

theorem refines_find? (h : List.Forall₂ (Refines · · R) variants raws) (name : String) :
    Option.Rel (Refines · · R) (variants.find? (·.name == name)) (raws.find? (·.name == name)) := by
  induction h with
  | nil => exact .none
  | @cons first raw _ _ related _ ih =>
    rw [List.find?_cons, List.find?_cons, ← related.name]
    cases first.name == name with
    | true => exact .some related
    | false => exact ih

theorem refines_find (h : List.Forall₂ (Refines · · R) variants raws) (name : String) :
    WorkflowEngine.Refines (Refines · · R) (find variants name) (find raws name) := by
  have related := refines_find? h name
  unfold find
  generalize variants.find? (·.name == name) = found, raws.find? (·.name == name) = found' at *
  cases related with
  | none => exact refines_error
  | some related => exact refines_ok related

end Variant

namespace Decoder

variable {α β : Type} {R : α → β → Prop} {variants : List (Variant α)} {raws : List (Variant β)}

theorem refines_variantName (h : List.Forall₂ (Variant.Refines · · R) variants raws) :
    (variantName variants).Refines (variantName raws) (Variant.Refines · · R) := by
  intro source draft
  unfold variantName
  split
  · exact .after _ fun name => Variant.refines_find h name
  · refine .after _ fun number => ?_
    cases number with
    | float x => exact refines_mismatch
    | integer i minus =>
      dsimp only
      split
      · exact refines_mismatch
      · by_cases bound : i.toNat < variants.length
        · have bound' : i.toNat < raws.length := h.length_eq ▸ bound
          rw [List.getElem?_eq_getElem bound, List.getElem?_eq_getElem bound']
          exact refines_ok (h.get bound bound')
        · rw [List.getElem?_eq_none (Nat.le_of_not_lt bound)]
          exact refines_error
  · exact refines_mismatch

theorem Refines.takeTag {d : Decoder α} {raw : Decoder β} (h : d.Refines raw R) (tag : String)
    (source : Source) {found : Option α} {found' : Option β} (related : Option.Rel R found found')
    (es : Entries) :
    WorkflowEngine.Refines (fun taken taken' => Option.Rel R taken.1 taken'.1 ∧ taken.2 = taken'.2)
      (takeTag tag d source found es) (takeTag tag raw source found' es) := by
  induction es generalizing found found' with
  | nil => exact refines_ok ⟨related, rfl⟩
  | cons entry rest ih =>
    obtain ⟨key, j⟩ := entry
    refine .after _ fun name => ?_
    split
    · cases related with
      | some => exact refines_error
      | none => exact (h source j).bind fun a b hab => ih (.some hab)
    · exact .after _ fun _ => (ih related).bind fun _ _ rest =>
        refines_ok ⟨rest.1, congrArg ((key, j) :: ·) rest.2⟩

theorem refines_tagged (title tag : String)
    (h : List.Forall₂ (Variant.Refines · · R) variants raws) :
    (tagged title tag variants).Refines (tagged title tag raws) R := by
  intro source draft
  cases draft with
  | object es ending =>
    refine .after source.inside fun inner =>
      ((refines_variantName h).takeTag tag inner .none es).bind ?_
    rintro ⟨found, others⟩ ⟨found', _⟩ ⟨related, rfl⟩
    refine .after _ fun _ => ?_
    cases related with
    | none => exact refines_error
    | some related => exact related.content _ _
  | array xs ending =>
    cases xs with
    | nil => exact .after _ fun _ => .after _ fun _ => refines_error
    | cons x xs =>
      exact .after source.inside fun inner =>
        (refines_variantName h inner x).bind fun variant raw related =>
          .after _ fun _ => .after _ fun _ => related.content _ _
  | _ => exact refines_mismatch

end Decoder

/-! ## Whole documents -/

/-- A document as it comes to a decoder: as a part of another one, as a text, as bytes, or as a
value in memory. -/
inductive Carrier where
  | part (source : Source) (draft : Draft)
  | text (text : String)
  | bytes (bytes : List UInt8)
  | value (v : Value)

namespace Decoder

variable {α β : Type} {d : Decoder α} {raw : Decoder β} {R : α → β → Prop}

def receive (d : Decoder α) : Carrier → Except DecodeError α
  | .part source draft => d source draft
  | .text text => d.ofText text
  | .bytes bytes => d.ofBytes bytes
  | .value v => d.ofValue v

theorem Refines.ofChars (h : d.Refines raw R) (stray : Option Char) (cs : List Char) :
    WorkflowEngine.Refines R (d.ofChars stray cs) (raw.ofChars stray cs) :=
  (h _ _).bind fun _ _ related => .after _ fun _ => refines_ok related

theorem Refines.receive (h : d.Refines raw R) (c : Carrier) :
    WorkflowEngine.Refines R (d.receive c) (raw.receive c) := by
  cases c with
  | part source draft => exact h source draft
  | text text => exact h.ofChars none text.toList
  | value v => exact h .memory (.ofJson v.json)
  | bytes bytes =>
    simp only [Decoder.receive, Decoder.ofBytes]
    split
    · exact h.ofChars none _
    · exact h.ofChars _ _

end Decoder

end WorkflowEngine
