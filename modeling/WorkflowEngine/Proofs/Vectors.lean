import Mathlib
import WorkflowEngine.Proofs.SequenceItems
/-!
Vectors are read as the concatenation of their partitions, of which any may be empty or occur more
than once. An index is looked for from one partition to the next, and there is one place only for
it.
-/
set_option autoImplicit false

namespace WorkflowEngine

/-- Whether a sequence has been made of certain items in the store of a session that came by later.
-/
def Sequence.MadeFor (q : Sequence) (items : List Value) (r : Session) : Prop :=
  ∃ (t : DataSettings) (w w' : Session), w.run (create t items).run = (.ok q, w') ∧
    r.Follows q.Owns w'.backend

theorem Sequence.MadeFor.offers {q : Sequence} {items : List Value} {r : Session}
    (h : q.MadeFor items r) (legible : Legible items) (few : items.length < UInt64.size) :
    q.Offers r.lookup items := by
  obtain ⟨t, w, w', created, follows⟩ := h
  exact ((holds_of_create few created).2.keeps follows.keeps).offers follows.coherent legible

namespace PartitionVector

variable {ps : List Sequence} {q : Sequence} {i j l p : Nat}

/-! ## Places -/

@[simp] theorem length_nil : length ⟨[]⟩ = 0 := rfl

@[simp] theorem length_cons : length ⟨q :: ps⟩ = q.length.toNat + length ⟨ps⟩ := rfl

/-- Whether an index leads to a place of a partition: it is the place after all that is before. -/
structure At (ps : List Sequence) (i p : Nat) (q : Sequence) (l : Nat) : Prop where
  partition : ps[p]? = some q
  within : l < q.length.toNat
  index : i = length ⟨ps.take p⟩ + l

theorem At.cons {first : Sequence} (h : At ps i p q l) :
    At (first :: ps) (first.length.toNat + i) (p + 1) q l where
  partition := h.partition
  within := h.within
  index := by rw [List.take_succ_cons, length_cons, h.index, Nat.add_assoc]

theorem exists_at (within : i < length ⟨ps⟩) : ∃ p q l, At ps i p q l := by
  induction ps generalizing i with
  | nil => exact absurd within (Nat.not_lt_zero i)
  | cons q rest ih =>
    by_cases here : i < q.length.toNat
    · exact ⟨0, q, i, rfl, here, by simp⟩
    · rw [length_cons] at within
      obtain ⟨p, q', l, later⟩ := ih (i := i - q.length.toNat) (by omega)
      refine ⟨p + 1, q', l, ?_⟩
      have moved : At (q :: rest) (q.length.toNat + (i - q.length.toNat)) (p + 1) q' l :=
        later.cons
      rwa [Nat.add_sub_cancel' (by omega)] at moved

theorem At.unique {p' l' : Nat} {q' : Sequence} (h : At ps i p q l) (h' : At ps i p' q' l') :
    p' = p ∧ l' = l := by
  induction ps generalizing i p p' with
  | nil => exact nomatch h.partition
  | cons first rest ih =>
    obtain ⟨hq, hl, hi⟩ := h
    obtain ⟨hq', hl', hi'⟩ := h'
    cases p with
    | zero =>
      cases hq
      cases p' with
      | zero =>
        simp at hi hi'
        omega
      | succ p' =>
        simp at hi hi'
        omega
    | succ p =>
      cases p' with
      | zero =>
        cases hq'
        simp at hi hi'
        omega
      | succ p' =>
        rw [List.take_succ_cons, length_cons] at hi hi'
        have later := ih (i := i - first.length.toNat) ⟨hq, hl, by omega⟩
          ⟨hq', hl', by omega⟩
        omega

theorem At.locate_eq (h : At ps i p q l) : locate ps i = some (q, l) := by
  induction ps generalizing i p with
  | nil => exact nomatch h.partition
  | cons first rest ih =>
    obtain ⟨hq, hl, hi⟩ := h
    rw [locate]
    cases p with
    | zero =>
      cases hq
      obtain rfl : i = l := by simpa using hi
      rw [if_pos hl]
    | succ p =>
      rw [List.take_succ_cons, length_cons] at hi
      rw [if_neg (by omega)]
      exact ih ⟨hq, hl, by omega⟩

theorem locate_past (past : length ⟨ps⟩ ≤ i) : locate ps i = none := by
  induction ps generalizing i with
  | nil => rfl
  | cons first rest ih =>
    rw [length_cons] at past
    rw [locate, if_neg (by omega)]
    exact ih (by omega)

theorem length_take_succ (hq : ps[p]? = some q) :
    length ⟨ps.take (p + 1)⟩ = length ⟨ps.take p⟩ + q.length.toNat := by
  induction ps generalizing p with
  | nil => exact nomatch hq
  | cons first rest ih =>
    cases p with
    | zero =>
      cases hq
      simp
    | succ p => simp [ih (p := p) hq, Nat.add_assoc]

/-- How far the search for an index gets: what is left of the partitions and of the index. -/
inductive Seeks (ps : List Sequence) (i : Nat) : List Sequence → Nat → Prop
  | start : Seeks ps i ps i
  | next {q : Sequence} {rest : List Sequence} {j : Nat} : Seeks ps i (q :: rest) j →
      ¬ j < q.length.toNat → Seeks ps i rest (j - q.length.toNat)

/-- What is left of an index is the index without all lengths before, so that no subtraction falls
below zero. -/
theorem Seeks.exact {rest : List Sequence} (h : Seeks ps i rest j) :
    locate ps i = locate rest j ∧ ∃ p, rest = ps.drop p ∧ i = length ⟨ps.take p⟩ + j := by
  induction h with
  | start => exact ⟨rfl, 0, rfl, by simp⟩
  | @next q rest j before past ih =>
    obtain ⟨same, p, hrest, hi⟩ := ih
    rw [same, locate, if_neg past]
    have hq : ps[p]? = some q := by
      rw [← Nat.add_zero p, ← List.getElem?_drop, ← hrest]
      rfl
    refine ⟨rfl, p + 1, ?_, ?_⟩
    · rw [← List.tail_drop, ← hrest, List.tail_cons]
    · rw [length_take_succ hq]
      omega

/-! ## Reading -/

variable {parts : List (Sequence × List Value)} {r : Session} {P : StoreCommand → Prop}

/-- The partitions of some sequences with their items. -/
def partitionsOf (parts : List (Sequence × List Value)) : List Sequence := parts.map Prod.fst

/-- The items of some sequences one after the other. -/
def itemsOf (parts : List (Sequence × List Value)) : List Value := (parts.map Prod.snd).flatten

@[simp] theorem partitionsOf_cons (part : Sequence × List Value) :
    partitionsOf (part :: parts) = part.1 :: partitionsOf parts := rfl

@[simp] theorem itemsOf_cons (part : Sequence × List Value) :
    itemsOf (part :: parts) = part.2 ++ itemsOf parts := rfl

theorem length_itemsOf (lengths : ∀ part ∈ parts, part.1.length.toNat = part.2.length) :
    length ⟨partitionsOf parts⟩ = (itemsOf parts).length := by
  induction parts with
  | nil => rfl
  | cons part rest ih =>
    have later := ih fun part' h => lengths part' (List.mem_cons_of_mem part h)
    have first := lengths part List.mem_cons_self
    simp [later, first]

theorem At.getElem?_itemsOf (lengths : ∀ part ∈ parts, part.1.length.toNat = part.2.length)
    (h : At (partitionsOf parts) i p q l) :
    ∃ items, parts[p]? = some (q, items) ∧ (itemsOf parts)[i]? = items[l]? := by
  induction parts generalizing i p with
  | nil => exact nomatch h.partition
  | cons part rest ih =>
    obtain ⟨hq, hl, hi⟩ := h
    have first := lengths part List.mem_cons_self
    cases p with
    | zero =>
      cases hq
      obtain rfl : i = l := by simpa using hi
      exact ⟨part.2, rfl, by rw [itemsOf_cons, List.getElem?_append_left (by omega)]⟩
    | succ p =>
      rw [partitionsOf_cons, List.take_succ_cons, length_cons] at hi
      obtain ⟨items, hitems, later⟩ := ih (i := i - part.1.length.toNat) (p := p)
        (fun part' h => lengths part' (List.mem_cons_of_mem part h)) ⟨hq, hl, by omega⟩
      refine ⟨items, hitems, ?_⟩
      rw [itemsOf_cons, List.getElem?_append_right (by omega), ← first, later]

theorem reads_readAll (offers : ∀ part ∈ parts, part.1.Offers r.lookup part.2) :
    r.Reads (fun _ => True) (readAll Decoder.value (partitionsOf parts)).run
      (.ok (itemsOf parts)) := by
  induction parts generalizing r with
  | nil => exact Session.reads_pure []
  | cons part rest ih =>
    have first := (offers part List.mem_cons_self).toList
    refine (first.mono fun _ _ => trivial).andThen_ok fun r' alike => ?_
    have later := ih (r := r') fun part' h =>
      alike.lookup ▸ offers part' (List.mem_cons_of_mem part h)
    exact later.andThen_ok fun r'' _ => Session.reads_pure _

theorem reads_takeAll (offers : ∀ part ∈ parts, part.1.Offers r.lookup part.2) (n : Nat) :
    r.Reads (fun _ => True) (takeAll Decoder.value (partitionsOf parts) n).run
      (.ok ((itemsOf parts).take n)) := by
  induction parts generalizing r n with
  | nil =>
    rw [show itemsOf [] = [] from rfl, List.take_nil]
    exact Session.reads_pure []
  | cons part rest ih =>
    have first := (offers part List.mem_cons_self).take n
    refine (first.mono fun _ _ => trivial).andThen_ok fun r' alike => ?_
    have later := ih (r := r') (fun part' h =>
      alike.lookup ▸ offers part' (List.mem_cons_of_mem part h)) (n - part.2.length)
    rw [itemsOf_cons, List.take_append]
    by_cases last : n ≤ part.2.length
    · rw [if_pos (by rw [List.length_take]; omega), Nat.sub_eq_zero_of_le last, List.take_zero,
        List.append_nil]
      exact Session.reads_pure _
    · rw [if_neg (by rw [List.length_take]; omega), List.take_of_length_le (by omega)]
      exact later.andThen_ok fun r'' _ => Session.reads_pure _

theorem reads_get {x : Value} (offers : ∀ part ∈ parts, part.1.Offers r.lookup part.2)
    (hx : (itemsOf parts)[i]? = some x) :
    r.Reads (fun _ => True) (get Decoder.value ⟨partitionsOf parts⟩ i).run (.ok x) := by
  have lengths := fun part h => (offers part h).length
  obtain ⟨within, -⟩ := List.getElem?_eq_some_iff.1 hx
  rw [← length_itemsOf lengths] at within
  obtain ⟨p, q, l, place⟩ := exists_at within
  obtain ⟨items, hpart, hitem⟩ := place.getElem?_itemsOf lengths
  rw [get, place.locate_eq]
  exact ((offers _ (List.mem_of_getElem? hpart)).get (hitem ▸ hx)).mono fun _ _ => trivial

theorem reads_get_past (past : length ⟨ps⟩ ≤ i) :
    r.Reads P (get Decoder.value ⟨ps⟩ i).run
      (.error (.notFound ("vector[" ++ toString i ++ "]"))) := by
  rw [get, locate_past past]
  exact Session.reads_throw _

theorem length_le_of_mem {part : Sequence × List Value} (h : part ∈ parts) :
    part.2.length ≤ (itemsOf parts).length :=
  (List.sublist_flatten_of_mem (List.mem_map_of_mem h)).length_le

/-- The lengths of partitions added to a number of 64 bits. -/
def lengthFrom : UInt64 → List Sequence → UInt64
  | n, [] => n
  | n, q :: rest => lengthFrom (n + q.length) rest

/-- The sum of the lengths does not wrap around if there is room for all items. -/
theorem toNat_lengthFrom {n : UInt64} (few : n.toNat + length ⟨ps⟩ < UInt64.size) :
    (lengthFrom n ps).toNat = n.toNat + length ⟨ps⟩ := by
  induction ps generalizing n with
  | nil => rfl
  | cons q rest ih =>
    rw [length_cons] at few ⊢
    have sum : (n + q.length).toNat = n.toNat + q.length.toNat := by
      rw [UInt64.toNat_add]
      exact Nat.mod_eq_of_lt (by simp only [UInt64.size] at few; omega)
    rw [lengthFrom, ih (by omega), sum, Nat.add_assoc]

/-- A vector of sequences that have been made is read as their items one after the other, whatever
their lengths and chunks are: as a whole, from the start and at each index. For each index there is
one place, which is the one that is located, and the search for it never takes off more than is
left. -/
theorem reads_concatenation {r : Session}
    (made : ∀ part ∈ parts, part.1.MadeFor part.2 r ∧ Legible part.2)
    (few : (itemsOf parts).length < UInt64.size) :
    length ⟨partitionsOf parts⟩ = (itemsOf parts).length ∧
    (lengthFrom 0 (partitionsOf parts)).toNat = (itemsOf parts).length ∧
    (r.run (toList Decoder.value ⟨partitionsOf parts⟩).run).1 = .ok (itemsOf parts) ∧
    (∀ n, (r.run (take Decoder.value ⟨partitionsOf parts⟩ n).run).1 =
      .ok ((itemsOf parts).take n)) ∧
    (∀ i x, (itemsOf parts)[i]? = some x →
      (r.run (get Decoder.value ⟨partitionsOf parts⟩ i).run).1 = .ok x) ∧
    (∀ i, (itemsOf parts).length ≤ i → (r.run (get Decoder.value ⟨partitionsOf parts⟩ i).run).1 =
      .error (.notFound ("vector[" ++ toString i ++ "]"))) ∧
    (∀ i < (itemsOf parts).length, ∃ p q l, At (partitionsOf parts) i p q l ∧
      locate (partitionsOf parts) i = some (q, l) ∧
      ∀ p' q' l', At (partitionsOf parts) i p' q' l' → p' = p ∧ l' = l) ∧
    ∀ i rest j, Seeks (partitionsOf parts) i rest j →
      locate (partitionsOf parts) i = locate rest j ∧
      ∃ p, rest = (partitionsOf parts).drop p ∧
        i = length ⟨(partitionsOf parts).take p⟩ + j := by
  have offers : ∀ part ∈ parts, part.1.Offers r.lookup part.2 := fun part h =>
    (made part h).1.offers (made part h).2 ((length_le_of_mem h).trans_lt few)
  have lengths := length_itemsOf fun part h => (offers part h).length
  refine ⟨lengths, ?_, (reads_readAll offers).result, fun n => (reads_takeAll offers n).result,
    fun i x hx => (reads_get offers hx).result, fun i past => ?_, fun i within => ?_,
    fun i rest j seeks => seeks.exact⟩
  · rw [toNat_lengthFrom (by simpa [lengths] using few), lengths]
    exact Nat.zero_add _
  · rw [← lengths] at past
    exact (reads_get_past (P := fun _ => True) past).result
  · rw [← lengths] at within
    obtain ⟨p, q, l, place⟩ := exists_at within
    exact ⟨p, q, l, place, place.locate_eq, fun p' q' l' place' => place.unique place'⟩

/-- An empty sequence and one with two chunks, made one after the other. -/
theorem exists_made_twice : ∃ (w₀ w₁ w₂ : Session) (e q : Sequence), w₀.cache = .empty ∧
    w₀.run (Sequence.create (.ofParts "stratus" 7 100) []).run = (.ok e, w₁) ∧
    w₁.run (Sequence.create (.ofParts "stratus" 2 100) [.null, .bool true, .null]).run =
      (.ok q, w₂) := by
  have first : ((⟨.memory .empty, .empty, 0, 0⟩ : Session).run
      (Sequence.create (.ofParts "stratus" 7 100) []).run).1 =
        .ok (.made (.ofParts "stratus" 7 100) (Uuid.fresh 0) 0) := by cbv
  have second : (((⟨.memory .empty, .empty, 0, 0⟩ : Session).run
      (Sequence.create (.ofParts "stratus" 7 100) []).run).2.run
        (Sequence.create (.ofParts "stratus" 2 100) [.null, .bool true, .null]).run).1 =
          .ok (.made (.ofParts "stratus" 2 100) (Uuid.fresh 1) 3) := by cbv
  exact ⟨_, _, _, _, _, rfl, Prod.ext first rfl, Prod.ext second rfl⟩

/-- The empty sequence between two occurrences of the other one. -/
theorem reads_concatenation_repeated : ∃ (q e : Sequence) (r : Session),
    (r.run (toList Decoder.value ⟨[q, e, q]⟩).run).1 =
      .ok [.null, .bool true, .null, .null, .bool true, .null] ∧
    (r.run (get Decoder.value ⟨[q, e, q]⟩ 4).run).1 = .ok (.bool true) := by
  obtain ⟨w₀, w₁, w₂, e, q, start, first, second⟩ := exists_made_twice
  have legible : Legible [.null, .bool true, .null] := by
    intro v hv
    obtain rfl | rfl | rfl : v = .null ∨ v = .bool true ∨ v = .null := by simpa using hv
    all_goals exact ⟨by decide, trivial⟩
  have empty : e.MadeFor [] w₂ := ⟨_, w₀, w₁, first, w₀, w₁, start,
    Sequence.elapses_create first, rfl, Sequence.elapses_create second⟩
  have full : q.MadeFor [.null, .bool true, .null] w₂ := ⟨_, w₁, w₂, second, w₀, w₂, start,
    (Sequence.elapses_create first).trans (Sequence.elapses_create second), rfl, .refl⟩
  have made : ∀ part ∈ [(q, [.null, .bool true, .null]), (e, []), (q, [.null, .bool true, .null])],
      part.1.MadeFor part.2 w₂ ∧ Legible part.2 := by
    simp only [List.forall_mem_cons]
    exact ⟨⟨full, legible⟩, ⟨empty, nofun⟩, ⟨full, legible⟩, nofun⟩
  obtain ⟨-, -, all, -, single, -⟩ := reads_concatenation made (show 6 < UInt64.size by decide)
  exact ⟨q, e, w₂, all, single 4 _ rfl⟩

end PartitionVector

end WorkflowEngine
