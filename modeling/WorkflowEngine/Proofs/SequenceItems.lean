import Mathlib
import WorkflowEngine.Proofs.Coherence
import WorkflowEngine.Proofs.NormalForm
import WorkflowEngine.Proofs.SequenceReads
/-!
What is read of a sequence that has been made. Its chunks stand under keys of their own, are written
once and are decoded as the items that they were written for, so that everybody finds the items at
their places who starts with an empty cache, as long as nobody takes the entries away.
-/
set_option autoImplicit false

namespace WorkflowEngine

namespace Sequence

/-! ## Keys -/

theorem chunkName_injective : Function.Injective chunkName := by
  intro i j h
  have digits := congrArg (fun name => Nat.ofDigitChars 10 (name.toList.drop 6) 0) h
  simpa [chunkName, Nat.ofDigitChars_append] using digits

theorem text_chunkKey (key : Key) (i : Nat) :
    (chunkKey key i).text = key.text ++ ("/" ++ chunkName i) := by
  simp [chunkKey, Key.child, Key.text, String.append_assoc]

theorem text_chunkKey_ne (key : Key) (i : Nat) : (chunkKey key i).text ≠ key.text := by
  rw [text_chunkKey]
  intro h
  have lengths := congrArg String.length h
  simp at lengths

theorem text_chunkKey_inj {key : Key} {i j : Nat}
    (h : (chunkKey key i).text = (chunkKey key j).text) : i = j := by
  rw [text_chunkKey, text_chunkKey] at h
  have chars := congrArg String.toList h
  simp only [String.toList_append, List.append_cancel_left_eq] at chars
  exact chunkName_injective (String.toList_inj.1 chars)

/-- The keys under which the header and the chunks of a sequence are. -/
def Owns (q : Sequence) (key : Key) : Prop :=
  key = q.key ∨ ∃ i < q.chunkCount, key = chunkKey q.key i

end Sequence

/-! ## Written forms -/

/-- Items of which any list can be read when it has been written: there is room for one container
around them, and floats are assumed to be read back as themselves. -/
def Legible (items : List Value) : Prop := ∀ v ∈ items, v.depth ≤ 126 ∧ v.json.Exact

namespace Legible

variable {items : List Value}

theorem depthItems_le (h : Legible items) : Json.depthItems (items.map Value.json) ≤ 126 := by
  induction items with
  | nil => simp [Json.depthItems]
  | cons v rest ih =>
    have first := (h v List.mem_cons_self).1
    have later := ih fun w hw => h w (List.mem_cons_of_mem v hw)
    exact Nat.max_le.2 ⟨first, later⟩

theorem exact (h : Legible items) : (Value.array items).json.Exact := by
  show Json.ItemsExact (items.map Value.json)
  induction items with
  | nil => trivial
  | cons v rest ih =>
    exact ⟨(h v List.mem_cons_self).2, ih fun w hw => h w (List.mem_cons_of_mem v hw)⟩

theorem ofBytes_toBytes (h : Legible items) :
    Decoder.value.list.ofBytes (Value.array items).json.toBytes = .ok items := by
  rw [Decoder.ofBytes_toBytes _ h.exact]
  exact Operation.restores_values items _ (Nat.succ_le_succ h.depthItems_le)

end Legible

namespace Sequence

theorem ofHeader_toBytes (q : Sequence) :
    ofHeader q.key (headerJson q.length q.chunkSize).toBytes = .ok q := by
  have exact : (headerJson q.length q.chunkSize).Exact := ⟨trivial, trivial, trivial⟩
  have restores :
      headerDecoder.Restores (headerJson q.length q.chunkSize) (q.length, q.chunkSize) :=
    Decoder.restores_record _ <| (Layout.restores_pure _ _)
      |>.required rfl (Decoder.restores_uint64 _ q.length)
      |>.required rfl (Decoder.restores_uint64 _ q.chunkSize)
  have read : headerDecoder.ofBytes (headerJson q.length q.chunkSize).toBytes =
      .ok (q.length, q.chunkSize) := by
    rw [Decoder.ofBytes_toBytes _ exact]
    exact restores _ (show 1 ≤ 127 by decide)
  simp [ofHeader, read, ofParts, q.chunkSize_ne_zero, Except.mapError]

/-! ## Making a sequence -/

section Making

variable {s s' : Session} {key : Key} {i : Nat} {chunks : List (List Value)}

open StoreProgram

theorem elapses_writeChunks (K : Key → Prop) (s : Session) (key : Key) (i : Nat)
    (chunks : List (List Value)) : s.Elapses K (s.run (writeChunks key i chunks).run).2 := by
  induction chunks generalizing s i with
  | nil => exact .refl
  | cons items rest ih =>
    exact Session.elapses_bind (.single (.make s _ _)) fun _ s' _ => ih s' (i + 1)

theorem stored_writeChunks (h : s.run (writeChunks key i chunks).run = (.ok (), s')) :
    ∀ j items, chunks[j]? = some items →
      s'.backend.fetch (chunkKey key (i + j)) = .ok (Value.array items).json.toBytes := by
  induction chunks generalizing s i with
  | nil => simp
  | cons first rest ih =>
    rw [writeChunks] at h
    obtain ⟨u, s₁, made, h⟩ := Session.of_run_bind_ok h
    intro j items hitems
    cases j with
    | zero =>
      cases hitems
      -- Writing the later chunks takes nothing away.
      have later := (elapses_writeChunks (fun _ => True) s₁ key (i + 1) rest).keeps
      rw [h] at later
      exact later _ _ trivial (Session.stored_createImmutable made)
    | succ j =>
      rw [← Nat.add_assoc, Nat.add_right_comm]
      exact ih h j items hitems

theorem run_writeChunks
    (unused : ∀ j < chunks.length, s.backend.entry (chunkKey key (i + j)) = .ok none) :
    ∃ s', s.run (writeChunks key i chunks).run = (.ok (), s') ∧
      ∀ k : Key, (∀ j, k.text ≠ (chunkKey key j).text) →
        s'.backend.entry k = s.backend.entry k := by
  induction chunks generalizing s i with
  | nil => exact ⟨s, rfl, fun _ _ => rfl⟩
  | cons items rest ih =>
    obtain ⟨created, -⟩ := Backend.run_act
      (c := .create (chunkKey key i) (Value.array items).json.toBytes) (unused 0 (by simp))
    have made := Session.run_createImmutable_ok created
    have apart : ∀ k : Key, (chunkKey key i).text ≠ k.text →
        (s.backend.run (.create (chunkKey key i) (Value.array items).json.toBytes)).2.entry k =
          s.backend.entry k := fun k hk => s.backend.entry_run_of_ne hk
    rw [writeChunks, Session.run_bind_ok made]
    obtain ⟨s', hrun, others⟩ := ih (i := i + 1) (s := { s with
        backend := (s.backend.run (.create (chunkKey key i) (Value.array items).json.toBytes)).2
        cache := s.cache.insert (chunkKey key i) (Value.array items).json.toBytes })
      fun j hj => by
        rw [apart _ fun h => by have := text_chunkKey_inj h; omega, Nat.add_assoc, Nat.add_comm 1]
        exact unused (j + 1) (by simpa using hj)
    exact ⟨s', hrun, fun k hk => (others k hk).trans (apart k (hk i).symm)⟩

end Making

/-- The handle of a sequence that is made under a name. -/
def made (t : DataSettings) (id : Uuid) (length : Nat) : Sequence :=
  ⟨t.key id.text, .ofNat length, t.chunkSize, t.chunkSize_ne_zero⟩

/-- Whether a store has the header and the chunks of a sequence with certain items. -/
structure Holds (b : Backend) (q : Sequence) (items : List Value) : Prop where
  length : q.length.toNat = items.length
  header : b.fetch q.key = .ok (headerJson q.length q.chunkSize).toBytes
  chunk : ∀ i c, (chunksOf q.chunkSize.toNat items)[i]? = some c →
    b.fetch (chunkKey q.key i) = .ok (Value.array c).json.toBytes

theorem Holds.keeps {b b' : Backend} {q : Sequence} {items : List Value} (h : q.Holds b items)
    (keeps : Backend.Keeps q.Owns b b') : q.Holds b' items where
  length := h.length
  header := keeps _ _ (.inl rfl) h.header
  chunk i c hc := by
    have within := (lt_length_chunksOf q.chunkSize_pos).1 (List.getElem?_eq_some_iff.1 hc).1
    rw [← h.length] at within
    exact keeps _ _ (.inr ⟨i, lt_chunkCount.2 within, rfl⟩) (h.chunk i c hc)

section Making

variable {t : DataSettings} {items : List Value} {w w' : Session} {q : Sequence}

theorem elapses_create {K : Key → Prop} {result : Except StoreError Sequence}
    (h : w.run (create t items).run = (result, w')) : w.Elapses K w' := by
  suffices passed : w.Elapses K (w.run (create t items).run).2 by rwa [h] at passed
  refine Session.elapses_bind (.single (.count w _ _)) fun key s hs => ?_
  refine Session.elapses_bind (elapses_writeChunks K s key 0 _) fun _ s' _ => ?_
  exact Session.elapses_bind (.single (.make s' _ _)) fun _ _ _ => .refl

theorem length_made {n : Nat} {id : Uuid} (few : n < UInt64.size) :
    (made t id n).length.toNat = n :=
  UInt64.toNat_ofNat_of_lt few

/-- A sequence that has been made is in the store. -/
theorem holds_of_create (few : items.length < UInt64.size)
    (h : w.run (create t items).run = (.ok q, w')) :
    q = made t (Uuid.fresh w.nextId) items.length ∧ q.Holds w'.backend items := by
  obtain ⟨key, w₀, named, h⟩ := Session.of_run_bind_ok h
  cases named
  obtain ⟨_, w₁, chunks, h⟩ := Session.of_run_bind_ok h
  obtain ⟨_, w₂, header, h⟩ := Session.of_run_bind_ok h
  cases h
  have later := (Session.passes_make (K := fun _ => True) header).keeps
  refine ⟨rfl, length_made few, Session.stored_createImmutable header, fun i c hc => ?_⟩
  have stored := stored_writeChunks chunks i c hc
  rw [Nat.zero_add] at stored
  exact later _ _ trivial stored

/-- A sequence is made where the keys of its header and its chunks are unused. -/
theorem run_create (few : items.length < UInt64.size)
    (unused : ∀ key, (made t (Uuid.fresh w.nextId) items.length).Owns key →
      w.backend.entry key = .ok none) :
    ∃ w', w.run (create t items).run = (.ok (made t (Uuid.fresh w.nextId) items.length), w') := by
  let key := t.key (Uuid.fresh w.nextId).text
  have named : w.run t.freshKey.run = (.ok key, { w with nextId := w.nextId + 1 }) := rfl
  have free : ∀ j < (chunksOf t.chunkSize.toNat items).length,
      w.backend.entry (chunkKey key (0 + j)) = .ok none := fun j hj => by
    refine unused _ (.inr ⟨j, lt_chunkCount.2 ?_, by rw [Nat.zero_add]; rfl⟩)
    rw [length_made few]
    exact (lt_length_chunksOf (made t (Uuid.fresh w.nextId) items.length).chunkSize_pos).1 hj
  obtain ⟨w₁, chunks, others⟩ := run_writeChunks (s := { w with nextId := w.nextId + 1 }) free
  have absent := (others key fun j => (text_chunkKey_ne key j).symm).trans (unused key (.inl rfl))
  obtain ⟨created, -⟩ := Backend.run_act
    (c := .create key (headerJson (.ofNat items.length) t.chunkSize).toBytes) absent
  have header := Session.run_createImmutable_ok created
  rw [create, Session.run_bind_ok named, Session.run_bind_ok chunks, Session.run_bind_ok header]
  exact ⟨_, rfl⟩

end Making

/-! ## Reading it -/

/-- Whether the chunks that are found for a sequence are those of certain items. -/
structure Offers (q : Sequence) (look : Key → Except StoreError Bytes) (items : List Value) :
    Prop where
  length : q.length.toNat = items.length
  found : q.Found Decoder.value look (chunksOf q.chunkSize.toNat items)

section Reading

variable {q : Sequence} {items : List Value} {r : Session}

theorem length_chunksOf (hlength : q.length.toNat = items.length) :
    (chunksOf q.chunkSize.toNat items).length = q.chunkCount :=
  eq_of_forall_lt_iff fun i => by
    rw [lt_length_chunksOf q.chunkSize_pos, lt_chunkCount, hlength]

theorem Holds.offers (holds : q.Holds r.backend items) (coherent : r.Coherent q.Owns)
    (legible : Legible items) : q.Offers r.lookup items := by
  have pos := q.chunkSize_pos
  have count := length_chunksOf holds.length
  refine ⟨holds.length, count, fun i c hc => ?_⟩
  obtain ⟨hi, -⟩ := List.getElem?_eq_some_iff.1 hc
  have found := coherent.lookup_eq (.inr ⟨i, count ▸ hi, rfl⟩) (holds.chunk i c hc)
  have readable : Legible c := fun v hv =>
    legible v (mem_of_mem_chunksOf pos (List.mem_of_getElem? hc) hv)
  rw [Sequence.chunk, found]
  exact congrArg (Except.mapError StoreError.serialization) readable.ofBytes_toBytes

theorem full_chunksOf (hlength : q.length.toNat = items.length) :
    q.Full (chunksOf q.chunkSize.toNat items) := by
  intro i c hc
  obtain ⟨hi, -⟩ := List.getElem?_eq_some_iff.1 hc
  have here := getElem?_chunksOf q.chunkSize_pos ((lt_length_chunksOf q.chunkSize_pos).1 hi)
  obtain rfl := Option.some.inj (hc.symm.trans here)
  rw [List.length_take, List.length_drop, hlength]

namespace Offers

theorem toList (h : q.Offers r.lookup items) :
    r.Reads (q.Fetches (· < q.chunkCount)) (q.toList Decoder.value).run (.ok items) := by
  have read := h.found.toList
  rwa [flatten_chunksOf q.chunkSize_pos] at read

theorem get (h : q.Offers r.lookup items) {index : Nat} {v : Value}
    (hv : items[index]? = some v) :
    r.Reads (q.Fetches (· = index / q.chunkSize.toNat)) (q.get Decoder.value index).run
      (.ok v) := by
  have within := (List.getElem?_eq_some_iff.1 hv).1
  rw [← h.length] at within
  have read := h.found.get within
  rw [h.found.itemAt_of_full (full_chunksOf h.length)
    (by rwa [flatten_chunksOf q.chunkSize_pos])] at read
  exact read

/-- A chunk is read only for an item that is asked for. -/
theorem take (h : q.Offers r.lookup items) (n : Nat) :
    r.Reads (q.Fetches fun i => ∃ index, index < n ∧ index < items.length ∧
      i = index / q.chunkSize.toNat) (q.take Decoder.value n).run (.ok (items.take n)) := by
  have pos := q.chunkSize_pos
  have found : ∀ j c, (chunksOf q.chunkSize.toNat items)[j]? = some c →
      q.chunk Decoder.value r.lookup (0 + j) = .ok c := fun j c hc => by
    rw [Nat.zero_add]
    exact h.found.chunk j c hc
  have read := reads_takeChunks found n
  rw [flatten_chunksOf pos, h.found.count] at read
  refine read.mono fun c hc => hc.mono ?_
  rintro _ ⟨j, hj, rfl, few⟩
  have start := (lt_length_chunksOf pos).1 hj
  rw [flatten_take_chunksOf pos, List.length_take] at few
  refine ⟨j * q.chunkSize.toNat, by omega, start, ?_⟩
  rw [Nat.zero_add, Nat.mul_div_cancel _ pos]

end Offers

theorem reads_find (u : DataSettings) (container : u.container = q.key.container)
    (header : r.lookup q.key = .ok (headerJson q.length q.chunkSize).toBytes) :
    r.Reads (· = .get q.key) (find u q.key.name).run (.ok q) := by
  have key : u.key q.key.name = q.key := by simp [DataSettings.key, container]
  have read := r.reads_readImmutable q.key
  rw [header] at read
  unfold find
  rw [key]
  refine read.andThen_ok fun r' _ => ?_
  have hrun := run_header q.key (headerJson q.length q.chunkSize).toBytes
  rw [ofHeader_toBytes] at hrun
  exact cast (congrArg (fun p => r'.Reads _ p (.ok q)) hrun.symm) (Session.reads_done _)

end Reading

/-- A sequence of any items is made where its keys are unused, whatever the size of the chunks.
Everybody who comes by after that reads its items, each at its place, and nothing beyond them; finds
it by its name; and reads no chunk but those of the items that are asked for. -/
theorem create_holds_items {t : DataSettings} {items : List Value} {w : Session}
    (legible : Legible items) (few : items.length < UInt64.size)
    (unused : ∀ key, (made t (Uuid.fresh w.nextId) items.length).Owns key →
      w.backend.entry key = .ok none) :
    ∃ q w', w.run (create t items).run = (.ok q, w') ∧ w.Elapses q.Owns w' ∧
      q.length.toNat = items.length ∧ q.chunkCount = items.length ⌈/⌉ t.chunkSize.toNat ∧
      ∀ r : Session, r.Follows q.Owns w'.backend →
        (r.run (q.toList Decoder.value).run).1 = .ok items ∧
        (∀ i v, items[i]? = some v → (r.run (q.get Decoder.value i).run).1 = .ok v) ∧
        (∀ i, items.length ≤ i → (r.run (q.get Decoder.value i).run).1 =
          .error (.notFound (q.key.text ++ "[" ++ toString i ++ "]"))) ∧
        (∀ u : DataSettings, u.container = t.container →
          (r.run (find u q.key.name).run).1 = .ok q) ∧
        ∀ n, (r.run (q.take Decoder.value n).run).1 = .ok (items.take n) ∧
          ∀ c ∈ r.commands (q.take Decoder.value n).run, ∃ i, i < n ∧ i < items.length ∧
            c = .get (chunkKey q.key (i / t.chunkSize.toNat)) := by
  obtain ⟨w', created⟩ := run_create few unused
  obtain ⟨-, holds⟩ := holds_of_create few created
  refine ⟨_, w', created, elapses_create created, holds.length, ?_, fun r follows => ?_⟩
  · rw [chunkCount, length_made few, Nat.ceilDiv_eq_add_pred_div]
    rfl
  have stored := holds.keeps follows.keeps
  have offers := stored.offers follows.coherent legible
  refine ⟨offers.toList.result, fun i v hv => (offers.get hv).result, fun i past => ?_,
    fun u container => ?_, fun n => ⟨(offers.take n).result, fun c hc => ?_⟩⟩
  · rw [← stored.length] at past
    exact (reads_get_past (P := fun _ => True) past).result
  · exact (reads_find u container (follows.coherent.lookup_eq (.inl rfl) stored.header)).result
  · obtain ⟨_, ⟨i, hi, within, rfl⟩, rfl⟩ := (offers.take n).asks c hc
    exact ⟨i, hi, within, rfl⟩

/-- Three items in two chunks, read by the session that has made the sequence. -/
theorem create_holds_items_three : ∃ (items : List Value) (w w' : Session) (q : Sequence),
    Legible items ∧ items.length = 3 ∧
      w.run (create (.ofParts "stratus" 2 100) items).run = (.ok q, w') ∧ q.chunkCount = 2 ∧
      (w'.run (q.toList Decoder.value).run).1 = .ok items ∧
      (w'.run (q.get Decoder.value 1).run).1 = .ok (.array [.null]) := by
  let items : List Value := [.null, .array [.null], .null]
  let w : Session := ⟨.memory .empty, .empty, 0, 0⟩
  have legible : Legible items := by
    intro v hv
    obtain rfl | rfl | rfl : v = .null ∨ v = .array [.null] ∨ v = .null := by
      simpa [items] using hv
    · exact ⟨by decide, trivial⟩
    · exact ⟨by decide, trivial, trivial⟩
    · exact ⟨by decide, trivial⟩
  obtain ⟨q, w', created, passed, -, count, reads⟩ :=
    create_holds_items (t := .ofParts "stratus" 2 100) (w := w) legible (by decide) fun _ _ => rfl
  obtain ⟨all, single, -⟩ := reads w' ⟨w, w', rfl, passed, rfl, .refl⟩
  have two : q.chunkCount = 2 := by
    rw [count, Nat.ceilDiv_eq_add_pred_div]
    decide
  exact ⟨items, w, w', q, legible, rfl, created, two, all, single 1 _ rfl⟩

end Sequence

end WorkflowEngine
