import Mathlib
import WorkflowEngine.Proofs.Lookups
/-!
What the operations on sequences read. All of them look up chunks; one reads single items and checks
that they are there, another one joins whatever the chunks hold. They agree exactly if the chunks
have the sizes that the handle says.
-/
set_option autoImplicit false

namespace WorkflowEngine

/-! ## Lists in chunks -/

section Chunks

variable {α : Type} {n : Nat}

theorem chunksOf_of_ne_nil (pos : 0 < n) {xs : List α} (h : xs ≠ []) :
    chunksOf n xs = xs.take n :: chunksOf n (xs.drop n) := by
  obtain ⟨m, rfl⟩ : ∃ m, n = m + 1 := ⟨n - 1, by omega⟩
  cases xs with
  | nil => exact absurd rfl h
  | cons a rest => rw [chunksOf]; simp

/-- A property of a list follows from that of what is left without a chunk. -/
theorem chunks_induction {P : List α → Prop} (pos : 0 < n) (nil : P [])
    (step : ∀ xs, xs ≠ [] → P (xs.drop n) → P xs) (xs : List α) : P xs := by
  induction hk : xs.length using Nat.strong_induction_on generalizing xs with
  | _ k ih =>
    by_cases hxs : xs = []
    · exact hxs ▸ nil
    · have hlength := List.length_pos_iff.2 hxs
      exact step xs hxs (ih (xs.drop n).length (by rw [List.length_drop]; omega) _ rfl)

theorem flatten_chunksOf (pos : 0 < n) (xs : List α) : (chunksOf n xs).flatten = xs := by
  induction xs using chunks_induction pos with
  | nil => simp [chunksOf]
  | step xs h ih => rw [chunksOf_of_ne_nil pos h, List.flatten_cons, ih, List.take_append_drop]

theorem getElem?_chunksOf (pos : 0 < n) {xs : List α} {i : Nat} (h : i * n < xs.length) :
    (chunksOf n xs)[i]? = some ((xs.drop (i * n)).take n) := by
  induction xs using chunks_induction pos generalizing i with
  | nil => simp at h
  | step xs hxs ih =>
    rw [chunksOf_of_ne_nil pos hxs]
    cases i with
    | zero => simp
    | succ i =>
      rw [Nat.succ_mul] at h ⊢
      rw [List.getElem?_cons_succ, ih (by rw [List.length_drop]; omega), List.drop_drop,
        Nat.add_comm n]

theorem lt_length_chunksOf (pos : 0 < n) {xs : List α} {i : Nat} :
    i < (chunksOf n xs).length ↔ i * n < xs.length := by
  induction xs using chunks_induction pos generalizing i with
  | nil => simp [chunksOf]
  | step xs hxs ih =>
    have hlength := List.length_pos_iff.2 hxs
    rw [chunksOf_of_ne_nil pos hxs, List.length_cons]
    cases i with
    | zero => simp [hlength]
    | succ i =>
      rw [Nat.succ_lt_succ_iff, ih, List.length_drop, Nat.succ_mul]
      omega

theorem flatten_take_chunksOf (pos : 0 < n) (xs : List α) (i : Nat) :
    ((chunksOf n xs).take i).flatten = xs.take (i * n) := by
  induction xs using chunks_induction pos generalizing i with
  | nil => simp [chunksOf]
  | step xs hxs ih =>
    rw [chunksOf_of_ne_nil pos hxs]
    cases i with
    | zero => simp
    | succ i =>
      rw [List.take_succ_cons, List.flatten_cons, ih, Nat.succ_mul, Nat.add_comm, List.take_add]

theorem mem_of_mem_chunksOf (pos : 0 < n) {xs c : List α} {a : α} (hc : c ∈ chunksOf n xs)
    (ha : a ∈ c) : a ∈ xs := by
  rw [← flatten_chunksOf pos xs]
  exact List.mem_flatten_of_mem hc ha

variable {length : Nat} {chunks : List (List α)}

theorem count_tail {c : List α} (count : ∀ i, i < (c :: chunks).length ↔ i * n < length) (i : Nat) :
    i < chunks.length ↔ i * n < length - n := by
  have := count (i + 1)
  rw [List.length_cons, Nat.succ_mul] at this
  omega

/-- Chunks that have as many items as they should are those of the list that they make up. -/
theorem eq_chunksOf (pos : 0 < n) (count : ∀ i, i < chunks.length ↔ i * n < length)
    (full : ∀ i c, chunks[i]? = some c → c.length = min n (length - i * n)) :
    chunks = chunksOf n chunks.flatten ∧ chunks.flatten.length = length := by
  induction chunks generalizing length with
  | nil =>
    have := (count 0).not
    simp at this
    simp [chunksOf, this]
  | cons c rest ih =>
    have first : c.length = min n length := by simpa using full 0 c rfl
    have some' : 0 < length := by simpa using (count 0).1 (Nat.succ_pos _)
    obtain ⟨hrest, hlength⟩ := ih (count_tail count)
      (fun i d hd => by
        have := full (i + 1) d hd
        rw [Nat.succ_mul] at this
        omega)
    have ne : (c :: rest).flatten ≠ [] := by
      intro h
      have hc : c = [] := (List.append_eq_nil_iff.1 h).1
      rw [hc, List.length_nil] at first
      omega
    refine ⟨?_, by rw [List.flatten_cons, List.length_append, first, hlength]; omega⟩
    rw [chunksOf_of_ne_nil pos ne, List.flatten_cons]
    by_cases hn : n ≤ length
    · have hc : c.length = n := by omega
      rw [List.take_left' hc, List.drop_left' hc, ← hrest]
    · have hnil : rest.flatten = [] := List.eq_nil_of_length_eq_zero (by omega)
      rw [hnil, List.append_nil, List.take_of_length_le (by omega),
        List.drop_eq_nil_of_le (by omega), ← hnil, ← hrest]

/-- Chunks of which none has too few items make up a list that is long enough, and is not too long
only if none of them has too many. -/
theorem length_flatten_of_le (count : ∀ i, i < chunks.length ↔ i * n < length)
    (enough : ∀ i c, chunks[i]? = some c → min n (length - i * n) ≤ c.length) :
    length ≤ chunks.flatten.length ∧ (chunks.flatten.length = length →
      ∀ i c, chunks[i]? = some c → c.length = min n (length - i * n)) := by
  induction chunks generalizing length with
  | nil =>
    have := (count 0).not
    simp at this
    simp [this]
  | cons c rest ih =>
    have first : min n length ≤ c.length := by simpa using enough 0 c rfl
    obtain ⟨hle, heq⟩ := ih (count_tail count)
      (fun i d hd => by
        have := enough (i + 1) d hd
        rw [Nat.succ_mul] at this
        omega)
    rw [List.flatten_cons, List.length_append]
    refine ⟨by omega, fun hlength i d hd => ?_⟩
    cases i with
    | zero =>
      cases hd
      simp
      omega
    | succ i =>
      have := heq (by omega) i d hd
      rw [Nat.succ_mul]
      omega

end Chunks

theorem mapM_eq_ok {ε α β : Type} {f : α → Except ε β} {xs : List α} {ys : List β} :
    xs.mapM f = .ok ys ↔ List.Forall₂ (fun x y => f x = .ok y) xs ys := by
  induction xs generalizing ys with
  | nil => simp [pure, Except.pure, eq_comm]
  | cons x rest ih =>
    rw [List.mapM_cons]
    cases hx : f x with
    | error e => simp [bind, Except.bind, List.forall₂_cons_left_iff, hx]
    | ok y =>
      cases hrest : rest.mapM f with
      | error e =>
        simp [bind, Except.bind, List.forall₂_cons_left_iff, hx, ← ih, hrest]
      | ok zs =>
        simp [bind, Except.bind, pure, Except.pure, List.forall₂_cons_left_iff, hx, ← ih, hrest,
          eq_comm]

theorem mapM_range'_eq_ok {ε β : Type} {f : Nat → Except ε β} {count : Nat} {ys : List β} :
    (List.range' 0 count).mapM f = .ok ys ↔
      ys.length = count ∧ ∀ i y, ys[i]? = some y → f i = .ok y := by
  rw [mapM_eq_ok, List.forall₂_iff_get]
  constructor
  · rintro ⟨hlength, h⟩
    refine ⟨by simpa using hlength.symm, fun i y hy => ?_⟩
    obtain ⟨hi, rfl⟩ := List.getElem?_eq_some_iff.1 hy
    simpa using h i (hlength ▸ hi) hi
  · rintro ⟨hlength, h⟩
    exact ⟨by simp [hlength], fun i _ hi => by simpa using h i _ (List.getElem?_eq_getElem hi)⟩

namespace Sequence

variable {element : Decoder Value} {q : Sequence} {s : Session}
  {look : Key → Except StoreError Bytes}

theorem chunkSize_pos (q : Sequence) : 0 < q.chunkSize.toNat := by
  have := q.chunkSize_ne_zero
  rw [ne_eq, ← UInt64.toNat_inj] at this
  simp at this
  omega

theorem lt_chunkCount {i : Nat} : i < q.chunkCount ↔ i * q.chunkSize.toNat < q.length.toNat := by
  have pos := q.chunkSize_pos
  rw [chunkCount, ← Nat.succ_le_iff, Nat.le_div_iff_mul_le pos, Nat.succ_mul]
  omega

/-- The items of a chunk, as they are found. -/
def chunk (element : Decoder Value) (q : Sequence) (look : Key → Except StoreError Bytes)
    (i : Nat) : Except StoreError (List Value) :=
  look (chunkKey q.key i) >>= fun data => (element.list.ofBytes data).mapError .serialization

/-- The item at a place of a chunk, which has to be there. -/
def itemOf (q : Sequence) (i : Nat) : Option Value → Except StoreError Value
  | some v => .ok v
  | none => .error (.backend ("chunk " ++ toString i ++ " of " ++ q.key.text ++
      " is shorter than expected"))

/-- The request for a chunk. -/
def Fetches (q : Sequence) (P : Nat → Prop) (c : StoreCommand) : Prop :=
  ∃ i, P i ∧ c = .get (chunkKey q.key i)

theorem Fetches.mono {P Q : Nat → Prop} {c : StoreCommand} (h : q.Fetches P c)
    (le : ∀ {i}, P i → Q i) : q.Fetches Q c :=
  h.imp fun _ => And.imp_left le

theorem reads_readChunk (i : Nat) :
    s.Reads (q.Fetches (· = i)) (readChunk element q i).run (q.chunk element s.lookup i) :=
  Session.Reads.andThen
    ((s.reads_readImmutable _).mono fun _ hc => ⟨i, rfl, hc⟩)
    fun data _ _ _ => Session.reads_decode _ data

theorem reads_get_past {P : StoreCommand → Prop} {index : Nat} (past : q.length.toNat ≤ index) :
    s.Reads P (get element q index).run
      (.error (.notFound (q.key.text ++ "[" ++ toString index ++ "]"))) := by
  unfold get
  rw [if_pos past]
  exact Session.reads_throw _

theorem reads_get {index : Nat} (within : index < q.length.toNat) :
    s.Reads (q.Fetches (· = index / q.chunkSize.toNat)) (get element q index).run
      (q.chunk element s.lookup (index / q.chunkSize.toNat) >>= fun items =>
        q.itemOf (index / q.chunkSize.toNat) items[index % q.chunkSize.toNat]?) := by
  unfold get
  rw [if_neg (by omega)]
  refine (reads_readChunk _).andThen fun items _ s' _ => ?_
  cases hitem : items[index % q.chunkSize.toNat]? with
  | some v => exact Session.reads_pure v
  | none => exact Session.reads_throw _

theorem reads_readChunks (i count : Nat) :
    s.Reads (q.Fetches fun j => i ≤ j ∧ j < i + count) (readChunks element q i count).run
      (((List.range' i count).mapM (q.chunk element s.lookup)).map List.flatten) := by
  induction count generalizing i s with
  | zero => exact Session.reads_pure []
  | succ count ih =>
    have result : ((List.range' i (count + 1)).mapM (q.chunk element s.lookup)).map List.flatten =
        (q.chunk element s.lookup i >>= fun items =>
          ((List.range' (i + 1) count).mapM (q.chunk element s.lookup)).map List.flatten >>=
            fun later => .ok (items ++ later)) := by
      rw [List.range'_succ, List.mapM_cons]
      cases q.chunk element s.lookup i with
      | error e => rfl
      | ok items => cases (List.range' (i + 1) count).mapM (q.chunk element s.lookup) <;> rfl
    rw [result, readChunks]
    refine ((reads_readChunk i).mono fun c hc => hc.mono (by omega)).andThen
      fun items _ s' alike => ?_
    rw [← alike.lookup]
    exact ((ih (i + 1)).mono fun c hc => hc.mono (by omega)).andThen
      fun later _ s'' _ => Session.reads_pure _

theorem reads_toList : s.Reads (q.Fetches (· < q.chunkCount)) (q.toList element).run
    (((List.range' 0 q.chunkCount).mapM (q.chunk element s.lookup)).map List.flatten) :=
  (reads_readChunks 0 q.chunkCount).mono fun _ hc => hc.mono (by omega)

/-- Whether a chunk has to be read for the first `n` items of the chunks from the one at `i` on. -/
def Wanted (chunks : List (List Value)) (i n k : Nat) : Prop :=
  ∃ j < chunks.length, k = i + j ∧ (chunks.take j).flatten.length < n

theorem wanted_first {items : List Value} {rest : List (List Value)} {i n : Nat} :
    Wanted (items :: rest) i (n + 1) i :=
  ⟨0, by simp, by simp, by simp⟩

theorem Wanted.cons {items : List Value} {rest : List (List Value)} {i n k : Nat}
    (h : Wanted rest (i + 1) (n - items.length) k) : Wanted (items :: rest) i n k := by
  obtain ⟨j, hj, rfl, few⟩ := h
  refine ⟨j + 1, by simpa using hj, by omega, ?_⟩
  rw [List.take_succ_cons, List.flatten_cons, List.length_append]
  omega

/-- A chunk is asked for only if those before it have too few items. -/
theorem reads_takeChunks {chunks : List (List Value)} {i : Nat}
    (found : ∀ j items, chunks[j]? = some items → q.chunk element s.lookup (i + j) = .ok items)
    (n : Nat) :
    s.Reads (q.Fetches (Wanted chunks i n)) (takeChunks element q i chunks.length n).run
      (.ok (chunks.flatten.take n)) := by
  induction chunks generalizing i s n with
  | nil =>
    rw [List.length_nil, takeChunks, List.flatten_nil, List.take_nil]
    exact Session.reads_pure []
  | cons items rest ih =>
    cases n with
    | zero => exact Session.reads_pure []
    | succ n =>
      have first : s.Reads _ (readChunk element q i).run _ := reads_readChunk i
      rw [show q.chunk element s.lookup i = .ok items from found 0 items rfl] at first
      rw [List.length_cons, takeChunks, List.flatten_cons]
      refine (first.mono fun c hc => hc.mono fun hk => hk ▸ wanted_first).andThen_ok
        fun s' alike => ?_
      by_cases last : n + 1 ≤ items.length
      · rw [if_pos last, List.take_append_of_le_length last]
        exact Session.reads_pure _
      · rw [if_neg last, List.take_append, List.take_of_length_le (by omega)]
        have later := ih (i := i + 1) (s := s') (fun j d hd => by
          rw [alike.lookup, Nat.add_assoc, Nat.add_comm 1]
          exact found (j + 1) d hd) (n + 1 - items.length)
        exact (later.mono fun c hc => hc.mono Wanted.cons).andThen_ok
          fun s'' _ => Session.reads_pure _

/-- The chunks of a sequence as they are found, whatever their sizes are. -/
structure Found (element : Decoder Value) (q : Sequence) (look : Key → Except StoreError Bytes)
    (chunks : List (List Value)) : Prop where
  count : chunks.length = q.chunkCount
  chunk : ∀ i items, chunks[i]? = some items → q.chunk element look i = .ok items

/-- Whether all chunks but the last one are full, and the last one has the remaining items. -/
def Full (q : Sequence) (chunks : List (List Value)) : Prop :=
  ∀ i items, chunks[i]? = some items →
    items.length = min q.chunkSize.toNat (q.length.toNat - i * q.chunkSize.toNat)

/-- The item at an index by the sizes that the handle says. -/
def itemAt (q : Sequence) (chunks : List (List Value)) (index : Nat) : Except StoreError Value :=
  q.itemOf (index / q.chunkSize.toNat)
    (chunks[index / q.chunkSize.toNat]?.bind fun items => items[index % q.chunkSize.toNat]?)

variable {chunks : List (List Value)}

theorem itemOf_eq_ok {i : Nat} {item : Option Value} {v : Value} :
    q.itemOf i item = .ok v ↔ item = some v := by
  cases item <;> simp [itemOf]

theorem itemAt_eq_ok {index : Nat} {v : Value} :
    q.itemAt chunks index = .ok v ↔ ∃ items, chunks[index / q.chunkSize.toNat]? = some items ∧
      items[index % q.chunkSize.toNat]? = some v :=
  itemOf_eq_ok.trans Option.bind_eq_some_iff

namespace Found

theorem lt_length (found : q.Found element look chunks) (i : Nat) :
    i < chunks.length ↔ i * q.chunkSize.toNat < q.length.toNat := by
  rw [found.count, lt_chunkCount]

theorem toList (found : q.Found element s.lookup chunks) :
    s.Reads (q.Fetches (· < q.chunkCount)) (q.toList element).run (.ok chunks.flatten) := by
  have read : s.Reads _ (q.toList element).run _ := reads_toList
  rw [mapM_range'_eq_ok.2 ⟨found.count, found.chunk⟩] at read
  exact read

theorem get (found : q.Found element s.lookup chunks) {index : Nat}
    (within : index < q.length.toNat) :
    s.Reads (q.Fetches (· = index / q.chunkSize.toNat)) (q.get element index).run
      (q.itemAt chunks index) := by
  have at_chunk : index / q.chunkSize.toNat < chunks.length :=
    (found.lt_length _).2 ((Nat.div_mul_le_self _ _).trans_lt within)
  have read : s.Reads _ (q.get element index).run _ := reads_get within
  have hitems := List.getElem?_eq_getElem at_chunk
  rw [found.chunk _ _ hitems] at read
  rw [itemAt, hitems]
  exact read

end Found

/-- What is read as a whole is what the chunks hold. -/
theorem exists_found {xs : List Value} (h : (s.run (q.toList element).run).1 = .ok xs) :
    ∃ chunks, q.Found element s.lookup chunks ∧ xs = chunks.flatten := by
  have read : (s.run (q.toList element).run).1 = _ := (reads_toList).result
  rw [h] at read
  cases hchunks : (List.range' 0 q.chunkCount).mapM (q.chunk element s.lookup) with
  | error e =>
    rw [hchunks] at read
    cases read
  | ok chunks =>
    rw [hchunks] at read
    obtain ⟨count, chunk⟩ := mapM_range'_eq_ok.1 hchunks
    exact ⟨chunks, ⟨count, chunk⟩, Except.ok.inj read⟩

/-- Full chunks have the items of the list that they make up at their places. -/
theorem Found.itemAt_of_full (found : q.Found element look chunks) (full : q.Full chunks)
    {index : Nat} {v : Value} (h : chunks.flatten[index]? = some v) :
    q.itemAt chunks index = .ok v := by
  obtain ⟨heq, hlength⟩ := eq_chunksOf q.chunkSize_pos found.lt_length full
  obtain ⟨within, -⟩ := List.getElem?_eq_some_iff.1 h
  have at_chunk := (Nat.div_mul_le_self index q.chunkSize.toNat).trans_lt within
  have place := Nat.div_add_mod' index q.chunkSize.toNat
  have hitems := getElem?_chunksOf q.chunkSize_pos at_chunk
  rw [← heq] at hitems
  refine itemAt_eq_ok.2 ⟨_, hitems, ?_⟩
  rw [List.getElem?_take_of_lt (Nat.mod_lt _ q.chunkSize_pos), List.getElem?_drop, place, h]

/-- An item for each index says that no chunk has too few items. -/
theorem Found.full_of_itemAt (found : q.Found element look chunks)
    (hlength : chunks.flatten.length = q.length.toNat)
    (h : ∀ index < q.length.toNat, ∃ v, q.itemAt chunks index = .ok v) : q.Full chunks := by
  have pos := q.chunkSize_pos
  refine (length_flatten_of_le found.lt_length fun i items hitems => ?_).2 hlength
  have some' := (found.lt_length i).1 (List.getElem?_eq_some_iff.1 hitems).1
  -- The last item that the chunk should have.
  obtain ⟨last, hlast⟩ : ∃ last, last + 1 =
      min q.chunkSize.toNat (q.length.toNat - i * q.chunkSize.toNat) :=
    ⟨_, Nat.sub_add_cancel (by omega)⟩
  obtain ⟨v, hv⟩ := h (i * q.chunkSize.toNat + last) (by omega)
  obtain ⟨items', hitems', hv⟩ := itemAt_eq_ok.1 hv
  rw [Nat.mul_comm i, Nat.mul_add_div pos, Nat.div_eq_of_lt (by omega), Nat.add_zero,
    hitems] at hitems'
  cases hitems'
  rw [Nat.mul_comm i, Nat.mul_add_mod, Nat.mod_eq_of_lt (by omega)] at hv
  have := (List.getElem?_eq_some_iff.1 hv).1
  omega

/-- What is read as a whole is what the chunks hold, and single items are looked for where the
handle says. Both agree exactly if the chunks have the sizes that the handle says; only the reading
of single items notices that a chunk is too short. -/
theorem toList_agrees {xs : List Value} (h : (s.run (q.toList element).run).1 = .ok xs) :
    s.Alike (s.run (q.toList element).run).2 ∧
      ∃ chunks, q.Found element s.lookup chunks ∧ xs = chunks.flatten ∧
        (∀ r index, s.Alike r → index < q.length.toNat →
          (r.run (q.get element index).run).1 = q.itemAt chunks index) ∧
        ((xs.length = q.length.toNat ∧
          ∀ index v, xs[index]? = some v → (s.run (q.get element index).run).1 = .ok v) ↔
            q.Full chunks) := by
  obtain ⟨chunks, found, rfl⟩ := exists_found h
  have get : ∀ r index, s.Alike r → index < q.length.toNat →
      (r.run (q.get element index).run).1 = q.itemAt chunks index :=
    fun r index alike within => (Found.get (alike.lookup.symm ▸ found) within).result
  refine ⟨found.toList.alike, chunks, found, rfl, get, ?_, fun full => ?_⟩
  · rintro ⟨hlength, items⟩
    refine found.full_of_itemAt hlength fun index within => ?_
    have hitem := List.getElem?_eq_getElem (hlength.symm ▸ within)
    exact ⟨_, (get s index (.refl s) within).symm.trans (items index _ hitem)⟩
  · have hlength := (eq_chunksOf q.chunkSize_pos found.lt_length full).2
    refine ⟨hlength, fun index v hv => ?_⟩
    have within := hlength ▸ (List.getElem?_eq_some_iff.1 hv).1
    exact (get s index (.refl s) within).trans (found.itemAt_of_full full hv)

/-- Three items are stored in a chunk for four, and the handle says that there are four. -/
theorem exists_short_chunk : ∃ (s : Session) (q : Sequence), q.length.toNat = 4 ∧
    (s.run (q.toList Decoder.value).run).1 = .ok [.null, .null, .null] ∧
    (s.run (q.get Decoder.value 3).run).1 =
      .error (.backend ("chunk 0 of " ++ q.key.text ++ " is shorter than expected")) := by
  refine ⟨((⟨.memory .empty, .empty, 0, 0⟩ : Session).run
    (create (.ofParts "stratus" 4 100) [.null, .null, .null]).run).2,
    ⟨⟨"stratus", (Uuid.fresh 0).text⟩, 4, 4, by decide⟩, rfl, ?_, ?_⟩
  · cbv
  · cbv

theorem toList_agrees_short : ∃ (s : Session) (q : Sequence) (chunks : List (List Value)),
    (s.run (q.toList Decoder.value).run).1 = .ok [.null, .null, .null] ∧
      q.Found Decoder.value s.lookup chunks ∧ ¬ q.Full chunks := by
  obtain ⟨s, q, hlength, read, -⟩ := exists_short_chunk
  obtain ⟨-, chunks, found, -, -, agree⟩ := toList_agrees read
  refine ⟨s, q, chunks, read, found, fun full => ?_⟩
  have short := (agree.2 full).1
  rw [hlength] at short
  cases short

/-- A handle may say more items than are read without an error. -/
theorem toList_short : ∃ (s : Session) (q : Sequence) (xs : List Value),
    (s.run (q.toList Decoder.value).run).1 = .ok xs ∧ xs.length ≠ q.length.toNat ∧
      ∀ v, (s.run (q.get Decoder.value xs.length).run).1 ≠ .ok v := by
  obtain ⟨s, q, hlength, read, missed⟩ := exists_short_chunk
  refine ⟨s, q, _, read, by rw [hlength]; decide, fun v => ?_⟩
  rw [show [Value.null, .null, .null].length = 3 from rfl, missed]
  nofun

end Sequence

end WorkflowEngine
