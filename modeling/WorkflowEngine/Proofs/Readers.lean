import Mathlib
import WorkflowEngine.Proofs.Publication
/-!
What is seen of a sequence by those who look for it while its entries are written. The header is the
last of them, and each entry stays as it was written, so that whoever has seen the header sees all
that comes before it.
-/
set_option autoImplicit false

namespace WorkflowEngine

namespace Writes

variable {plan written written' written'' later : Writes} {key : Key} {data : Bytes}

/-- What is written has become more, as far as it was to be written. -/
structure Grows (plan written written' : Writes) : Prop where
  more : written <+: written'
  within : written' <+: plan

theorem Grows.trans (h : Grows plan written written') (h' : Grows plan written' written'') :
    Grows plan written written'' :=
  ⟨h.more.trans h'.more, h'.within⟩

theorem Grows.eq_of_all (h : Grows plan plan written) : written = plan :=
  h.within.eq_of_length_le h.more.length_le

theorem grows_concat (h : plan = written ++ (key, data) :: later) :
    Grows plan written (written ++ [(key, data)]) where
  more := List.prefix_append written [(key, data)]
  within := ⟨later, by simp [h]⟩

theorem lookup_of_more (more : written <+: written') (found : written.lookup key = some data) :
    written'.lookup key = some data := by
  obtain ⟨later, rfl⟩ := more
  simp [List.lookup_append, found]

theorem lookup_eq_none (h : key ∉ written.map Prod.fst) : written.lookup key = none := by
  rw [List.lookup_eq_none_iff]
  intro entry mem
  simp only [bne_iff_ne, ne_eq]
  rintro rfl
  exact h (List.mem_map_of_mem mem)

theorem lookup_of_mem (distinct : (plan.map Prod.fst).Nodup) (mem : (key, data) ∈ plan) :
    plan.lookup key = some data := by
  obtain ⟨first, later, rfl⟩ := List.append_of_mem mem
  have new : first.lookup key = none := lookup_eq_none fun h => by
    simp only [List.map_append, List.map_cons, List.nodup_append] at distinct
    exact distinct.2.2 key h key List.mem_cons_self rfl
  simp [List.lookup_append, new]

end Writes

/-! ## What programs see of what is written -/

namespace Request

/-- Requests that change none of certain entries, and keep what is written there. -/
def Harmless (K : Key → Prop) (written : Writes) : Request → Prop
  | .store c => ∀ key, K key → c.key.text = key.text → c.isRead = true
  | .remember key data => K key → written.lookup key = some data
  | _ => True

/-- Answers that fit what is written. -/
def Finds (K : Key → Prop) (written : Writes) : (r : Request) → r.Answer → Prop
  | .store c, answer => K c.key → answer = (c.act ((written.lookup c.key).map (Entry.mk 0))).1
  | .cached key, answer => K key → ∀ data, answer = some data → written.lookup key = some data
  | _, _ => True

theorem harmless_of_foreign {K : Key → Prop} {written : Writes} {r : Request}
    (h : ∀ key, K key → r.Foreign key) : r.Harmless K written := by
  cases r with
  | store c => exact h
  | remember key data => exact fun hkey => absurd rfl (h key hkey)
  | cached | freshId | now | pause | append => trivial

end Request

namespace Program

variable {α β : Type} {K : Key → Prop} {plan written written' : Writes}

/-- Whether a program changes nothing, and ends with a result that fits what is written then, while
more and more is written. -/
def Sees (K : Key → Prop) (plan : Writes) (post : Writes → α → Prop) : Program α → Writes → Prop
  | .done a, written => ∀ written', Writes.Grows plan written written' → post written' a
  | .ask r next, written => ∀ written', Writes.Grows plan written written' →
    r.Harmless K written' ∧
      ∀ answer, r.Finds K written' answer → (next answer).Sees K plan post written'

theorem Sees.mono {post : Writes → α → Prop} {p : Program α} (h : p.Sees K plan post written)
    (grows : Writes.Grows plan written written') : p.Sees K plan post written' := by
  cases p with
  | done a => exact fun written'' grows' => h written'' (grows.trans grows')
  | ask r next => exact fun written'' grows' => h written'' (grows.trans grows')

theorem Sees.weaken {post post' : Writes → α → Prop} {p : Program α}
    (h : p.Sees K plan post written)
    (weaker : ∀ written' a, Writes.Grows plan written written' → post written' a →
      post' written' a) : p.Sees K plan post' written := by
  induction p generalizing written with
  | done a => exact fun written' grows => weaker written' a grows (h written' grows)
  | ask r next ih =>
    intro written' grows
    obtain ⟨harmless, later⟩ := h written' grows
    refine ⟨harmless, fun answer finds => ?_⟩
    exact ih answer (later answer finds) fun written'' a grows' =>
      weaker written'' a (grows.trans grows')

theorem Sees.bind {post : Writes → β → Prop} {mid : Writes → α → Prop} {p : Program α}
    {f : α → Program β} (within : written <+: plan) (hp : p.Sees K plan mid written)
    (hf : ∀ written' a, Writes.Grows plan written written' → mid written' a →
      (f a).Sees K plan post written') : (p >>= f).Sees K plan post written := by
  induction p generalizing written with
  | done a =>
    have now : Writes.Grows plan written written := ⟨List.prefix_rfl, within⟩
    exact hf written a now (hp written now)
  | ask r next ih =>
    intro written' grows
    obtain ⟨harmless, later⟩ := hp written' grows
    refine ⟨harmless, fun answer finds => ?_⟩
    exact ih answer grows.within (later answer finds) fun written'' a grows' =>
      hf written'' a (grows.trans grows')

/-- When all is written, one program after another sees the same. -/
theorem Sees.andThen {p : StoreProgram α} {f : α → StoreProgram β} {result : Except StoreError α}
    {next : α → Except StoreError β} (hp : p.run.Sees K plan (fun _ r => r = result) plan)
    (hf : ∀ a, (f a).run.Sees K plan (fun _ r => r = next a) plan) :
    (p >>= f).run.Sees K plan (fun _ r => r = result >>= next) plan := by
  rw [ExceptT.run_bind]
  refine hp.bind List.prefix_rfl fun written r grows h => ?_
  obtain rfl := grows.eq_of_all
  subst h
  cases r with
  | ok a => exact hf a
  | error e => exact fun _ _ => rfl

end Program

open StoreProgram in
/-- Looking for an entry gives what is written, or nothing if it was not there at first. -/
theorem sees_readImmutable {K : Key → Prop} {plan written : Writes} {key : Key} (hkey : K key) :
    (readImmutable key).run.Sees K plan (fun written' r =>
      (∃ data, r = .ok data ∧ written'.lookup key = some data) ∨
        (r = .error (.notFound key.text) ∧ written.lookup key = none)) written := by
  rw [run_readImmutable]
  intro written₁ grows₁
  refine ⟨trivial, fun answer cached => ?_⟩
  cases answer with
  | some data =>
    intro written₂ grows₂
    have found : written₁.lookup key = some data := cached hkey data rfl
    exact .inl ⟨data, rfl, Writes.lookup_of_more grows₂.more found⟩
  | none =>
    intro written₂ grows₂
    refine ⟨fun _ _ _ => rfl, fun answer stored => ?_⟩
    obtain rfl := stored hkey
    show Program.Sees K plan _ (fetched key (.ok (((written₂.lookup key).map _).map _))) written₂
    cases found : written₂.lookup key with
    | none =>
      intro written₃ grows₃
      refine .inr ⟨rfl, ?_⟩
      by_contra present
      obtain ⟨data, before⟩ := Option.ne_none_iff_exists'.1 present
      have after := Writes.lookup_of_more (grows₁.trans grows₂).more before
      rw [found] at after
      cases after
    | some data =>
      intro written₃ grows₃
      have still := Writes.lookup_of_more grows₃.more found
      refine ⟨fun _ => still, fun _ _ written₄ grows₄ => ?_⟩
      exact .inl ⟨data, rfl, Writes.lookup_of_more grows₄.more still⟩

/-- What is written is found when nothing more is to be written. -/
theorem sees_written {K : Key → Prop} {plan : Writes} {key : Key} {data : Bytes} (hkey : K key)
    (here : plan.lookup key = some data) :
    (StoreProgram.readImmutable key).run.Sees K plan (fun _ r => r = .ok data) plan := by
  refine (sees_readImmutable hkey).weaken fun written r grows seen => ?_
  obtain rfl := grows.eq_of_all
  rcases seen with ⟨found, rfl, there⟩ | ⟨-, absent⟩
  · rw [here] at there
    rw [Option.some.inj there]
  · rw [here] at absent
    cases absent

/-! ## Entries of a sequence -/

namespace Sequence

variable {key : Key} {i : Nat} {chunks : List (List Value)} {q : Sequence} {items : List Value}
  {plan written : Writes}

theorem keys_chunkEntries (key : Key) (i : Nat) (chunks : List (List Value)) :
    (chunkEntries key i chunks).map Prod.fst =
      (List.range' i chunks.length).map (chunkKey key) := by
  induction chunks generalizing i with
  | nil => rfl
  | cons c rest ih => simp [chunkEntries, List.range'_succ, ih]

theorem mem_chunkEntries (key : Key) (i : Nat) {j : Nat} {c : List Value}
    (h : chunks[j]? = some c) :
    (chunkKey key (i + j), (Value.array c).json.toBytes) ∈ chunkEntries key i chunks := by
  induction chunks generalizing i j with
  | nil => simp at h
  | cons first rest ih =>
    cases j with
    | zero =>
      simp only [List.getElem?_cons_zero, Option.some.injEq] at h
      simp [chunkEntries, h]
    | succ j =>
      have later := ih (i + 1) h
      rw [Nat.add_assoc, Nat.add_comm 1] at later
      exact List.mem_cons_of_mem _ later

theorem eq_of_text {k k' : Key} (h : q.Owns k) (h' : q.Owns k') (same : k.text = k'.text) :
    k = k' := by
  rcases h with rfl | ⟨i, -, rfl⟩ <;> rcases h' with rfl | ⟨j, -, rfl⟩
  · rfl
  · exact absurd same.symm (text_chunkKey_ne q.key j)
  · exact absurd same (text_chunkKey_ne q.key i)
  · rw [text_chunkKey_inj same]

theorem distinct_entries (q : Sequence) (items : List Value) :
    ((q.entries items).map Prod.fst).Nodup := by
  have inj : Function.Injective (chunkKey q.key) := fun i j h =>
    text_chunkKey_inj (congrArg Key.text h)
  simp only [entries, List.map_append, keys_chunkEntries, List.map_cons, List.map_nil,
    List.nodup_append, List.mem_map, List.mem_singleton]
  have numbers : (List.range' 0 (chunksOf q.chunkSize.toNat items).length).Nodup :=
    List.nodup_range'
  refine ⟨numbers.map inj, List.nodup_singleton _, ?_⟩
  rintro _ ⟨i, -, rfl⟩ _ rfl h
  exact text_chunkKey_ne q.key i (congrArg Key.text h)

theorem owns_of_mem_entries (hlength : q.length.toNat = items.length) {data : Bytes}
    (mem : (key, data) ∈ q.entries items) : q.Owns key := by
  rcases List.mem_append.1 mem with chunk | header
  · have hkey := List.mem_map_of_mem (f := Prod.fst) chunk
    rw [keys_chunkEntries, List.mem_map] at hkey
    obtain ⟨i, hi, hkey⟩ := hkey
    rw [List.mem_range', length_chunksOf hlength] at hi
    obtain ⟨j, hj, rfl⟩ := hi
    exact .inr ⟨_, by omega, hkey.symm⟩
  · exact .inl (Prod.ext_iff.1 (List.mem_singleton.1 header)).1

theorem lookup_header (q : Sequence) (items : List Value) :
    (q.entries items).lookup q.key = some (headerJson q.length q.chunkSize).toBytes :=
  Writes.lookup_of_mem (distinct_entries q items) (by simp [entries])

theorem lookup_chunk {j : Nat} {c : List Value}
    (h : (chunksOf q.chunkSize.toNat items)[j]? = some c) :
    (q.entries items).lookup (chunkKey q.key j) = some (Value.array c).json.toBytes := by
  have mem := mem_chunkEntries q.key 0 h
  rw [Nat.zero_add] at mem
  exact Writes.lookup_of_mem (distinct_entries q items) (List.mem_append_left _ mem)

/-- The header is there only when all is written. -/
theorem eq_entries_of_header (within : written <+: q.entries items)
    (present : written.lookup q.key ≠ none) : written = q.entries items := by
  rcases List.prefix_concat_iff.1 within with all | chunks
  · exact all
  · refine absurd (Writes.lookup_eq_none fun hkey => ?_) present
    have mem := (chunks.map Prod.fst).mem hkey
    rw [keys_chunkEntries, List.mem_map] at mem
    obtain ⟨i, -, hkey⟩ := mem
    exact text_chunkKey_ne q.key i (congrArg Key.text hkey)

/-! ## Reading it -/

/-- When all is written, the chunks are read one after the other. -/
theorem sees_readChunks {K : Key → Prop}
    (found : ∀ j c, chunks[j]? = some c → K (chunkKey q.key (i + j)) ∧
      plan.lookup (chunkKey q.key (i + j)) = some (Value.array c).json.toBytes) :
    (readChunks Decoder.value q i chunks.length).run.Sees K plan (fun _ r => r = restored chunks)
      plan := by
  induction chunks generalizing i with
  | nil => exact fun _ _ => rfl
  | cons c rest ih =>
    obtain ⟨hkey, here⟩ := found 0 c rfl
    have decoded : ∀ data, (StoreProgram.decode Decoder.value.list data).run.Sees K plan
        (fun _ r => r = (Decoder.value.list.ofBytes data).mapError .serialization) plan :=
      fun data _ _ => rfl
    have chunk := (sees_written hkey here).andThen decoded
    have others := ih (i := i + 1) fun j d hd => by
      rw [Nat.add_assoc, Nat.add_comm 1]
      exact found (j + 1) d hd
    exact chunk.andThen fun items => others.andThen fun later _ _ => rfl

section Reader

variable {u : DataSettings} {name : String}

/-- Whoever looks for the name finds the handle when all is written, and else nothing. -/
theorem sees_find (hkey : u.key name = q.key) (within : written <+: q.entries items) :
    (find u name).run.Sees q.Owns (q.entries items) (fun written' r =>
      (r = .ok q ∧ written' = q.entries items) ∨
        (r = .error (.notFound q.key.text) ∧ written ≠ q.entries items)) written := by
  have header := lookup_header q items
  unfold find
  rw [hkey, ExceptT.run_bind]
  refine (sees_readImmutable (.inl rfl)).bind within fun written₁ r grows seen => ?_
  rcases seen with ⟨data, rfl, found⟩ | ⟨rfl, absent⟩
  · have all : written₁ = q.entries items :=
      eq_entries_of_header grows.within (by simp [found])
    subst all
    rw [header] at found
    obtain rfl := Option.some.inj found
    have hrun := run_header q.key (headerJson q.length q.chunkSize).toBytes
    rw [ofHeader_toBytes] at hrun
    refine cast (congrArg (Program.Sees _ _ _ · _) hrun.symm) ?_
    exact fun written₂ grows₂ => .inl ⟨rfl, grows₂.eq_of_all⟩
  · refine fun written₂ _ => .inr ⟨rfl, ?_⟩
    rintro rfl
    rw [header] at absent
    cases absent

/-- A reader gets all, or nothing if not all was written when it came. -/
theorem sees_reader (hkey : u.key name = q.key) (hlength : q.length.toNat = items.length)
    (within : written <+: q.entries items) :
    (reader u name).Sees q.Owns (q.entries items) (fun _ reading =>
      reading = q.whole items ∨
        (reading = .error (.notFound q.key.text) ∧ written ≠ q.entries items)) written := by
  refine (sees_find hkey within).bind within fun written₁ r grows found => ?_
  rcases found with ⟨rfl, rfl⟩ | ⟨rfl, some_left⟩
  · have count := length_chunksOf hlength
    have chunks : (q.toList Decoder.value).run.Sees q.Owns (q.entries items)
        (fun _ r => r = restored (chunksOf q.chunkSize.toNat items)) (q.entries items) := by
      rw [toList, ← count]
      refine sees_readChunks fun j c hc => ?_
      have hj := (List.getElem?_eq_some_iff.1 hc).1
      rw [Nat.zero_add]
      exact ⟨.inr ⟨j, count ▸ hj, rfl⟩, lookup_chunk hc⟩
    refine chunks.bind List.prefix_rfl fun written₂ r _ read => ?_
    exact fun _ _ => .inl (by rw [read, whole])
  · exact fun _ _ => .inr ⟨rfl, some_left⟩

end Reader

end Sequence

end WorkflowEngine
