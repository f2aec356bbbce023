import WorkflowEngine.Store.Backend
/-!
What a store command does to the entry of its key, and that it does nothing to the others. Both
kinds of store do the same as long as the entries that they hold are whole.
-/
set_option autoImplicit false

namespace WorkflowEngine

namespace Entry

@[simp] theorem length_bigEndian (count n : Nat) : (bigEndian count n).length = count := by
  induction count generalizing n with
  | zero => rfl
  | succ count ih => simp [bigEndian, ih]

theorem ofBigEndian_append (bytes : Bytes) (b : UInt8) :
    ofBigEndian (bytes ++ [b]) = ofBigEndian bytes * 256 + b.toNat := by
  simp [ofBigEndian]

theorem ofBigEndian_bigEndian (count n : Nat) :
    ofBigEndian (bigEndian count n) = n % Nat.pow 256 count := by
  induction count generalizing n with
  | zero => simp [bigEndian, ofBigEndian, Nat.mod_one]
  | succ count ih =>
    have hlast : (UInt8.ofNat n).toNat = n % 256 := by simp
    have hpow : Nat.pow 256 (count + 1) = 256 * Nat.pow 256 count := Nat.pow_succ'
    rw [bigEndian, ofBigEndian_append, ih, hlast, hpow, Nat.mod_mul]
    omega

theorem take_pack (e : Entry) : e.pack.take headerSize = bigEndian headerSize e.version.toNat :=
  List.take_left' (length_bigEndian _ _)

theorem drop_pack (e : Entry) : e.pack.drop headerSize = e.data :=
  List.drop_left' (length_bigEndian _ _)

theorem ofBigEndian_take_pack (e : Entry) :
    ofBigEndian (e.pack.take headerSize) = e.version.toNat := by
  rw [take_pack, ofBigEndian_bigEndian]
  exact Nat.mod_eq_of_lt e.version.toNat_lt

/-- Why bytes without a whole header are refused. -/
def corruption (raw : Bytes) : StoreError :=
  .backend ("corrupt entry: " ++ toString raw.length ++ " bytes is shorter than the version header")

theorem unpack_of_short {raw : Bytes} (short : raw.length < headerSize) :
    unpack raw = .error (corruption raw) := if_pos short

theorem unpack_of_whole {raw : Bytes} (whole : headerSize ≤ raw.length) :
    unpack raw = .ok ⟨UInt64.ofNat (ofBigEndian (raw.take headerSize)), raw.drop headerSize⟩ :=
  if_neg (Nat.not_lt.2 whole)

/-- A packed entry is read back whole. -/
theorem unpack_pack (e : Entry) : unpack e.pack = .ok e := by
  have whole : headerSize ≤ e.pack.length := by
    simp only [pack, List.length_append, length_bigEndian]
    omega
  rw [unpack_of_whole whole, ofBigEndian_take_pack, drop_pack, UInt64.ofNat_toNat]

end Entry

namespace StoreCommand

/-- The answer of a command to the entry of its key, and the entry after it. -/
def act : (c : StoreCommand) → Option Entry → Except StoreError c.Answer × Option Entry
  | .create key _, some e => (.error (.alreadyExists key.text), some e)
  | .create _ data, none => (.ok (), some ⟨0, data⟩)
  | .overwrite _ data, some e => (.ok (), some ⟨e.version + 1, data⟩)
  | .overwrite key _, none => (.error (.notFound key.text), none)
  | .get _, e => (.ok (e.map Entry.data), e)
  | .getVersioned _, e => (.ok e, e)
  | .compareAndSwap _ expected data, some e =>
    if e.version = expected then (.ok true, some ⟨e.version + 1, data⟩) else (.ok false, some e)
  | .compareAndSwap key _ _, none => (.error (.notFound key.text), none)
  | .contains _, e => (.ok e.isSome, e)
  | .delete _, e => (.ok e.isSome, none)

/-- The bytes that a command is to write. -/
def data? : StoreCommand → Option Bytes
  | .create _ data | .overwrite _ data | .compareAndSwap _ _ data => some data
  | _ => none

end StoreCommand

theorem MemoryStore.run_act (m : MemoryStore) (c : StoreCommand) :
    (m.run c).1 = (c.act (m.table.get? c.key)).1 ∧
      (m.run c).2.table.get? c.key = (c.act (m.table.get? c.key)).2 := by
  cases c with
  | create key data =>
    simp only [run, StoreCommand.key, set]
    cases he : m.table.get? key <;> simp [StoreCommand.act, he]
  | overwrite key data =>
    simp only [run, StoreCommand.key, set]
    cases he : m.table.get? key <;> simp [StoreCommand.act, he]
  | compareAndSwap key expected data =>
    simp only [run, StoreCommand.key, set]
    cases he : m.table.get? key with
    | none => simp [StoreCommand.act, he]
    | some e => by_cases hv : e.version = expected <;> simp [StoreCommand.act, he, hv]
  | delete key => simp [run, StoreCommand.key, StoreCommand.act]
  | _ => exact ⟨rfl, rfl⟩

theorem MemoryStore.get?_run_of_ne (m : MemoryStore) {c : StoreCommand} {key : Key}
    (h : c.key ≠ key) : (m.run c).2.table.get? key = m.table.get? key := by
  cases c with
  | create k data =>
    simp only [run, set]
    split
    · rfl
    · exact (Table.get?_insert _ _ _ _).trans (if_neg h)
  | overwrite k data =>
    simp only [run, set]
    split
    · exact (Table.get?_insert _ _ _ _).trans (if_neg h)
    · rfl
  | compareAndSwap k expected data =>
    simp only [run, set]
    split
    · split
      · exact (Table.get?_insert _ _ _ _).trans (if_neg h)
      · rfl
    · rfl
  | delete k => exact (Table.get?_erase _ _ _).trans (if_neg h)
  | _ => rfl

theorem PackedStore.read_write (p : PackedStore) (flat flat' : String) (e : Entry) :
    (p.write flat e).read flat' = if flat = flat' then .ok (some e) else p.read flat' := by
  unfold write read
  rw [Table.get?_insert]
  by_cases h : flat = flat'
  · simp [h, Entry.unpack_pack, Except.map]
  · simp [h]

theorem PackedStore.run_act {p : PackedStore} {c : StoreCommand} {e : Option Entry}
    (h : p.read c.key.text = .ok e) :
    (p.run c).1 = (c.act e).1 ∧ (p.run c).2.read c.key.text = .ok (c.act e).2 := by
  cases c with
  | create key data =>
    have hread : p.read key.text = .ok e := h
    cases e <;> simp [run, StoreCommand.key, StoreCommand.act, hread, read_write]
  | overwrite key data =>
    have hread : p.read key.text = .ok e := h
    cases e <;> simp [run, StoreCommand.key, StoreCommand.act, hread, read_write]
  | compareAndSwap key expected data =>
    have hread : p.read key.text = .ok e := h
    cases e with
    | none => simp [run, StoreCommand.key, StoreCommand.act, hread]
    | some e =>
      by_cases hv : e.version = expected <;>
        simp [run, StoreCommand.key, StoreCommand.act, hread, read_write, hv]
  | delete key =>
    have hread : p.read key.text = .ok e := h
    have hsome : (p.table.get? key.text).isSome = e.isSome := by
      unfold read at hread
      cases ht : p.table.get? key.text with
      | none =>
        rw [ht] at hread
        cases hread
        rfl
      | some raw =>
        rw [ht] at hread
        cases hu : Entry.unpack raw with
        | error err => simp [hu, Except.map] at hread
        | ok entry =>
          simp only [hu, Except.map, Except.ok.injEq] at hread
          simp [← hread]
    simp [run, StoreCommand.key, StoreCommand.act, hsome, read]
  | get key =>
    have hread : p.read key.text = .ok e := h
    simp [run, StoreCommand.key, StoreCommand.act, hread, Except.map]
  | getVersioned key => exact ⟨h, h⟩
  | contains key =>
    have hread : p.read key.text = .ok e := h
    simp [run, StoreCommand.key, StoreCommand.act, hread, Except.map]

theorem PackedStore.read_run_of_ne (p : PackedStore) {c : StoreCommand} {flat : String}
    (h : c.key.text ≠ flat) : (p.run c).2.read flat = p.read flat := by
  cases c with
  | create k data =>
    have hne : k.text ≠ flat := h
    simp only [run]
    split <;> simp [read_write, hne]
  | overwrite k data =>
    have hne : k.text ≠ flat := h
    simp only [run]
    split <;> simp [read_write, hne]
  | compareAndSwap k expected data =>
    have hne : k.text ≠ flat := h
    simp only [run]
    split
    · rfl
    · split <;> simp [read_write, hne]
    · rfl
  | delete k =>
    have hne : k.text ≠ flat := h
    simp [run, read, hne]
  | _ => rfl

namespace Backend

/-- The entry under a key. -/
def entry : Backend → Key → Except StoreError (Option Entry)
  | .memory m, key => .ok (m.table.get? key)
  | .packed p, key => p.read key.text

/-- A command answers to the entry of its key and changes it. -/
theorem run_act {b : Backend} {c : StoreCommand} {e : Option Entry} (h : b.entry c.key = .ok e) :
    (b.run c).1 = (c.act e).1 ∧ (b.run c).2.entry c.key = .ok (c.act e).2 := by
  cases b with
  | memory m =>
    cases h
    obtain ⟨hanswer, hentry⟩ := m.run_act c
    exact ⟨hanswer, congrArg Except.ok hentry⟩
  | packed p => exact PackedStore.run_act h

/-- What has been created is there. -/
theorem entry_of_created {b : Backend} {key : Key} {data : Bytes}
    (h : (b.run (.create key data)).1 = .ok ()) :
    (b.run (.create key data)).2.entry key = .ok (some ⟨0, data⟩) := by
  have hentry : ∃ e, b.entry key = .ok e := by
    cases b with
    | memory m => exact ⟨_, rfl⟩
    | packed p =>
      cases hread : p.read key.text with
      | ok e => exact ⟨e, hread⟩
      | error e =>
        simp only [run, PackedStore.run, hread] at h
        cases h
  obtain ⟨e, he⟩ := hentry
  obtain ⟨hanswer, hafter⟩ := run_act (c := .create key data) he
  rw [h] at hanswer
  cases e with
  | none => exact hafter
  | some e => cases hanswer

/-- A command leaves every entry alone whose key has another text. -/
theorem entry_run_of_ne (b : Backend) {c : StoreCommand} {key : Key} (h : c.key.text ≠ key.text) :
    (b.run c).2.entry key = b.entry key := by
  cases b with
  | memory m =>
    have hne : c.key ≠ key := fun heq => h (congrArg Key.text heq)
    exact congrArg Except.ok (m.get?_run_of_ne hne)
  | packed p => exact p.read_run_of_ne h

end Backend

end WorkflowEngine
