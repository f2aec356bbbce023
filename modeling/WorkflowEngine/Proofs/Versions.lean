import WorkflowEngine.Proofs.Entries
/-!
What a version says about the history of an entry. The version counts the writes since the entry
was created, so that as long as nobody deletes the entry, an equal version means that nothing was
written (or a multiple of `UInt64.size` times). An entry that is deleted and created again counts
from zero, and then its versions are those of another entry.
-/
set_option autoImplicit false

namespace WorkflowEngine

/-- A change to the entry of a key. -/
inductive EntryChange where
  | made (data : Bytes)
  | written (data : Bytes)
  | removed
  deriving DecidableEq

namespace EntryChange

def isWrite : EntryChange → Bool
  | .written _ => true
  | _ => false

def apply : EntryChange → Option Entry → Option Entry
  | .made data, _ => some ⟨0, data⟩
  | .written data, e => e.map fun e => ⟨e.version + 1, data⟩
  | .removed, _ => none

/-- The entry after some changes. -/
def applyAll : List EntryChange → Option Entry → Option Entry
  | [], e => e
  | change :: rest, e => applyAll rest (change.apply e)

end EntryChange

/-- The change that a command has made, as its answer tells. -/
def StoreCommand.change? : (c : StoreCommand) → Except StoreError c.Answer → Option EntryChange
  | .create _ data, .ok () => some (.made data)
  | .overwrite _ data, .ok () => some (.written data)
  | .compareAndSwap _ _ data, .ok true => some (.written data)
  | .delete _, .ok true => some .removed
  | _, _ => none

namespace Backend

/-- Whether two keys lead to the same entry. -/
def Shares : Backend → Key → Key → Prop
  | .memory _, k, key => k = key
  | .packed _, k, key => k.text = key.text

instance : (b : Backend) → (k key : Key) → Decidable (b.Shares k key)
  | .memory _, k, key => inferInstanceAs (Decidable (k = key))
  | .packed _, k, key => inferInstanceAs (Decidable (k.text = key.text))

/-- The store after some commands. -/
def after : Backend → List StoreCommand → Backend
  | b, [] => b
  | b, c :: rest => (b.run c).2.after rest

/-- The changes that commands make to the entry of a key, in their order. -/
def changes (key : Key) : Backend → List StoreCommand → List EntryChange
  | _, [] => []
  | b, c :: rest =>
    (if b.Shares c.key key then c.change? (b.run c).1 else none).toList ++
      (b.run c).2.changes key rest

end Backend

namespace StoreCommand

/-- A command changes an entry as its answer tells. -/
theorem act_eq_apply (c : StoreCommand) (e : Option Entry) :
    (c.act e).2 = EntryChange.applyAll (c.change? (c.act e).1).toList e := by
  cases c with
  | compareAndSwap key expected data =>
    cases e with
    | none => rfl
    | some e =>
      by_cases h : e.version = expected
      · simp only [act, if_pos h]
        rfl
      · simp only [act, if_neg h]
        rfl
  | _ => cases e <;> rfl

/-- What is there is not made again, unless it is removed. -/
theorem change_of_some {c : StoreCommand} {e : Entry} {change : EntryChange}
    (h : c.change? (c.act (some e)).1 = some change) :
    change = .removed ∨ ∃ data, change = .written data := by
  cases c with
  | overwrite key data =>
    cases h
    exact .inr ⟨data, rfl⟩
  | compareAndSwap key expected data =>
    by_cases hv : e.version = expected
    · simp only [act, if_pos hv] at h
      cases h
      exact .inr ⟨data, rfl⟩
    · simp only [act, if_neg hv] at h
      cases h
  | delete key =>
    cases h
    exact .inl rfl
  | _ => cases h

end StoreCommand

namespace EntryChange

theorem applyAll_append (changes changes' : List EntryChange) (e? : Option Entry) :
    applyAll (changes ++ changes') e? = applyAll changes' (applyAll changes e?) := by
  induction changes generalizing e? with
  | nil => rfl
  | cons change rest ih => exact ih (change.apply e?)

/-- The version of an entry tells the writes to it: since the start if it was there all along, and
otherwise since it was last made. -/
theorem version_applyAll_iff (changes : List EntryChange) (e? : Option Entry) (version : UInt64) :
    (∃ e, applyAll changes e? = some e ∧ e.version = version) ↔
      (∃ e, e? = some e ∧ changes.all isWrite ∧
        e.version + UInt64.ofNat changes.length = version) ∨
      ∃ before data since, changes = before ++ .made data :: since ∧ since.all isWrite ∧
        UInt64.ofNat since.length = version := by
  induction changes generalizing e? with
  | nil => simp [applyAll]
  | cons change rest ih =>
    have later : (∃ before data since, change :: rest = before ++ EntryChange.made data :: since ∧
        since.all isWrite ∧ UInt64.ofNat since.length = version) ↔
        ((∃ data, change = .made data) ∧ rest.all isWrite ∧ UInt64.ofNat rest.length = version) ∨
        ∃ before data since, rest = before ++ EntryChange.made data :: since ∧
          since.all isWrite ∧ UInt64.ofNat since.length = version := by
      constructor
      · rintro ⟨_ | ⟨_, before⟩, data, since, hsplit, hall, hversion⟩
        · cases hsplit
          exact .inl ⟨⟨data, rfl⟩, hall, hversion⟩
        · cases hsplit
          exact .inr ⟨before, data, since, rfl, hall, hversion⟩
      · rintro (⟨⟨data, rfl⟩, hall, hversion⟩ | ⟨before, data, since, rfl, hall, hversion⟩)
        · exact ⟨[], data, rest, rfl, hall, hversion⟩
        · exact ⟨change :: before, data, since, rfl, hall, hversion⟩
    rw [applyAll, ih, later]
    cases change with
    | made data => simp [apply, isWrite]
    | removed => simp [apply, isWrite]
    | written data =>
      cases e? with
      | none => simp [apply, isWrite]
      | some e =>
        have hsum : e.version + 1 + UInt64.ofNat rest.length =
            e.version + UInt64.ofNat (rest.length + 1) := by
          rw [UInt64.ofNat_add]
          grind
        simp [apply, isWrite, hsum]

end EntryChange

namespace Backend

variable {b : Backend} {key : Key} {c : StoreCommand} {e? : Option Entry}

theorem Shares.entry {k : Key} (h : b.Shares k key) : b.entry k = b.entry key := by
  cases b with
  | memory m => exact congrArg _ h
  | packed p => exact congrArg p.read h

/-- A command leaves the entries of the keys alone that do not lead to its own. -/
theorem entry_of_not_shares (h : ¬ b.Shares c.key key) : (b.run c).2.entry key = b.entry key := by
  cases b with
  | memory m => exact congrArg Except.ok (m.get?_run_of_ne h)
  | packed p => exact p.read_run_of_ne h

theorem entry_run (h : b.entry key = .ok e?) :
    (b.run c).2.entry key = .ok (EntryChange.applyAll
      (if b.Shares c.key key then c.change? (b.run c).1 else none).toList e?) := by
  by_cases hs : b.Shares c.key key
  · obtain ⟨hanswer, hentry⟩ := run_act (hs.entry.trans h)
    have hkept : (b.run c).2.Shares c.key key := by
      cases b <;> exact hs
    rw [if_pos hs, hanswer, ← c.act_eq_apply, ← hkept.entry, hentry]
  · rw [if_neg hs]
    exact (entry_of_not_shares hs).trans h

/-- An entry goes through the changes that the commands make to it. -/
theorem entry_after (cs : List StoreCommand) (h : b.entry key = .ok e?) :
    (b.after cs).entry key = .ok (EntryChange.applyAll (b.changes key cs) e?) := by
  induction cs generalizing b e? with
  | nil => exact h
  | cons c rest ih =>
    rw [after, ih (entry_run h), changes, EntryChange.applyAll_append]

/-- What is never removed is only written to. -/
theorem all_isWrite {cs : List StoreCommand} {e : Entry} (h : b.entry key = .ok (some e))
    (kept : EntryChange.removed ∉ b.changes key cs) :
    (b.changes key cs).all EntryChange.isWrite := by
  induction cs generalizing b e with
  | nil => rfl
  | cons c rest ih =>
    have hrun := entry_run (c := c) h
    rw [changes] at kept ⊢
    by_cases hs : b.Shares c.key key
    · rw [if_pos hs, (run_act (hs.entry.trans h)).1] at kept hrun ⊢
      cases hchange : c.change? (c.act (some e)).1 with
      | none =>
        rw [hchange] at kept hrun
        exact ih hrun kept
      | some change =>
        rw [hchange] at kept hrun
        rcases StoreCommand.change_of_some hchange with rfl | ⟨data, rfl⟩
        · exact absurd List.mem_cons_self kept
        · exact ih hrun fun hmem => kept (List.mem_cons_of_mem _ hmem)
    · rw [if_neg hs] at kept hrun ⊢
      exact ih hrun kept

/-- A swap succeeds exactly if there is an entry with the version that it expects. -/
theorem swaps_iff {expected : UInt64} {data : Bytes} (h : b.entry key = .ok e?) :
    (b.run (.compareAndSwap key expected data)).1 = .ok true ↔
      ∃ e, e? = some e ∧ e.version = expected := by
  rw [(run_act (c := .compareAndSwap key expected data) h).1]
  cases e? with
  | none => simp [StoreCommand.act]
  | some e =>
    by_cases hv : e.version = expected
    · simp [StoreCommand.act, hv]
    · simp only [StoreCommand.act, Option.some.injEq, exists_eq_left', hv, iff_false]
      rintro ⟨⟩

theorem read_iff {e : Entry} :
    (b.run (.getVersioned key)).1 = .ok (some e) ↔ b.entry key = .ok (some e) := by
  cases b <;> exact Iff.rfl

theorem snd_run_getVersioned (b : Backend) (key : Key) : (b.run (.getVersioned key)).2 = b := by
  cases b <;> rfl

/-- A count of writes that fits into a version is zero only if nothing was written. -/
theorem length_eq_zero {α : Type} {xs : List α} (few : xs.length < UInt64.size) :
    UInt64.ofNat xs.length = 0 ↔ xs = [] := by
  constructor
  · intro h
    have hnat : (UInt64.ofNat xs.length).toNat = 0 := congrArg UInt64.toNat h
    rw [UInt64.toNat_ofNat_of_lt' few] at hnat
    exact List.length_eq_zero_iff.mp hnat
  · rintro rfl
    rfl

/-- What the version that was read tells a later swap or read, whatever happens to the store in
between. The swap succeeds exactly if the entry was only written to, a multiple of `UInt64.size`
times, or was made again and has been written to since as often as the version says. So long as
the entry is never removed and the version does not wrap around, the swap replaces the very entry
that was read, and equal versions belong to one entry. -/
theorem swap_after_read {e : Entry} (read : (b.run (.getVersioned key)).1 = .ok (some e))
    (cs : List StoreCommand) (data : Bytes) :
    let later := (b.run (.getVersioned key)).2.after cs
    let changes := b.changes key cs
    ((later.run (.compareAndSwap key e.version data)).1 = .ok true ↔
      (changes.all EntryChange.isWrite ∧ UInt64.ofNat changes.length = 0) ∨
      ∃ before made since, changes = before ++ .made made :: since ∧
        since.all EntryChange.isWrite ∧ UInt64.ofNat since.length = e.version) ∧
    (.removed ∉ changes → changes.length < UInt64.size →
      ((later.run (.compareAndSwap key e.version data)).1 = .ok true ↔ changes = []) ∧
      ∀ e', (later.run (.getVersioned key)).1 = .ok (some e') →
        (e'.version = e.version ↔ changes = []) ∧ (changes = [] → e' = e)) := by
  intro later changes
  have hentry : b.entry key = .ok (some e) := read_iff.mp read
  have hlater : later.entry key = .ok (EntryChange.applyAll changes (some e)) := by
    have hafter := entry_after cs hentry
    rwa [show b.after cs = later from congrArg (after · cs) (snd_run_getVersioned b key).symm] at hafter
  have general := EntryChange.version_applyAll_iff changes (some e) e.version
  have zero : e.version + UInt64.ofNat changes.length = e.version ↔
      UInt64.ofNat changes.length = 0 := by
    grind
  simp only [Option.some.injEq, exists_eq_left', zero] at general
  refine ⟨(swaps_iff hlater).trans general, fun kept few => ?_⟩
  have written : changes.all EntryChange.isWrite := all_isWrite hentry kept
  have never : ¬ ∃ before made since, changes = before ++ EntryChange.made made :: since ∧
      since.all EntryChange.isWrite ∧ UInt64.ofNat since.length = e.version := by
    rintro ⟨before, made, since, hsplit, -, -⟩
    have hmem : EntryChange.made made ∈ changes := hsplit ▸ by simp
    exact nomatch List.all_eq_true.mp written _ hmem
  have unchanged : (∃ e', EntryChange.applyAll changes (some e) = some e' ∧
      e'.version = e.version) ↔ changes = [] := by
    rw [general, or_iff_left never, and_iff_right written, length_eq_zero few]
  refine ⟨(swaps_iff hlater).trans unchanged, fun e' read' => ?_⟩
  have hentry' : EntryChange.applyAll changes (some e) = some e' :=
    Except.ok.inj (hlater.symm.trans (read_iff.mp read'))
  constructor
  · rw [← unchanged, hentry']
    simp
  · intro hnil
    rw [hnil] at hentry'
    exact (Option.some.inj hentry').symm

/-- Another entry of the store is written and removed, an attempt to make the entry anew fails,
and the entry is written to: the swap fails. -/
theorem swap_after_read_stale :
    let k : Key := ⟨"data", "a/b"⟩
    let l : Key := ⟨"data/a", "c"⟩
    let b : Backend := ((Backend.packed .empty).run (.create k [1])).2
    let cs : List StoreCommand := [.create l [], .create k [2], .overwrite k [3], .delete l]
    (b.run (.getVersioned k)).1 = .ok (some ⟨0, [1]⟩) ∧
      (((b.run (.getVersioned k)).2.after cs).run (.compareAndSwap k 0 [4])).1 ≠ .ok true := by
  intro k l b cs
  have read : (b.run (.getVersioned k)).1 = .ok (some ⟨0, [1]⟩) := rfl
  have hchanges : b.changes k cs = [.written [3]] := rfl
  have few : (b.changes k cs).length < UInt64.size := by
    rw [hchanges]
    decide
  have kept : .removed ∉ b.changes k cs := by
    rw [hchanges]
    decide
  refine ⟨read, fun swapped => ?_⟩
  have hnil := ((swap_after_read read cs [4]).2 kept few).1.mp swapped
  exact nomatch hchanges.symm.trans hnil

/-- Neither kind of store notices that an entry was deleted and created again after it was read.
The second read gives the first one's version with other data, and the swap replaces an entry
that was never read. -/
theorem swap_after_recreation :
    let k : Key := ⟨"data", "a"⟩
    ∀ b ∈ [Backend.memory .empty, Backend.packed .empty],
      let created := (b.run (.create k [1])).2
      let later := created.after [.delete k, .create k [2]]
      (created.run (.getVersioned k)).1 = .ok (some ⟨0, [1]⟩) ∧
        (later.run (.getVersioned k)).1 = .ok (some ⟨0, [2]⟩) ∧
        (later.run (.compareAndSwap k 0 [3])).1 = .ok true ∧
        created.changes k [.delete k, .create k [2]] = [.removed, .made [2]] := by
  intro k b hb
  simp only [List.mem_cons, List.not_mem_nil, or_false] at hb
  rcases hb with rfl | rfl <;> exact ⟨rfl, rfl, rfl, rfl⟩

end Backend

end WorkflowEngine
