import WorkflowEngine.Proofs.OneWriter
import WorkflowEngine.Store.Transaction
/-!
What a command leaves of the table of a packed store, whatever the table holds and whichever calls
of the database fail: nothing is changed by a command that fails or that only reads, and nothing
but the entry under the text of its key by any other.
-/
set_option autoImplicit false

namespace WorkflowEngine

namespace PackedStore

variable {p : PackedStore} {c : StoreCommand} {flat : String} {raw : Bytes}

theorem read_of_short (held : p.table.get? flat = some raw)
    (short : raw.length < Entry.headerSize) : p.read flat = .error (Entry.corruption raw) := by
  simp only [read, held, Entry.unpack_of_short short]
  rfl

theorem get?_write_of_ne (p : PackedStore) {key : String} (h : key ≠ flat) (e : Entry) :
    (p.write key e).table.get? flat = p.table.get? flat :=
  (Table.get?_insert _ _ _ _).trans (if_neg h)

/-- A command changes nothing under other texts than that of its key. -/
theorem get?_run_of_ne (p : PackedStore) (h : c.key.text ≠ flat) :
    (p.run c).2.table.get? flat = p.table.get? flat := by
  cases c with
  | create key data =>
    simp only [run]
    split
    · rfl
    · rfl
    · exact p.get?_write_of_ne h _
  | overwrite key data =>
    simp only [run]
    split
    · rfl
    · exact p.get?_write_of_ne h _
    · rfl
  | compareAndSwap key expected data =>
    simp only [run]
    split
    · rfl
    · split
      · exact p.get?_write_of_ne h _
      · rfl
    · rfl
  | delete key => exact (Table.get?_erase _ _ _).trans (if_neg h)
  | get | getVersioned | contains => rfl

/-- A command that fails leaves the table as it was. -/
theorem run_of_error {e : StoreError} (h : (p.run c).1 = .error e) : (p.run c).2 = p := by
  cases c with
  | create key data =>
    simp only [run] at h ⊢
    split at h
    · rfl
    · rfl
    · cases h
  | overwrite key data =>
    simp only [run] at h ⊢
    split at h
    · rfl
    · cases h
    · rfl
  | compareAndSwap key expected data =>
    simp only [run] at h ⊢
    split at h
    · rfl
    · split at h <;> cases h
    · rfl
  | delete key => cases h
  | get | getVersioned | contains => rfl

/-- Every command but a deletion looks at the entry, and fails when there is none to be made out. -/
theorem run_of_short (held : p.table.get? c.key.text = some raw)
    (short : raw.length < Entry.headerSize) (keeps : ∀ key, c ≠ .delete key) :
    (p.run c).1 = .error (Entry.corruption raw) := by
  have hread := read_of_short held short
  cases c with
  | delete key => exact absurd rfl (keeps key)
  | getVersioned key => exact hread
  | create key data | overwrite key data | compareAndSwap key expected data | get key
  | contains key =>
    simp only [StoreCommand.key] at hread
    simp only [run, hread, Except.map]

end PackedStore

/-! ## Outages -/

namespace TableWork

variable {α β : Type}

/-- Whether work goes as it would without outages, or ends with the reason of one. -/
def Wavers (work : Outages → TableWork α) : Prop :=
  ∀ outages table, (work outages).run.run table = (work .none).run.run table ∨
    ∃ reason left, (work outages).run.run table = (.error (.backend reason), left)

theorem wavers_steady (work : TableWork α) : Wavers fun _ => work := fun _ _ => .inl rfl

theorem wavers_call (c : DatabaseCall) : Wavers fun outages => call outages c := by
  intro outages table
  cases h : outages c with
  | none => exact .inl (by simp only [call, h, Outages.none])
  | some reason => exact .inr ⟨reason, table, by simp only [call, h]; rfl⟩

theorem run_bind (work : TableWork α) (next : α → TableWork β) (table : Table String Bytes) :
    (work >>= next).run.run table =
      match work.run.run table with
      | (.ok a, left) => (next a).run.run left
      | (.error e, left) => (.error e, left) := by
  simp only [ExceptT.run_bind, StateT.run_bind]
  rcases work.run.run table with ⟨e | a, left⟩ <;> rfl

theorem Wavers.bind {work : Outages → TableWork α} {next : Outages → α → TableWork β}
    (h : Wavers work) (hnext : ∀ a, Wavers fun outages => next outages a) :
    Wavers fun outages => work outages >>= next outages := by
  intro outages table
  simp only [run_bind]
  rcases h outages table with same | ⟨reason, left, failed⟩
  · rw [same]
    rcases (work .none).run.run table with ⟨e | a, left⟩
    · exact .inl rfl
    · exact hnext a outages left
  · rw [failed]
    exact .inr ⟨reason, left, rfl⟩

theorem wavers_entry (flat : String) : Wavers fun outages => entry outages flat :=
  (wavers_call .look).bind fun _ => wavers_steady _

theorem wavers_map_entry (flat : String) (f : Option Entry → α) :
    Wavers fun outages => do return f (← entry outages flat) :=
  (wavers_entry flat).bind fun _ => wavers_steady _

theorem wavers_change (flat : String)
    (update : Option Entry → Except StoreError (Option Entry × α)) :
    Wavers fun outages => change outages flat update := by
  refine (wavers_entry flat).bind fun e => ?_
  rcases update e with err | ⟨none | next, a⟩
  · exact wavers_steady _
  · exact wavers_steady _
  · exact (wavers_call .insert).bind fun _ => wavers_steady _

theorem wavers_remove (flat : String) : Wavers fun outages => remove outages flat :=
  (wavers_call .remove).bind fun _ => wavers_steady _

end TableWork

namespace PackedStore

variable {α : Type}

/-- Work in a transaction goes as it would without outages, or nothing comes of it. -/
theorem reading_cases (p : PackedStore) {work : Outages → TableWork α}
    (h : TableWork.Wavers work) (outages : Outages) :
    p.reading outages (work outages) = p.reading .none (work .none) ∨
      ∃ reason, p.reading outages (work outages) = (.error (.backend reason), p) := by
  have session := (TableWork.wavers_call .start).bind fun _ =>
    (TableWork.wavers_call .openTable).bind fun _ => h
  rcases session outages p.table with same | ⟨reason, left, failed⟩
  · exact .inl (congrArg (fun r => (r.1, p)) same)
  · exact .inr ⟨reason, congrArg (fun r => (r.1, p)) failed⟩

theorem writing_cases (p : PackedStore) {work : Outages → TableWork α}
    (h : TableWork.Wavers work) (outages : Outages) :
    p.writing outages (work outages) = p.writing .none (work .none) ∨
      ∃ reason, p.writing outages (work outages) = (.error (.backend reason), p) := by
  have session := (TableWork.wavers_call .start).bind fun _ =>
    (TableWork.wavers_call .openTable).bind fun _ =>
      h.bind fun a => (TableWork.wavers_call .commit).bind fun _ => TableWork.wavers_steady (pure a)
  rcases session outages p.table with same | ⟨reason, left, failed⟩
  · exact .inl (congrArg p.settle same)
  · exact .inr ⟨reason, congrArg p.settle failed⟩

/-! Without outages a command does in its transaction what it does to the table itself. -/

theorem run_entry_none (p : PackedStore) (flat : String) :
    (TableWork.entry .none flat).run.run p.table = (p.read flat, p.table) := by
  have looked : (TableWork.entry .none flat).run.run p.table =
      (MonadExcept.ofExcept (p.read flat) : TableWork (Option Entry)).run.run p.table := rfl
  rw [looked]
  cases p.read flat <;> rfl

theorem run_change_none {α : Type} (p : PackedStore) (flat : String)
    (update : Option Entry → Except StoreError (Option Entry × α)) :
    (TableWork.change .none flat update).run.run p.table =
      match (p.read flat).bind update with
      | .error e => (.error e, p.table)
      | .ok (none, a) => (.ok a, p.table)
      | .ok (some next, a) => (.ok a, (p.write flat next).table) := by
  unfold TableWork.change
  rw [TableWork.run_bind, run_entry_none]
  rcases p.read flat with e | current
  · rfl
  · simp only [Except.bind]
    rcases update current with e | ⟨none | next, a⟩ <;> rfl

theorem call_none (c : DatabaseCall) : TableWork.call .none c = pure () := rfl

theorem writing_none {α : Type} (p : PackedStore) (work : TableWork α) :
    p.writing .none work = p.settle (work.run.run p.table) := by
  unfold writing
  simp only [call_none, pure_bind, bind_pure]

theorem reading_none {α : Type} (p : PackedStore) (work : TableWork α) :
    p.reading .none work = ((work.run.run p.table).1, p) := by
  unfold reading
  simp only [call_none, pure_bind]

theorem reading_entry (p : PackedStore) (flat : String) :
    p.reading .none (TableWork.entry .none flat) = (p.read flat, p) := by
  rw [reading_none, run_entry_none]

theorem reading_map_entry {α : Type} (p : PackedStore) (flat : String) (f : Option Entry → α) :
    p.reading .none (do return f (← TableWork.entry .none flat)) = ((p.read flat).map f, p) := by
  rw [reading_none, TableWork.run_bind, run_entry_none]
  cases p.read flat <;> rfl

theorem attempt_none (p : PackedStore) (c : StoreCommand) : p.attempt .none c = p.run c := by
  cases c with
  | create key data | overwrite key data =>
    simp only [attempt, writing_none, run_change_none, run]
    rcases p.read key.text with e | (- | e) <;> rfl
  | compareAndSwap key expected data =>
    simp only [attempt, writing_none, run_change_none, run]
    rcases p.read key.text with e | (- | e)
    · rfl
    · rfl
    · by_cases hv : e.version = expected
      · simp only [Except.bind, if_pos hv]
        rfl
      · simp only [Except.bind, if_neg hv]
        rfl
  | get key => exact p.reading_map_entry key.text (Option.map Entry.data)
  | contains key => exact p.reading_map_entry key.text Option.isSome
  | getVersioned key => exact p.reading_entry key.text
  | delete key => exact writing_none p (TableWork.remove .none key.text)

/-- A command does all that it is to do, or nothing for the reason of an outage. -/
theorem attempt_cases (outages : Outages) (p : PackedStore) (c : StoreCommand) :
    p.attempt outages c = p.run c ∨
      ∃ reason, p.attempt outages c = (.error (.backend reason), p) := by
  rw [← attempt_none]
  cases c with
  | create | overwrite | compareAndSwap =>
    exact p.writing_cases (TableWork.wavers_change _ _) outages
  | delete => exact p.writing_cases (TableWork.wavers_remove _) outages
  | getVersioned => exact p.reading_cases (TableWork.wavers_entry _) outages
  | get key => exact p.reading_cases (TableWork.wavers_map_entry key.text _) outages
  | contains key => exact p.reading_cases (TableWork.wavers_map_entry key.text _) outages

/-- What a command may do to a table that it finds, by its answer and the table that it leaves. -/
structure Transacts (p : PackedStore) (c : StoreCommand)
    (after : Except StoreError c.Answer × PackedStore) : Prop where
  of_error : ∀ e, after.1 = .error e → after.2 = p
  of_isRead : c.isRead = true → after.2 = p
  elsewhere : ∀ flat, c.key.text ≠ flat → after.2.table.get? flat = p.table.get? flat
  of_short : ∀ raw, p.table.get? c.key.text = some raw → raw.length < Entry.headerSize →
    (∀ key, c ≠ .delete key) → ∃ reason, after.1 = .error (.backend reason)

theorem transacts_run (p : PackedStore) (c : StoreCommand) : p.Transacts c (p.run c) where
  of_error _ := run_of_error
  of_isRead read := by
    cases c with
    | get | getVersioned | contains => rfl
    | create | overwrite | compareAndSwap | delete => cases read
  elsewhere _ := p.get?_run_of_ne
  of_short _ held short keeps := ⟨_, run_of_short held short keeps⟩

theorem transacts_of_outage (p : PackedStore) (c : StoreCommand) (reason : String) :
    p.Transacts c (.error (.backend reason), p) where
  of_error _ _ := rfl
  of_isRead _ := rfl
  elsewhere _ _ := rfl
  of_short _ _ _ _ := ⟨reason, rfl⟩

/-- Commands are atomic and local on every table, whichever calls of the database fail. When none
does, the command is carried out, and what is too short to be an entry can still be deleted. -/
theorem attempt_atomic (p : PackedStore) :
    (∀ outages c, p.Transacts c (p.attempt outages c)) ∧
      (∀ c, p.attempt .none c = p.run c) ∧
      ∀ key raw, p.table.get? key.text = some raw →
        (p.attempt .none (.delete key)).1 = .ok true ∧
          (p.attempt .none (.delete key)).2.table.get? key.text = none := by
  refine ⟨fun outages c => ?_, p.attempt_none, fun key raw held => ?_⟩
  · rcases attempt_cases outages p c with same | ⟨reason, failed⟩
    · rw [same]
      exact p.transacts_run c
    · rw [failed]
      exact p.transacts_of_outage c reason
  · rw [attempt_none]
    refine ⟨congrArg Except.ok (?_ : (p.table.get? key.text).isSome = true), ?_⟩
    · rw [held]
      rfl
    · exact (Table.get?_erase _ _ _).trans (if_pos rfl)

/-- Three bytes under a key: nothing can be created there until they are deleted. -/
theorem attempt_atomic_of_three_bytes :
    let p : PackedStore := ⟨⟨[("jobs/next", [1, 2, 3])]⟩⟩
    (∃ reason, (p.attempt .none (.create ⟨"jobs", "next"⟩ [7])).1 = .error (.backend reason)) ∧
      (p.attempt .none (.delete ⟨"jobs", "next"⟩)).1 = .ok true := by
  intro p
  have held : p.table.get? (Key.text ⟨"jobs", "next"⟩) = some [1, 2, 3] := by decide
  obtain ⟨transacts, -, deletes⟩ := attempt_atomic p
  refine ⟨?_, (deletes _ _ held).1⟩
  exact (transacts .none (.create ⟨"jobs", "next"⟩ [7])).of_short _ held (by decide) nofun

end PackedStore

end WorkflowEngine
