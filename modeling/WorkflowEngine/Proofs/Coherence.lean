import Mathlib
import WorkflowEngine.Proofs.Entries
import WorkflowEngine.Proofs.Lookups
/-!
Caches of sessions and the store that they share. As long as nobody overwrites or deletes entries of
immutable data, what is in a cache is what is in the store, and what has been stored stays there.
-/
set_option autoImplicit false

namespace WorkflowEngine

/-- Commands that take no data away from certain keys: those that read or create, and those on other
entries. -/
def StoreCommand.Spares (K : Key → Prop) (c : StoreCommand) : Prop :=
  c.isRead = true ∨ (∃ key data, c = .create key data) ∨ ∀ key, K key → c.key.text ≠ key.text

namespace Backend

variable {b b' b'' : Backend} {K : Key → Prop} {key : Key} {data : Bytes}

theorem run_get (b : Backend) (key : Key) :
    (b.run (.get key)).1 = (b.entry key).map fun entry => entry.map Entry.data := by
  cases b <;> rfl

theorem fetch_of_entry {entry : Entry} (h : b.entry key = .ok (some entry)) :
    b.fetch key = .ok entry.data := by
  simp [fetch, run_get, h, Except.map]

theorem fetch_eq_ok : b.fetch key = .ok data ↔
    ∃ version, b.entry key = .ok (some ⟨version, data⟩) := by
  constructor
  · intro h
    rw [fetch, run_get] at h
    rcases hentry : b.entry key with e | _ | ⟨version, stored⟩
    · simp [hentry, Except.map] at h
    · simp [hentry, Except.map] at h
    · have hdata : stored = data := by simpa [hentry, Except.map] using h
      exact ⟨version, by rw [hdata]⟩
  · rintro ⟨version, h⟩
    exact fetch_of_entry h

/-- Data is created where there is none, and nothing happens where there is some. -/
theorem run_create (b : Backend) (key : Key) (data : Bytes) :
    (b.entry key = .ok none ∧ (b.run (.create key data)).1 = .ok () ∧
      (b.run (.create key data)).2.entry key = .ok (some ⟨0, data⟩)) ∨
    ∃ e, (b.run (.create key data)).1 = .error e ∧ (b.run (.create key data)).2 = b := by
  rcases hentry : b.entry key with e | _ | entry
  · cases b with
    | memory m => cases hentry
    | packed p =>
      have hread : p.read key.text = .error e := hentry
      exact .inr ⟨e, by simp [run, PackedStore.run, hread]⟩
  · obtain ⟨hanswer, hafter⟩ := run_act (c := .create key data) hentry
    exact .inl ⟨rfl, hanswer, hafter⟩
  · cases b with
    | memory m =>
      have hget : m.table.get? key = some entry := Except.ok.inj hentry
      exact .inr ⟨.alreadyExists key.text, by simp [run, MemoryStore.run, hget]⟩
    | packed p =>
      have hread : p.read key.text = .ok (some entry) := hentry
      exact .inr ⟨.alreadyExists key.text, by simp [run, PackedStore.run, hread]⟩

/-- Created data takes no place that is taken, also where the texts of keys are the same. -/
theorem entry_run_create {entry : Entry} (h : b.entry key = .ok (some entry)) (k : Key) :
    (b.run (.create k data)).2.entry key = .ok (some entry) := by
  rcases run_create b k data with ⟨absent, -⟩ | ⟨e, -, unchanged⟩
  · by_cases htext : k.text = key.text
    · cases b with
      | memory m =>
        have hne : k ≠ key := by
          rintro rfl
          simp [h] at absent
        exact (congrArg Except.ok (m.get?_run_of_ne (c := .create k data) hne)).trans h
      | packed p =>
        have hsame : p.read key.text = .ok none := htext ▸ absent
        exact nomatch hsame.symm.trans h
    · exact (entry_run_of_ne b (c := .create k data) htext).trans h
  · rw [unchanged, h]

/-- Whether a store has the data that another one has under certain keys. -/
def Keeps (K : Key → Prop) (b b' : Backend) : Prop :=
  ∀ key data, K key → b.fetch key = .ok data → b'.fetch key = .ok data

theorem Keeps.refl (b : Backend) : Keeps K b b := fun _ _ _ h => h

theorem Keeps.trans (h : Keeps K b b') (h' : Keeps K b' b'') : Keeps K b b'' :=
  fun key data hkey stored => h' key data hkey (h key data hkey stored)

theorem keeps_run {c : StoreCommand} (spares : c.Spares K) : Keeps K b (b.run c).2 := by
  intro key data hkey stored
  obtain ⟨version, hentry⟩ := fetch_eq_ok.1 stored
  rcases spares with read | ⟨k, new, rfl⟩ | other
  · rw [run_of_isRead read, stored]
  · exact fetch_of_entry (entry_run_create hentry k)
  · exact fetch_of_entry ((entry_run_of_ne b (other key hkey)).trans hentry)

end Backend

namespace Session

variable {s s' s'' : Session} {K : Key → Prop} {key : Key} {data : Bytes}

/-- One thing that happens while a session is open. The session looks for immutable data or makes
some, or a command changes the store, by whomever it was asked. -/
inductive Passes (K : Key → Prop) : Session → Session → Prop
  | look (s : Session) (key : Key) : Passes K s (s.run (StoreProgram.readImmutable key).run).2
  | make (s : Session) (key : Key) (data : Bytes) :
      Passes K s (s.run (StoreProgram.createImmutable key data).run).2
  | command (s : Session) {c : StoreCommand} : c.Spares K →
      Passes K s { s with backend := (s.backend.run c).2 }
  | count (s : Session) (nextId clockMillis : Nat) :
      Passes K s { s with nextId := nextId, clockMillis := clockMillis }

/-- What happens while nobody overwrites or deletes data under certain keys. -/
abbrev Elapses (K : Key → Prop) : Session → Session → Prop := Relation.ReflTransGen (Passes K)

/-- Whether a session finds what is in the store. -/
def Coherent (K : Key → Prop) (s : Session) : Prop :=
  ∀ key, K key → s.lookup key = s.backend.fetch key

theorem coherent_iff : s.Coherent K ↔
    ∀ key data, K key → s.cache.get? key = some data → s.backend.fetch key = .ok data := by
  constructor
  · intro h key data hkey cached
    have found := h key hkey
    simp only [lookup, cached] at found
    exact found.symm
  · intro h key hkey
    cases cached : s.cache.get? key with
    | none => simp [lookup, cached]
    | some data => simp [lookup, cached, h key data hkey cached]

theorem coherent_of_empty (h : s.cache = .empty) : s.Coherent K :=
  coherent_iff.2 fun key data _ cached => by simp [h] at cached

theorem Coherent.alike (h : s.Coherent K) (alike : s.Alike s') : s'.Coherent K := by
  intro key hkey
  rw [alike.lookup, alike.backend, h key hkey]

theorem Coherent.keeps (h : s.Coherent K) (cache : s'.cache = s.cache)
    (keeps : Backend.Keeps K s.backend s'.backend) : s'.Coherent K :=
  coherent_iff.2 fun key data hkey cached =>
    keeps key data hkey (coherent_iff.1 h key data hkey (cache ▸ cached))

/-- Immutable data is cached when it has been created. -/
theorem run_createImmutable_ok (h : (s.backend.run (.create key data)).1 = .ok ()) :
    s.run (StoreProgram.createImmutable key data).run =
      (.ok (), { s with
        backend := (s.backend.run (.create key data)).2
        cache := s.cache.insert key data }) := by
  show s.run (.ask (.store (.create key data)) _) = _
  simp only [Session.run, Program.run, serve, h]
  rfl

theorem run_createImmutable_error {e : StoreError}
    (h : (s.backend.run (.create key data)).1 = .error e)
    (unchanged : (s.backend.run (.create key data)).2 = s.backend) :
    s.run (StoreProgram.createImmutable key data).run = (.error e, s) := by
  show s.run (.ask (.store (.create key data)) _) = _
  simp only [Session.run, Program.run, serve, h, unchanged]
  rfl

theorem stored_createImmutable
    (h : s.run (StoreProgram.createImmutable key data).run = (.ok (), s')) :
    s'.backend.fetch key = .ok data := by
  rcases s.backend.run_create key data with ⟨-, created, stored⟩ | ⟨e, failed, unchanged⟩
  · rw [run_createImmutable_ok created] at h
    cases h
    exact Backend.fetch_of_entry stored
  · exact nomatch (run_createImmutable_error failed unchanged).symm.trans h

theorem passes_make {result : Except StoreError Unit}
    (h : s.run (StoreProgram.createImmutable key data).run = (result, s')) : Passes K s s' := by
  have made := Passes.make (K := K) s key data
  rwa [h] at made

theorem Passes.keeps (h : Passes K s s') : Backend.Keeps K s.backend s'.backend := by
  cases h with
  | look key =>
    rw [(reads_readImmutable s key).alike.backend]
    exact .refl _
  | make key data =>
    rcases s.backend.run_create key data with ⟨-, created, -⟩ | ⟨e, failed, unchanged⟩
    · rw [run_createImmutable_ok created]
      exact Backend.keeps_run (.inr (.inl ⟨key, data, rfl⟩))
    · rw [run_createImmutable_error failed unchanged]
      exact .refl _
  | command spares => exact Backend.keeps_run spares
  | count => exact .refl _

theorem Passes.coherent (h : Passes K s s') (coherent : s.Coherent K) : s'.Coherent K := by
  have keeps := h.keeps
  cases h with
  | look key => exact coherent.alike (reads_readImmutable s key).alike
  | make key data =>
    rcases s.backend.run_create key data with ⟨-, created, stored⟩ | ⟨e, failed, unchanged⟩
    · rw [run_createImmutable_ok created] at keeps ⊢
      refine coherent_iff.2 fun k found hk cached => ?_
      by_cases hkey : key = k
      · subst hkey
        obtain rfl : data = found := by simpa using cached
        exact Backend.fetch_of_entry stored
      · exact keeps k found hk (coherent_iff.1 coherent k found hk (by simpa [hkey] using cached))
    · rw [run_createImmutable_error failed unchanged]
      exact coherent
  | command => exact coherent.keeps rfl keeps
  | count => exact coherent

theorem elapses_bind {α β : Type} {p : StoreProgram α} {f : α → StoreProgram β}
    (hp : s.Elapses K (s.run p.run).2)
    (hf : ∀ a s', s.run p.run = (.ok a, s') → s'.Elapses K (s'.run (f a).run).2) :
    s.Elapses K (s.run (p >>= f).run).2 := by
  rcases hrun : s.run p.run with ⟨e | a, s'⟩
  · rw [hrun] at hp
    rw [run_bind_error hrun]
    exact hp
  · rw [hrun] at hp
    rw [run_bind_ok hrun]
    exact hp.trans (hf a s' hrun)

theorem Elapses.keeps (h : s.Elapses K s') : Backend.Keeps K s.backend s'.backend := by
  induction h with
  | refl => exact .refl _
  | tail _ step ih => exact ih.trans step.keeps

theorem Elapses.coherent (h : s.Elapses K s') (coherent : s.Coherent K) : s'.Coherent K := by
  induction h with
  | refl => exact coherent
  | tail _ step ih => exact step.coherent ih

/-- Whether a session has started with an empty cache and come by a store as it was at some time,
while nobody overwrote or deleted data under certain keys. What it has read, and when, makes no
difference. -/
def Follows (K : Key → Prop) (b : Backend) (s : Session) : Prop :=
  ∃ s₀ s₁ : Session, s₀.cache = .empty ∧ s₀.Elapses K s₁ ∧ s₁.backend = b ∧ s₁.Elapses K s

namespace Follows

variable {b : Backend}

theorem coherent (h : s.Follows K b) : s.Coherent K := by
  obtain ⟨s₀, s₁, empty, before, -, after⟩ := h
  exact after.coherent (before.coherent (coherent_of_empty empty))

theorem keeps (h : s.Follows K b) : Backend.Keeps K b s.backend := by
  obtain ⟨s₀, s₁, -, -, rfl, after⟩ := h
  exact after.keeps

end Follows

/-- What is stored is found as long as nobody takes it away. -/
theorem Coherent.lookup_eq (h : s.Coherent K) (hkey : K key)
    (stored : s.backend.fetch key = .ok data) : s.lookup key = .ok data :=
  (h key hkey).trans stored

end Session

end WorkflowEngine
