import WorkflowEngine.Proofs.StoreAgreement
import WorkflowEngine.Proofs.Versions
/-!
Which keys of a store are apart, so that nothing done under one of them shows in the answers under
the other. In memory any two keys are. A packed store only knows the texts of keys, and two keys
have one text when the container of the one goes on, after a slash, with what the name of the other
begins with.
-/
set_option autoImplicit false

namespace WorkflowEngine

namespace Key

variable {j k : Key}

/-- Whether a key has in its container what the other one has in its name. -/
def Straddles (j k : Key) : Prop :=
  ∃ mid, j.container = k.container ++ "/" ++ mid ∧ k.name = mid ++ "/" ++ j.name

theorem Straddles.text_eq (h : j.Straddles k) : j.text = k.text := by
  obtain ⟨mid, hcontainer, hname⟩ := h
  simp only [text, hcontainer, hname, String.append_assoc]

theorem Straddles.slash_mem (h : j.Straddles k) : '/' ∈ j.container.toList := by
  obtain ⟨mid, hcontainer, -⟩ := h
  simp [hcontainer]

theorem eq_of_toList (hcontainer : j.container.toList = k.container.toList)
    (hname : j.name.toList = k.name.toList) : j = k := by
  obtain ⟨container, name⟩ := j
  cases String.toList_inj.1 hcontainer
  cases String.toList_inj.1 hname
  rfl

/-- Two keys with one text have the same container, or the longer container has a slash where the
shorter one ends. -/
theorem eq_or_straddles {more : List Char}
    (hcontainer : k.container.toList = j.container.toList ++ more)
    (hrest : '/' :: j.name.toList = more ++ '/' :: k.name.toList) : j = k ∨ k.Straddles j := by
  cases more with
  | nil =>
    rw [List.append_nil] at hcontainer
    exact .inl (eq_of_toList hcontainer.symm (List.cons_eq_cons.1 hrest).2)
  | cons slash mid =>
    obtain ⟨rfl, hname⟩ := List.cons_eq_cons.1 hrest
    exact .inr ⟨String.ofList mid, String.toList_inj.1 (by simp [hcontainer]),
      String.toList_inj.1 (by simp [hname])⟩

theorem text_eq_iff : j.text = k.text ↔ j = k ∨ j.Straddles k ∨ k.Straddles j := by
  constructor
  · intro h
    have chars : j.container.toList ++ '/' :: j.name.toList =
        k.container.toList ++ '/' :: k.name.toList := by
      simpa [text] using congrArg String.toList h
    rcases List.append_eq_append_iff.1 chars with
      ⟨more, hcontainer, hrest⟩ | ⟨more, hcontainer, hrest⟩
    · exact (eq_or_straddles hcontainer hrest).imp_right .inr
    · exact (eq_or_straddles hcontainer hrest).imp Eq.symm .inl
  · rintro (rfl | h | h)
    · rfl
    · exact h.text_eq
    · exact h.text_eq.symm

end Key

/-- What becomes of a command when what stands under its key is no entry, and what stands there
afterwards. -/
def StoreCommand.refuse (e : StoreError) :
    (c : StoreCommand) → Except StoreError c.Answer × Except StoreError (Option Entry)
  | .delete _ => (.ok true, .ok none)
  | _ => (.error e, .error e)

theorem PackedStore.run_refuse {p : PackedStore} {c : StoreCommand} {e : StoreError}
    (h : p.read c.key.text = .error e) :
    ((p.run c).1, (p.run c).2.read c.key.text) = c.refuse e := by
  cases c with
  | delete key =>
    have held : (p.table.get? key.text).isSome = true := by
      cases ht : p.table.get? key.text with
      | none =>
        simp only [read, StoreCommand.key, ht] at h
        cases h
      | some raw => rfl
    simp [run, StoreCommand.key, StoreCommand.refuse, held, read]
  | getVersioned key => exact Prod.ext h h
  | create key | overwrite key | get key | compareAndSwap key | contains key =>
    simp only [StoreCommand.key] at h
    simp [run, StoreCommand.key, StoreCommand.refuse, h, Except.map]

namespace Backend

variable {b b' : Backend} {c : StoreCommand} {j k key : Key}

/-! ## What the answers depend on -/

/-- Stores with the same under a key do the same there. -/
theorem run_congr (h : b.entry c.key = b'.entry c.key) :
    (b.run c).1 = (b'.run c).1 ∧ (b.run c).2.entry c.key = (b'.run c).2.entry c.key := by
  cases he : b.entry c.key with
  | ok e =>
    obtain ⟨hanswer, hentry⟩ := run_act he
    obtain ⟨hanswer', hentry'⟩ := run_act (h.symm.trans he)
    exact ⟨hanswer.trans hanswer'.symm, hentry.trans hentry'.symm⟩
  | error e =>
    have refused : ∀ {s : Backend}, s.entry c.key = .error e →
        ((s.run c).1, (s.run c).2.entry c.key) = c.refuse e := by
      intro s hs
      cases s with
      | memory m => cases hs
      | packed p => exact PackedStore.run_refuse hs
    exact Prod.mk.inj ((refused he).trans (refused (h.symm.trans he)).symm)

theorem shares_run (b : Backend) (c : StoreCommand) : (b.run c).2.Shares = b.Shares := by
  cases b <;> rfl

theorem after_append (b : Backend) (cs cs' : List StoreCommand) :
    b.after (cs ++ cs') = (b.after cs).after cs' := by
  induction cs generalizing b with
  | nil => rfl
  | cons c rest ih => exact ih _

theorem shares_after (b : Backend) (cs : List StoreCommand) : (b.after cs).Shares = b.Shares := by
  induction cs generalizing b with
  | nil => rfl
  | cons c rest ih => exact (ih _).trans (b.shares_run c)

/-- The answers to the commands on a key, among all those that a store is given. -/
def answersAt (key : Key) : Backend → List StoreCommand → List StoreReply
  | _, [] => []
  | b, c :: rest =>
    (if c.key = key then [⟨c, (b.run c).1⟩] else []) ++ (b.run c).2.answersAt key rest

/-- The answers under a key depend on nothing but what stands there at first. -/
theorem answersAt_congr (cs : List StoreCommand) (same : b.Shares = b'.Shares)
    (h : b.entry key = b'.entry key) : b.answersAt key cs = b'.answersAt key cs := by
  induction cs generalizing b b' with
  | nil => rfl
  | cons c rest ih =>
    have hshares : (b.run c).2.Shares = (b'.run c).2.Shares := by
      rw [shares_run, shares_run, same]
    by_cases hs : b.Shares c.key key
    · have hs' : b'.Shares c.key key := same ▸ hs
      obtain ⟨hanswer, hentry⟩ := run_congr (c := c) ((hs.entry.trans h).trans hs'.entry.symm)
      rw [Shares.entry (b := (b.run c).2) ((b.shares_run c).symm ▸ hs),
        Shares.entry (b := (b'.run c).2) ((b'.shares_run c).symm ▸ hs')] at hentry
      simp only [answersAt, hanswer, ih hshares hentry]
    · have hs' : ¬ b'.Shares c.key key := same ▸ hs
      have hentry : (b.run c).2.entry key = (b'.run c).2.entry key := by
        rw [entry_of_not_shares hs, entry_of_not_shares hs', h]
      have hne : c.key ≠ key := by
        rintro rfl
        exact hs (by cases b <;> rfl)
      simp only [answersAt, if_neg hne, ih hshares hentry]

/-! ## Keys that are apart -/

/-- Whether a command under one key, given to the store at any time, changes no answer to the
commands under the other that follow it. -/
def Isolates (b : Backend) (j k : Key) : Prop :=
  ∀ before c later, c.key = j →
    (b.after (before ++ [c])).answersAt k later = (b.after before).answersAt k later

theorem isolates_of_not_shares (h : ¬ b.Shares j k) : b.Isolates j k := by
  rintro before c later rfl
  rw [after_append]
  have hs : ¬ (b.after before).Shares c.key k := (b.shares_after before).symm ▸ h
  exact answersAt_congr later (shares_run _ c) (entry_of_not_shares hs)

theorem entry_deleted (b : Backend) (key : Key) :
    (b.run (.delete key)).2.entry key = .ok none := by
  cases b with
  | memory m => exact congrArg Except.ok ((Table.get?_erase _ _ _).trans (if_pos rfl))
  | packed p =>
    have gone : (p.table.erase key.text).get? key.text = none :=
      (Table.get?_erase _ _ _).trans (if_pos rfl)
    simp [run, PackedStore.run, entry, PackedStore.read, gone]

/-- An entry that is created under the one key is found under the other. -/
theorem not_isolates_of_shares (h : b.Shares j k) : ¬ b.Isolates j k := by
  intro isolates
  -- Whatever stands under the key is deleted first.
  have cleared : (b.after [.delete j]).entry j = .ok none := b.entry_deleted j
  have hs : (b.after [.delete j]).Shares j k := (b.shares_after _).symm ▸ h
  have hs' : (b.after [.delete j, .create j []]).Shares j k := (b.shares_after _).symm ▸ h
  have made : (b.after [.delete j, .create j []]).entry j = .ok (some ⟨0, []⟩) :=
    (run_act (c := .create j []) cleared).2
  have answers := isolates [.delete j] (.create j []) [.contains k] rfl
  have before := (run_act (c := .contains k) (hs.entry.symm.trans cleared)).1
  have later := (run_act (c := .contains k) (hs'.entry.symm.trans made)).1
  simp only [List.cons_append, List.nil_append, answersAt, StoreCommand.key, if_true, before,
    later] at answers
  cases answers

theorem isolates_iff (b : Backend) (j k : Key) : b.Isolates j k ↔ ¬ b.Shares j k :=
  ⟨fun isolates shares => not_isolates_of_shares shares isolates, isolates_of_not_shares⟩

/-- A store in memory keeps different keys apart; a packed store does so exactly if neither has in
its container what the other has in its name. -/
theorem keys_isolated (j k : Key) :
    (∀ m, (memory m).Isolates j k ↔ j ≠ k) ∧
      ∀ p, (packed p).Isolates j k ↔ j ≠ k ∧ ¬ j.Straddles k ∧ ¬ k.Straddles j := by
  refine ⟨fun m => (memory m).isolates_iff j k, fun p => ((packed p).isolates_iff j k).trans ?_⟩
  exact (not_congr Key.text_eq_iff).trans (by simp only [not_or])

/-- One container with a slash is enough for two keys to collide. -/
theorem straddling_keys_collide :
    let j : Key := ⟨"a", "b/c"⟩
    let k : Key := ⟨"a/b", "c"⟩
    j ≠ k ∧ ¬ (packed .empty).Isolates j k ∧
      ((packed .empty).run (.create k [2])).1 = .ok () ∧
      (((packed .empty).run (.create j [1])).2.run (.create k [2])).1 =
        .error (.alreadyExists "a/b/c") := by
  refine ⟨by decide, not_isolates_of_shares ?_, rfl, rfl⟩
  exact (by decide : Key.text ⟨"a", "b/c"⟩ = Key.text ⟨"a/b", "c"⟩)

/-- Where no container has a slash in it, every store keeps different keys apart. -/
theorem isolates_of_slash_notMem (b : Backend) (hne : j ≠ k) (hj : '/' ∉ j.container.toList)
    (hk : '/' ∉ k.container.toList) : b.Isolates j k := by
  refine isolates_of_not_shares ?_
  cases b with
  | memory m => exact hne
  | packed p =>
    intro shares
    rcases Key.text_eq_iff.1 shares with heq | h | h
    · exact hne heq
    · exact hj h.slash_mem
    · exact hk h.slash_mem

end Backend

end WorkflowEngine
