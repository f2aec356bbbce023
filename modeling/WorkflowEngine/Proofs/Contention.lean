import Mathlib
import WorkflowEngine.Proofs.AtomCommits
import WorkflowEngine.Proofs.OneWriter
/-!
Clients that contend for one atom, with all that happens to the store meanwhile. Nothing is assumed
of what is written or of how often: anybody may ask anything of the store between two requests of a
call.
-/
set_option autoImplicit false

namespace WorkflowEngine

/-- Whether a command that was answered has written data. -/
def StoreCommand.wrote : (c : StoreCommand) → Except StoreError c.Answer → Bool
  | .create _ _, answer => answer.isOk
  | .overwrite _ _, answer => answer.isOk
  | .compareAndSwap _ _ _, answer => Option.getD (α := Bool) answer.toOption false
  | .get _, _ => false
  | .getVersioned _, _ => false
  | .contains _, _ => false
  | .delete _, _ => false

namespace StoreCommand

variable {c : StoreCommand} {held : Option Entry} {e : Entry}

theorem eq_of_not_wrote (h : c.wrote (c.act held).1 = false) (after : (c.act held).2 = some e) :
    held = some e := by
  cases held with
  | none =>
    cases c with
    | create => cases h
    | overwrite | get | getVersioned | compareAndSwap | contains | delete => cases after
  | some e' =>
    cases c with
    | create | get | getVersioned | contains => exact after
    | overwrite => cases h
    | compareAndSwap key expected data =>
      by_cases hv : e'.version = expected
      · simp only [act, if_pos hv, wrote, Except.toOption] at h
        cases h
      · simpa [act, hv] using after
    | delete => cases after

theorem act_ne_exhausted (c : StoreCommand) (held : Option Entry) (place : String) (n : Nat) :
    (c.act held).1 ≠ .error (.exhausted place n) := by
  cases held with
  | none => cases c <;> simp [act]
  | some e =>
    cases c with
    | compareAndSwap key expected data =>
      by_cases hv : e.version = expected <;> simp [act, hv]
    | _ => simp [act]

end StoreCommand

namespace Backend

variable {b : Backend} {c : StoreCommand} {key : Key} {e : Entry}

/-- Whether two keys lead to one entry. A packed store tells keys apart by their texts only. -/
def same : Backend → Key → Key → Bool
  | .memory _, k, k' => decide (k = k')
  | .packed _, k, k' => decide (k.text = k'.text)

theorem same_run (b : Backend) (c : StoreCommand) : (b.run c).2.same = b.same := by
  cases b <;> rfl

theorem same_self (b : Backend) (key : Key) : b.same key key = true := by
  cases b <;> simp [same]

theorem entry_run_of_not_same (h : b.same c.key key = false) :
    (b.run c).2.entry key = b.entry key := by
  cases b with
  | memory m => exact congrArg Except.ok (m.get?_run_of_ne (by simpa [same] using h))
  | packed p => exact p.read_run_of_ne (by simpa [same] using h)

theorem entry_of_same {k : Key} (h : b.same k key = true) : b.entry k = b.entry key := by
  cases b with
  | memory m =>
    obtain rfl : k = key := by simpa [same] using h
    rfl
  | packed p =>
    have text : k.text = key.text := by simpa [same] using h
    exact congrArg p.read text

theorem entry_run_delete (b : Backend) (key : Key) :
    (b.run (.delete key)).2.entry key = .ok none := by
  cases b with
  | memory m => simp [run, MemoryStore.run, entry]
  | packed p => simp [run, PackedStore.run, entry, PackedStore.read]

theorem run_getVersioned (b : Backend) (key : Key) :
    (b.run (.getVersioned key)).1 = b.entry key := by
  cases b <;> rfl

/-- Bytes that are no entry are all that goes wrong in a store. -/
theorem exists_reason {err : StoreError} (h : b.entry key = .error err) :
    ∃ reason, err = .backend reason := by
  cases b with
  | memory m => cases h
  | packed p =>
    simp only [entry, PackedStore.read] at h
    cases hraw : p.table.get? key.text with
    | none => simp [hraw] at h
    | some raw =>
      simp only [hraw, Entry.unpack] at h
      split at h
      · exact ⟨_, by simpa [Except.map] using h.symm⟩
      · cases h

/-- What cannot be read can only be deleted. -/
theorem run_of_error {err : StoreError} (h : b.entry c.key = .error err) :
    (∃ key, c = .delete key) ∨ (b.run c = (.error err, b)) := by
  cases b with
  | memory m => cases h
  | packed p =>
    have read : p.read c.key.text = .error err := h
    cases c with
    | delete key => exact .inl ⟨key, rfl⟩
    | getVersioned key => exact .inr (congrArg (·, packed p) read)
    | _ =>
      simp only [StoreCommand.key] at read
      exact .inr (by simp [run, PackedStore.run, read, Except.map])

/-- An entry that stands there after a command that has not written stood there before. -/
theorem entry_of_not_wrote (h : (b.same c.key key && c.wrote (b.run c).1) = false)
    (after : (b.run c).2.entry key = .ok (some e)) : b.entry key = .ok (some e) := by
  cases same : b.same c.key key with
  | false => exact (entry_run_of_not_same same).symm.trans after
  | true =>
    have quiet : c.wrote (b.run c).1 = false := by simpa [same] using h
    have same' : (b.run c).2.same c.key key = true := (congrFun₂ (same_run b c) _ _).trans same
    rw [← entry_of_same same'] at after
    rw [← entry_of_same same]
    cases hentry : b.entry c.key with
    | ok held =>
      obtain ⟨hanswer, hafter⟩ := run_act hentry
      rw [hanswer] at quiet
      rw [hafter] at after
      exact congrArg Except.ok (StoreCommand.eq_of_not_wrote quiet (Except.ok.inj after))
    | error err =>
      rcases run_of_error hentry with ⟨k, rfl⟩ | hrun
      · rw [StoreCommand.key, entry_run_delete] at after
        cases after
      · rw [hrun, hentry] at after
        cases after

/-- A swap fails only against an entry with another version. -/
theorem exists_newer {expected : UInt64} {data : Bytes}
    (h : (b.run (.compareAndSwap key expected data)).1 = .ok false) :
    ∃ e, b.entry key = .ok (some e) ∧ e.version ≠ expected := by
  cases hentry : b.entry key with
  | ok held =>
    have hanswer := (run_act (c := .compareAndSwap key expected data) hentry).1.symm.trans h
    cases held with
    | none => cases hanswer
    | some e =>
      refine ⟨e, rfl, fun hv => ?_⟩
      rw [StoreCommand.act, if_pos hv] at hanswer
      cases hanswer
  | error err =>
    rcases run_of_error (c := .compareAndSwap key expected data) hentry with ⟨k, hk⟩ | hrun
    · cases hk
    · rw [hrun] at h
      cases h

/-- The store never says that attempts are used up. -/
theorem run_ne_exhausted (b : Backend) (c : StoreCommand) (place : String) (n : Nat) :
    (b.run c).1 ≠ .error (.exhausted place n) := by
  cases hentry : b.entry c.key with
  | ok held =>
    rw [(run_act hentry).1]
    exact c.act_ne_exhausted held place n
  | error err =>
    obtain ⟨reason, rfl⟩ := exists_reason hentry
    rcases run_of_error hentry with ⟨k, rfl⟩ | hrun
    · cases b <;> nofun
    · rw [hrun]
      nofun

end Backend

namespace Atom

/-- What happens while clients use an atom: calls and their answers, the requests of calls with the
answers of the store, pauses, and what others ask of the store. -/
inductive Event where
  | called (i : Nat) (s : DataSettings) (call : Call)
  | asked (i : Nat) (c : StoreCommand) (answer : Except StoreError c.Answer)
  | paused (i : Nat) (micros : Nat)
  | answered (i : Nat) (answer : Answer)
  | other (c : StoreCommand) (answer : Except StoreError c.Answer)

namespace Event

def isBy (i : Nat) : Event → Bool
  | .called j _ _ => decide (j = i)
  | .asked j _ _ => decide (j = i)
  | .paused j _ => decide (j = i)
  | .answered j _ => decide (j = i)
  | .other _ _ => false

/-- Whether something was written under a key. -/
def wrote (b : Backend) (key : Key) : Event → Bool
  | .asked _ c answer => b.same c.key key && c.wrote answer
  | .other c answer => b.same c.key key && c.wrote answer
  | _ => false

/-- What becomes of the store. -/
def effect (b : Backend) : Event → Backend
  | .asked _ c _ => (b.run c).2
  | .other c _ => (b.run c).2
  | _ => b

/-- Whether others than a call wrote something. -/
def isRival (b : Backend) (key : Key) (i : Nat) (ev : Event) : Bool := !ev.isBy i && ev.wrote b key

theorem not_isBy_of_ne (ev : Event) {i j : Nat} (h : ev.isBy i = true) (hne : j ≠ i) :
    ev.isBy j = false := by
  cases ev with
  | other => rfl
  | called | asked | paused | answered =>
    rw [isBy, decide_eq_true_eq] at h
    simp [isBy, h, hne.symm]

theorem same_effect (b : Backend) (ev : Event) : (ev.effect b).same = b.same := by
  cases ev with
  | asked i c => exact b.same_run c
  | other c => exact b.same_run c
  | called | paused | answered => rfl

end Event

/-- The store after a number of events. -/
def backendAfter (b : Backend) (log : List Event) : Backend :=
  log.foldl (fun b ev => ev.effect b) b

/-- Calls under way by their numbers, and what has happened so far. -/
structure Contest where
  backend : Backend
  running : Nat → Option (Program Answer)
  log : List Event

namespace Contest

/-- What may happen next, and what is under way then. -/
inductive Moves (element : Decoder Value) (a : Atom) (r : Contest) :
    Event → (Nat → Option (Program Answer)) → Prop
  | call {i : Nat} (s : DataSettings) (call : Call) (new : ∀ s c, .called i s c ∉ r.log) :
      Moves element a r (.called i s call)
        (Function.update r.running i (some (call.program element s a)))
  | ask {i : Nat} {c : StoreCommand} {next : (Request.store c).Answer → Program Answer}
      (asks : r.running i = some (.ask (.store c) next)) :
      Moves element a r (.asked i c (r.backend.run c).1)
        (Function.update r.running i (some (next (r.backend.run c).1)))
  | pause {i micros : Nat} {next : (Request.pause micros).Answer → Program Answer}
      (asks : r.running i = some (.ask (.pause micros) next)) :
      Moves element a r (.paused i micros) (Function.update r.running i (some (next ())))
  | answer {i : Nat} {answer : Answer} (done : r.running i = some (.done answer)) :
      Moves element a r (.answered i answer) (Function.update r.running i none)
  | other (c : StoreCommand) : Moves element a r (.other c (r.backend.run c).1) r.running

/-- What comes of a store as it was at first. -/
inductive Run (element : Decoder Value) (a : Atom) (b : Backend) : Contest → Prop
  | start : Run element a b ⟨b, fun _ => none, []⟩
  | step {r : Contest} {ev : Event} {running : Nat → Option (Program Answer)}
      (run : Run element a b r) (moves : r.Moves element a ev running) :
      Run element a b ⟨ev.effect r.backend, running, r.log ++ [ev]⟩

variable {element : Decoder Value} {a : Atom} {b : Backend} {r : Contest} {ev : Event}

/-- What happened last and what happened before. -/
theorem append_singleton_eq {α : Type} {x y : α} {l before after : List α}
    (h : l ++ [x] = before ++ y :: after) :
    (l = before ∧ x = y ∧ after = []) ∨
      ∃ later, after = later ++ [x] ∧ l = before ++ y :: later := by
  rcases List.eq_nil_or_concat after with rfl | ⟨later, z, rfl⟩
  · obtain ⟨rfl, hx⟩ := List.append_inj' h rfl
    exact .inl ⟨rfl, by simpa using hx, rfl⟩
  · rw [List.concat_eq_append, ← List.cons_append, ← List.append_assoc] at h
    obtain ⟨hl, hx⟩ := List.append_inj' h rfl
    obtain rfl : x = z := by simpa using hx
    exact .inr ⟨later, List.concat_eq_append, hl⟩

namespace Run

theorem backend_eq (run : Run element a b r) : r.backend = backendAfter b r.log := by
  induction run with
  | start => rfl
  | step run moves ih =>
    rw [backendAfter, List.foldl_append, List.foldl_cons, List.foldl_nil, ih]
    rfl

theorem same_eq (run : Run element a b r) : r.backend.same = b.same := by
  induction run with
  | start => rfl
  | step run moves ih => exact (Event.same_effect _ _).trans ih

/-- Each event was a step from what had come of the store then. -/
theorem at_event (run : Run element a b r) {before after : List Event}
    (hlog : r.log = before ++ ev :: after) :
    ∃ r' running, Run element a b r' ∧ r'.log = before ∧ r'.Moves element a ev running := by
  induction run generalizing after with
  | start => simp at hlog
  | step run moves ih =>
    rcases append_singleton_eq hlog with ⟨rfl, rfl, -⟩ | ⟨later, -, hlog⟩
    · exact ⟨_, _, run, rfl, moves⟩
    · exact ih hlog

end Run

end Contest

end Atom

end WorkflowEngine
