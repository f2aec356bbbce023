import WorkflowEngine.Proofs.Entries
import WorkflowEngine.Store.File
/-!
The two kinds of store side by side. One holds entries under keys, the other packed bytes under
texts; as long as no two keys have one text, nobody can tell them apart by what they answer, nor
whether the second one is closed and opened again in between.
-/
set_option autoImplicit false

namespace WorkflowEngine

/-- What happens to a store: a command, or it is closed and opened again. -/
inductive StoreEvent where
  | command (c : StoreCommand)
  | reopen

def StoreEvent.command? : StoreEvent → Option StoreCommand
  | .command c => some c
  | .reopen => none

/-- A command with what it was answered. -/
structure StoreReply where
  command : StoreCommand
  answer : Except StoreError command.Answer

/-- A store in memory is never closed. -/
def MemoryStore.replies : MemoryStore → List StoreEvent → List StoreReply
  | _, [] => []
  | m, .command c :: rest => ⟨c, (m.run c).1⟩ :: (m.run c).2.replies rest
  | m, .reopen :: rest => m.replies rest

def PackedStore.replies : PackedStore → List StoreEvent → List StoreReply
  | _, [] => []
  | p, .command c :: rest => ⟨c, (p.run c).1⟩ :: (p.run c).2.replies rest
  | p, .reopen :: rest => p.save.load.replies rest

/-- Whether two stores hold the same entries under some keys. -/
def MemoryStore.Agrees (keys : Key → Prop) (m : MemoryStore) (p : PackedStore) : Prop :=
  ∀ key, keys key → p.read key.text = .ok (m.table.get? key)

namespace MemoryStore.Agrees

variable {keys : Key → Prop} {m : MemoryStore} {p : PackedStore} {c : StoreCommand}

theorem empty (keys : Key → Prop) : Agrees keys .empty StoreFile.blank.load := fun _ _ => rfl

theorem answer (h : Agrees keys m p) (hc : keys c.key) : (p.run c).1 = (m.run c).1 :=
  (PackedStore.run_act (h c.key hc)).1.trans (m.run_act c).1.symm

/-- A command changes the entry of its key in both stores alike, and no other entry. -/
theorem run (h : Agrees keys m p) (hc : keys c.key)
    (distinct : ∀ key, keys key → c.key.text = key.text → c.key = key) :
    Agrees keys (m.run c).2 (p.run c).2 := by
  intro key hkey
  by_cases htext : c.key.text = key.text
  · obtain rfl := distinct key hkey htext
    rw [(PackedStore.run_act (h c.key hc)).2, (m.run_act c).2]
  · have hne : c.key ≠ key := fun heq => htext (congrArg Key.text heq)
    rw [p.read_run_of_ne htext, m.get?_run_of_ne hne]
    exact h key hkey

theorem replies {events : List StoreEvent} (h : Agrees keys m p)
    (mem : ∀ c ∈ events.filterMap StoreEvent.command?, keys c.key)
    (distinct : ∀ k l, keys k → keys l → k.text = l.text → k = l) :
    p.replies events = m.replies events := by
  induction events generalizing m p with
  | nil => rfl
  | cons event rest ih =>
    cases event with
    | command c =>
      have hc : keys c.key := mem c List.mem_cons_self
      have hrest : ∀ d ∈ rest.filterMap StoreEvent.command?, keys d.key := fun d hd =>
        mem d (List.mem_cons_of_mem c hd)
      simp only [PackedStore.replies, MemoryStore.replies, h.answer hc,
        ih (h.run hc fun key hkey => distinct _ _ hc hkey) hrest]
    | reopen => exact ih h mem

end MemoryStore.Agrees

/-- Only the commands count: where a store is closed and opened again makes no difference. -/
theorem PackedStore.replies_congr {events events' : List StoreEvent}
    (same : events.filterMap StoreEvent.command? = events'.filterMap StoreEvent.command?)
    (p : PackedStore) : p.replies events = p.replies events' := by
  have commands : ∀ (events : List StoreEvent) (p : PackedStore), p.replies events =
      p.replies ((events.filterMap StoreEvent.command?).map .command) := by
    intro events
    induction events with
    | nil => exact fun _ => rfl
    | cons event rest ih =>
      intro p
      cases event with
      | command c => exact congrArg (List.cons _) (ih _)
      | reopen => exact ih p
  rw [commands events, commands events', same]

/-- Stores of both kinds that start empty give the same answers to the same commands on keys that
have texts of their own, and reopening the packed one is not noticed. -/
theorem replies_agree {events : List StoreEvent}
    (distinct : ∀ c ∈ events.filterMap StoreEvent.command?,
      ∀ d ∈ events.filterMap StoreEvent.command?, c.key.text = d.key.text → c.key = d.key) :
    StoreFile.blank.load.replies events = MemoryStore.empty.replies events ∧
      ∀ events', events'.filterMap StoreEvent.command? = events.filterMap StoreEvent.command? →
        StoreFile.blank.load.replies events' = StoreFile.blank.load.replies events := by
  refine ⟨?_, fun events' same => PackedStore.replies_congr same _⟩
  refine (MemoryStore.Agrees.empty fun key =>
    ∃ c ∈ events.filterMap StoreEvent.command?, c.key = key).replies (fun c hc => ⟨c, hc, rfl⟩) ?_
  rintro _ _ ⟨c, hc, rfl⟩ ⟨d, hd, rfl⟩
  exact distinct c hc d hd

/-- An entry is written, swapped, deleted and made anew while the store is reopened, and another
one is left alone. -/
theorem replies_agree_recreated :
    let k : Key := ⟨"data", "a/b"⟩
    let l : Key := ⟨"data", "c"⟩
    let events : List StoreEvent :=
      [.command (.create k [1]), .command (.create l []), .reopen, .command (.overwrite k [2]),
        .command (.compareAndSwap k 0 [3]), .command (.compareAndSwap k 1 [3]), .reopen,
        .command (.delete k), .command (.overwrite k [4]), .command (.create k [5]),
        .command (.create k [6]), .reopen, .command (.getVersioned k), .command (.get l),
        .command (.contains l), .command (.delete l), .command (.get l)]
    (∀ c ∈ events.filterMap StoreEvent.command?,
      ∀ d ∈ events.filterMap StoreEvent.command?, c.key.text = d.key.text → c.key = d.key) ∧
      StoreFile.blank.load.replies events = MemoryStore.empty.replies events := by
  intro k l events
  have distinct : ∀ c ∈ events.filterMap StoreEvent.command?,
      ∀ d ∈ events.filterMap StoreEvent.command?, c.key.text = d.key.text → c.key = d.key := by
    decide
  exact ⟨distinct, (replies_agree distinct).1⟩

end WorkflowEngine
