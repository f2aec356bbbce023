import WorkflowEngine.Job.Record
/-!
Pools of workers. Each evaluation goes to a worker with the fewest outstanding ones; of several
the first one counts, from a cursor on that moves with every placement.
-/
set_option autoImplicit false

namespace WorkflowEngine

/-- A worker with the number of evaluations placed on it and not yet settled. -/
structure Slot where
  worker : WorkerId
  load : Nat
  deriving DecidableEq

structure Pool where
  slots : List Slot
  cursor : Nat

namespace Pool

def ofWorkers (workers : List WorkerId) : Pool := ⟨workers.map fun worker => ⟨worker, 0⟩, 0⟩

def size (p : Pool) : Nat := p.slots.length

/-- The indices of all workers, in cyclic order from the cursor. -/
def order (p : Pool) : List Nat := (List.range p.size).map fun i => (p.cursor + i) % p.size

def loadAt (p : Pool) (i : Nat) : Nat :=
  match p.slots[i]? with
  | some slot => slot.load
  | none => 0

/-- The first index that no other one undercuts. -/
def firstLeast (load : Nat → Nat) : List Nat → Option Nat
  | [] => none
  | i :: rest =>
    match firstLeast load rest with
    | none => some i
    | some j => if load j < load i then some j else some i

theorem firstLeast_mem {load : Nat → Nat} {l : List Nat} {i : Nat}
    (h : firstLeast load l = some i) :
    i ∈ l := by
  induction l generalizing i with
  | nil => simp [firstLeast] at h
  | cons j rest ih =>
    unfold firstLeast at h
    split at h
    · simp_all
    · next k hk =>
      split at h
      · simp_all
      · simp_all

theorem firstLeast_cons (load : Nat → Nat) (i : Nat) (rest : List Nat) :
    ∃ j, firstLeast load (i :: rest) = some j := by
  unfold firstLeast
  split
  · exact ⟨i, rfl⟩
  · split
    · exact ⟨_, rfl⟩
    · exact ⟨i, rfl⟩

def modifyLoad (p : Pool) (i : Nat) (f : Nat → Nat) : Pool :=
  { p with slots := p.slots.modify i fun slot => { slot with load := f slot.load } }

/-- Chooses a worker and counts the evaluation on it. -/
def acquire (p : Pool) : Option (Nat × WorkerId × Pool) := do
  let i ← firstLeast p.loadAt p.order
  let slot ← p.slots[i]?
  return (i, slot.worker, { p.modifyLoad i (· + 1) with cursor := p.cursor + 1 })

/-- Ends an evaluation on the worker with an index. -/
def release (p : Pool) (i : Nat) : Pool := p.modifyLoad i (· - 1)

@[simp] theorem size_modifyLoad (p : Pool) (i : Nat) (f : Nat → Nat) :
    (p.modifyLoad i f).size = p.size := by
  simp [modifyLoad, size]

/-- A pool with workers has one for every evaluation. -/
theorem exists_acquire {p : Pool} (h : 0 < p.size) :
    ∃ i worker q, p.acquire = some (i, worker, q) ∧ i < p.size ∧ q.size = p.size := by
  obtain ⟨first, rest, ho⟩ : ∃ first rest, p.order = first :: rest := by
    cases ho : p.order with
    | nil =>
      simp [order] at ho
      omega
    | cons first rest => exact ⟨first, rest, rfl⟩
  obtain ⟨i, hi⟩ := firstLeast_cons p.loadAt first rest
  rw [← ho] at hi
  have hlt : i < p.size := by
    have hm := firstLeast_mem hi
    simp only [order, List.mem_map] at hm
    obtain ⟨k, -, rfl⟩ := hm
    exact Nat.mod_lt _ h
  refine ⟨i, p.slots[i].worker, { p.modifyLoad i (· + 1) with cursor := p.cursor + 1 }, ?_, hlt, ?_⟩
  · simp [acquire, hi, List.getElem?_eq_getElem hlt]
  · exact size_modifyLoad p i (· + 1)

/-- The load of the first worker with a name; nobody has placed anything on unknown ones. -/
def outstanding (p : Pool) (worker : WorkerId) : Nat :=
  match p.slots.find? (·.worker = worker) with
  | some slot => slot.load
  | none => 0

end Pool

end WorkflowEngine
