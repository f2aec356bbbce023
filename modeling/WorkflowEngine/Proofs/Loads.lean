import Mathlib
import WorkflowEngine.Dispatch.Dispatcher
/-!
Loads of the workers of a dispatcher, while evaluations are placed and slots are given back in any
order. A load counts the placements whose slot nobody has given back.
-/
set_option autoImplicit false

namespace WorkflowEngine

namespace Pool

variable {p q : Pool} {i j : Nat} {worker : WorkerId}

/-- The choice of a worker: none has a smaller load, and all that come before it in cyclic order
from the cursor have a larger one. -/
structure Chooses (p : Pool) (i offset : Nat) : Prop where
  offset_lt : offset < p.size
  index : i = (p.cursor + offset) % p.size
  least : ∀ j < p.size, p.loadAt i ≤ p.loadAt j
  first : ∀ k < offset, p.loadAt i < p.loadAt ((p.cursor + k) % p.size)

theorem least_of_split {load : Nat → Nat} {before rest : List Nat}
    (earlier : ∀ j ∈ before, load i < load j) (later : ∀ j ∈ rest, load i ≤ load j) :
    ∀ j ∈ before ++ i :: rest, load i ≤ load j := by
  intro j hj
  rcases List.mem_append.1 hj with hj | hj
  · exact (earlier j hj).le
  · rcases List.mem_cons.1 hj with rfl | hj
    · exact Nat.le_refl _
    · exact later j hj

theorem firstLeast_eq_some {load : Nat → Nat} {l : List Nat} (h : firstLeast load l = some i) :
    ∃ before rest, l = before ++ i :: rest ∧ (∀ j ∈ before, load i < load j) ∧
      ∀ j ∈ rest, load i ≤ load j := by
  induction l generalizing i with
  | nil => simp [firstLeast] at h
  | cons a l ih =>
    unfold firstLeast at h
    cases hl : firstLeast load l with
    | none =>
      have empty : l = [] := by
        cases l with
        | nil => rfl
        | cons b l =>
          obtain ⟨j, hj⟩ := firstLeast_cons load b l
          simp [hj] at hl
      simp only [hl, Option.some.injEq] at h
      subst h empty
      exact ⟨[], [], rfl, by simp, by simp⟩
    | some k =>
      obtain ⟨before, rest, rfl, hb, hr⟩ := ih hl
      simp only [hl] at h
      split at h
      · next less =>
        obtain rfl := Option.some.inj h
        refine ⟨a :: before, rest, rfl, ?_, hr⟩
        intro j hj
        rcases List.mem_cons.1 hj with rfl | hj
        · exact less
        · exact hb j hj
      · next notLess =>
        obtain rfl := Option.some.inj h
        refine ⟨[], before ++ k :: rest, rfl, by simp, ?_⟩
        have least : ∀ j ∈ before ++ k :: rest, load k ≤ load j := least_of_split hb hr
        intro j hj
        have := least j hj
        omega

theorem mem_order (h : i < p.size) : i ∈ p.order := by
  have positive : 0 < p.size := by omega
  have cursor := Nat.mod_lt p.cursor positive
  have split := Nat.div_add_mod p.cursor p.size
  have round : p.cursor + (i + (p.size - p.cursor % p.size)) =
      i + p.size * (p.cursor / p.size + 1) := by
    rw [Nat.mul_succ]
    omega
  refine List.mem_map.2 ⟨(i + (p.size - p.cursor % p.size)) % p.size, ?_, ?_⟩
  · exact List.mem_range.2 (Nat.mod_lt _ positive)
  · rw [Nat.add_mod_mod, round, Nat.add_mul_mod_self_left, Nat.mod_eq_of_lt h]

theorem chooses_of_firstLeast (h : firstLeast p.loadAt p.order = some i) :
    ∃ offset, p.Chooses i offset := by
  obtain ⟨before, rest, split, earlier, later⟩ := firstLeast_eq_some h
  have listed : ∀ k, (before ++ i :: rest)[k]? =
      if k < p.size then some ((p.cursor + k) % p.size) else none := by
    intro k
    rw [← split]
    by_cases hk : k < p.size
    · simp [order, hk]
    · simp [order, hk]
  refine ⟨before.length, ?_, ?_, ?_, ?_⟩
  · by_contra out
    have here := listed before.length
    simp [out] at here
  · have here := listed before.length
    simp only [List.getElem?_append_right (Nat.le_refl _),
      Nat.sub_self, List.getElem?_cons_zero] at here
    split at here
    · exact Option.some.inj here
    · cases here
  · intro j hj
    exact least_of_split earlier later j (split ▸ mem_order hj)
  · intro k hk
    have here := listed k
    rw [List.getElem?_append_left hk] at here
    split at here
    · exact earlier _ (List.mem_of_getElem? here)
    · exact absurd (List.getElem?_eq_none_iff.1 here) (by omega)

theorem acquire_eq_some (h : p.acquire = some (i, worker, q)) :
    (∃ offset, p.Chooses i offset) ∧ (p.slots.map Slot.worker)[i]? = some worker ∧
      q = { p.modifyLoad i (· + 1) with cursor := p.cursor + 1 } := by
  simp only [acquire, Option.bind_eq_bind, Option.bind_eq_some_iff] at h
  obtain ⟨k, least, slot, named, same⟩ := h
  cases same
  exact ⟨chooses_of_firstLeast least, by simp [named], rfl⟩

theorem loadAt_modifyLoad {f : Nat → Nat} (h : i < p.size) :
    (p.modifyLoad i f).loadAt j = if j = i then f (p.loadAt i) else p.loadAt j := by
  have some : p.slots[i]? = .some p.slots[i] := List.getElem?_eq_getElem h
  by_cases same : j = i
  · subst same
    simp [loadAt, modifyLoad, some]
  · have other : ¬ i = j := fun h => same h.symm
    simp only [loadAt, modifyLoad, List.getElem?_modify, other, same, if_false]
    cases p.slots[j]? with
    | none => rfl
    | some slot => rfl

@[simp] theorem map_worker_modifyLoad (p : Pool) (i : Nat) (f : Nat → Nat) :
    (p.modifyLoad i f).slots.map Slot.worker = p.slots.map Slot.worker := by
  refine List.ext_getElem? fun j => ?_
  simp only [modifyLoad, List.getElem?_map, List.getElem?_modify]
  cases p.slots[j]? with
  | none => rfl
  | some slot => split <;> rfl

theorem Chooses.slot_lt {offset : Nat} (h : p.Chooses i offset) : i < p.size := by
  rw [h.index]
  exact Nat.mod_lt _ (Nat.lt_of_le_of_lt (Nat.zero_le _) h.offset_lt)

theorem find_worker (slots : List Slot) (worker : WorkerId) :
    slots.find? (·.worker = worker) = slots[(slots.map Slot.worker).idxOf worker]? := by
  induction slots with
  | nil => rfl
  | cons slot slots ih =>
    by_cases same : slot.worker = worker
    · simp [same]
    · simp [same, ih]

theorem outstanding_eq (p : Pool) (worker : WorkerId) :
    p.outstanding worker = p.loadAt ((p.slots.map Slot.worker).idxOf worker) := by
  simp only [outstanding, find_worker, loadAt]

@[simp] theorem map_worker_release (p : Pool) (i : Nat) :
    (p.release i).slots.map Slot.worker = p.slots.map Slot.worker :=
  p.map_worker_modifyLoad i _

end Pool

/-- What happens to the loads of a dispatcher: an evaluation is placed, or a placement gives its
slot back, because it settles or because nobody waits for it any more. -/
inductive Passage where
  | start (id : EvaluationId) (job : JobId) (parent : Option EvaluationId) (now : Timestamp)
  | settle (n : Nat) (id : EvaluationId) (response : Response) (now : Timestamp)
  | abandon (n : Nat)

def Passage.isStart : Passage → Bool
  | .start .. => true
  | .settle .. | .abandon _ => false

/-- A dispatcher with its placements in their order, and the numbers of those that have their slots
still. -/
structure Traffic where
  dispatcher : Dispatcher
  placements : List Placement
  held : Finset Nat

namespace Traffic

def initial (workers : List WorkerId) : Traffic := ⟨.ofWorkers workers, [], ∅⟩

/-- A placement gives its slot back. -/
def giveBack (t : Traffic) (n : Nat) (free : Placement → Dispatcher) : Option Traffic :=
  if n ∈ t.held then t.placements[n]?.map fun p => ⟨free p, t.placements, t.held.erase n⟩ else none

def after (t : Traffic) : Passage → Option Traffic
  | .start id job parent now => (t.dispatcher.place id job parent now).map fun placed =>
      ⟨placed.2, t.placements ++ [placed.1], insert t.placements.length t.held⟩
  | .settle n id response now =>
    t.giveBack n fun p => (t.dispatcher.settle id p response now).2
  | .abandon n =>
    t.giveBack n fun p => { t.dispatcher with pool := t.dispatcher.pool.release p.slot }

/-- One state follows another by passages that are permitted where they happen. -/
inductive Run (P : Traffic → Passage → Prop) : Traffic → Traffic → Prop
  | refl (t : Traffic) : Run P t t
  | step {a b c : Traffic} {ev : Passage} (run : Run P a b) (may : P b ev)
      (next : b.after ev = some c) : Run P a c

/-- The state after passages one after the other. -/
def replay (t : Traffic) : List Passage → Option Traffic
  | [] => some t
  | ev :: rest => (t.after ev).bind fun next => next.replay rest

theorem Run.replay {a b c : Traffic} {evs : List Passage} (run : Run (fun _ _ => True) a b)
    (h : b.replay evs = some c) : Run (fun _ _ => True) a c := by
  induction evs generalizing b with
  | nil =>
    cases h
    exact run
  | cons ev rest ih =>
    obtain ⟨next, hev, hrest⟩ := Option.bind_eq_some_iff.1 h
    exact ih (.step run trivial hev) hrest

/-- The placements on the worker with an index that have their slots still. -/
def heldAt (t : Traffic) (i : Nat) : Finset Nat :=
  t.held.filter fun n => t.placements[n]?.map Placement.slot = some i

/-- An evaluation is placed on the worker that its pool chooses. -/
structure Starts (t : Traffic) (p : Placement) (t' : Traffic) : Prop where
  chosen : ∃ offset, t.dispatcher.pool.Chooses p.slot offset
  worker : (t.dispatcher.pool.slots.map Slot.worker)[p.slot]? = some p.worker
  pool : t'.dispatcher.pool = { t.dispatcher.pool.modifyLoad p.slot (· + 1) with
    cursor := t.dispatcher.pool.cursor + 1 }
  placements : t'.placements = t.placements ++ [p]
  held : t'.held = insert t.placements.length t.held

/-- A placement gives its slot back. -/
structure Frees (t : Traffic) (n : Nat) (p : Placement) (t' : Traffic) : Prop where
  holds : n ∈ t.held
  number : t.placements[n]? = some p
  pool : t'.dispatcher.pool = t.dispatcher.pool.release p.slot
  placements : t'.placements = t.placements
  held : t'.held = t.held.erase n

variable {t t' : Traffic} {n : Nat} {p : Placement} {workers : List WorkerId}

theorem giveBack_eq_some {free : Placement → Dispatcher}
    (pool : ∀ p, (free p).pool = t.dispatcher.pool.release p.slot)
    (h : t.giveBack n free = some t') : ∃ p, t.Frees n p t' := by
  unfold giveBack at h
  split at h
  · next holds =>
    obtain ⟨p, number, rfl⟩ := Option.map_eq_some_iff.1 h
    exact ⟨p, holds, number, pool p, rfl, rfl⟩
  · cases h

theorem after_cases {ev : Passage} (h : t.after ev = some t') :
    (ev.isStart = true ∧ ∃ p, t.Starts p t') ∨ (ev.isStart = false ∧ ∃ n p, t.Frees n p t') := by
  cases ev with
  | start id job parent now =>
    refine .inl ⟨rfl, ?_⟩
    obtain ⟨⟨p, d⟩, placed, rfl⟩ := Option.map_eq_some_iff.1 h
    unfold Dispatcher.place at placed
    split at placed
    · cases placed
    · next slot worker pool acquired =>
      cases placed
      obtain ⟨chosen, named, rfl⟩ := Pool.acquire_eq_some acquired
      exact ⟨⟨slot, worker⟩, chosen, named, rfl, rfl, rfl⟩
  | settle n id response now =>
    obtain ⟨p, frees⟩ := giveBack_eq_some (fun _ => rfl) h
    exact .inr ⟨rfl, n, p, frees⟩
  | abandon n =>
    obtain ⟨p, frees⟩ := giveBack_eq_some (fun _ => rfl) h
    exact .inr ⟨rfl, n, p, frees⟩

/-- What holds of the loads all the time. -/
structure Counted (workers : List WorkerId) (t : Traffic) : Prop where
  slots : t.dispatcher.pool.slots.map Slot.worker = workers
  cursor : t.dispatcher.pool.cursor = t.placements.length
  known : ∀ n ∈ t.held, n < t.placements.length
  placed : ∀ p ∈ t.placements, workers[p.slot]? = some p.worker
  load : ∀ i, t.dispatcher.pool.loadAt i = (t.heldAt i).card

namespace Counted

theorem size (h : Counted workers t) : t.dispatcher.pool.size = workers.length := by
  rw [← h.slots, List.length_map]
  rfl

theorem slot_lt (h : Counted workers t) (mem : p ∈ t.placements) : p.slot < workers.length := by
  have some := h.placed p mem
  by_contra out
  simp [List.getElem?_eq_none (Nat.le_of_not_lt out)] at some

theorem initial (workers : List WorkerId) : Counted workers (.initial workers) where
  slots := by
    simp [Traffic.initial, Dispatcher.ofWorkers, Pool.ofWorkers, Function.comp_def]
  cursor := rfl
  known := by simp [Traffic.initial]
  placed := by simp [Traffic.initial]
  load i := by
    have none : (Traffic.initial workers).heldAt i = ∅ := Finset.filter_empty _
    rw [none]
    simp only [Traffic.initial, Dispatcher.ofWorkers, Pool.ofWorkers, Pool.loadAt,
      List.getElem?_map]
    cases workers[i]? with
    | none => rfl
    | some worker => rfl

theorem heldAt_starts (h : Counted workers t) (starts : t.Starts p t') (i : Nat) :
    t'.heldAt i =
      if i = p.slot then insert t.placements.length (t.heldAt i) else t.heldAt i := by
  have before : (t.held.filter fun n => (t.placements ++ [p])[n]?.map Placement.slot = some i) =
      t.heldAt i := by
    refine Finset.filter_congr fun n hn => ?_
    rw [List.getElem?_append_left (h.known n hn)]
  unfold heldAt at before ⊢
  rw [starts.held, starts.placements, Finset.filter_insert, before]
  simp [eq_comm]

theorem starts (h : Counted workers t) (starts : t.Starts p t') : Counted workers t' where
  slots := by
    rw [starts.pool, Pool.map_worker_modifyLoad]
    exact h.slots
  cursor := by
    rw [starts.pool, starts.placements, List.length_append, h.cursor]
    rfl
  known n hn := by
    rw [starts.placements, List.length_append, List.length_singleton]
    rcases Finset.mem_insert.1 (starts.held ▸ hn) with rfl | hn
    · omega
    · have := h.known n hn
      omega
  placed q hq := by
    rw [starts.placements] at hq
    rcases List.mem_append.1 hq with hq | hq
    · exact h.placed q hq
    · obtain rfl := List.mem_singleton.1 hq
      exact h.slots ▸ starts.worker
  load i := by
    obtain ⟨offset, chosen⟩ := starts.chosen
    have fresh : t.placements.length ∉ t.heldAt i := fun mem =>
      absurd (h.known _ (Finset.mem_filter.1 mem).1) (Nat.lt_irrefl _)
    have loads := Pool.loadAt_modifyLoad (f := (· + 1)) (j := i) chosen.slot_lt
    rw [h.heldAt_starts starts, starts.pool]
    refine loads.trans ?_
    split
    · next same =>
      rw [Finset.card_insert_of_notMem fresh, ← h.load i, same]
    · exact h.load i

theorem heldAt_frees (frees : t.Frees n p t') (i : Nat) :
    t'.heldAt i = (t.heldAt i).erase n := by
  unfold heldAt
  rw [frees.held, frees.placements]
  exact Finset.filter_erase _ _ _

theorem mem_heldAt (frees : t.Frees n p t') {i : Nat} : n ∈ t.heldAt i ↔ i = p.slot := by
  simp [heldAt, frees.holds, frees.number, eq_comm]

theorem frees (h : Counted workers t) (frees : t.Frees n p t') : Counted workers t' where
  slots := by
    rw [frees.pool, Pool.map_worker_release]
    exact h.slots
  cursor := by
    rw [frees.pool, frees.placements]
    exact h.cursor
  known m hm := by
    rw [frees.placements]
    exact h.known m (Finset.mem_of_mem_erase (frees.held ▸ hm))
  placed q hq := h.placed q (frees.placements ▸ hq)
  load i := by
    have inside : p.slot < t.dispatcher.pool.size := by
      rw [h.size]
      exact h.slot_lt (List.mem_of_getElem? frees.number)
    have loads := Pool.loadAt_modifyLoad (f := (· - 1)) (j := i) inside
    rw [heldAt_frees frees, frees.pool]
    refine loads.trans ?_
    split
    · next same =>
      rw [Finset.card_erase_of_mem ((mem_heldAt frees).2 same), ← h.load i, same]
    · next other =>
      rw [Finset.erase_eq_of_notMem fun mem => other ((mem_heldAt frees).1 mem)]
      exact h.load i

theorem step {ev : Passage} (h : Counted workers t) (next : t.after ev = some t') :
    Counted workers t' := by
  rcases after_cases next with ⟨-, p, placed⟩ | ⟨-, n, p, freed⟩
  · exact h.starts placed
  · exact h.frees freed

theorem run {P : Traffic → Passage → Prop} (run : Run P (.initial workers) t) :
    Counted workers t := by
  induction run with
  | refl => exact initial workers
  | step _ _ next ih => exact ih.step next

theorem outstanding (h : Counted workers t) (worker : WorkerId) :
    t.dispatcher.pool.outstanding worker = (t.heldAt (workers.idxOf worker)).card := by
  rw [Pool.outstanding_eq, h.slots, h.load]

end Counted

/-- Whether the loads of any two workers differ by one at most. -/
def Level (t : Traffic) : Prop :=
  ∃ m, ∀ i < t.dispatcher.pool.size, m ≤ t.dispatcher.pool.loadAt i ∧
    t.dispatcher.pool.loadAt i ≤ m + 1

theorem Level.starts (h : t.Level) (starts : t.Starts p t') : t'.Level := by
  obtain ⟨m, level⟩ := h
  obtain ⟨offset, chosen⟩ := starts.chosen
  have size : t'.dispatcher.pool.size = t.dispatcher.pool.size := by
    rw [starts.pool]
    exact Pool.size_modifyLoad _ _ _
  have loads : ∀ i, t'.dispatcher.pool.loadAt i =
      if i = p.slot then t.dispatcher.pool.loadAt p.slot + 1
      else t.dispatcher.pool.loadAt i := by
    intro i
    rw [starts.pool]
    exact Pool.loadAt_modifyLoad chosen.slot_lt
  have here := level p.slot chosen.slot_lt
  by_cases lowest : t.dispatcher.pool.loadAt p.slot = m
  · refine ⟨m, fun i hi => ?_⟩
    have before := level i (size ▸ hi)
    rw [loads]
    split <;> omega
  · refine ⟨m + 1, fun i hi => ?_⟩
    have before := level i (size ▸ hi)
    have least := chosen.least i (size ▸ hi)
    rw [loads]
    split <;> omega

end Traffic

end WorkflowEngine
