import WorkflowEngine.Proofs.CachedKeys
import WorkflowEngine.Proofs.Soundness
/-!
What workers keep in their caches. Nothing in an engine touches them but operations, so that data is
cached only under the keys that these may use.
-/
set_option autoImplicit false

namespace WorkflowEngine

/-- Whether an event starts an operation. -/
def Cluster.Performs (c : Cluster) (op : Operation) : Event → Prop
  | .move (.advance id) => ∃ e m stack, c.evaluations.get? id = some e ∧ e.phase = .running m ∧
    c.scopes.isCancelled e.scope = false ∧ m.step c.registry = .operate op stack
  | _ => False

/-- Whether an evaluation caches nothing from now on, by what it is doing, except under certain
keys. -/
def Phase.Caches (K : Key → Prop) : Phase → Prop
  | .operating p _ _ => p.Asks (Request.Caches K)
  | _ => True

namespace Cluster

/-- All that is cached is under certain keys, and so will be what the operations under way cache. -/
structure Confines (s : DataSettings) (K : Key → Prop) (c : Cluster) : Prop where
  settings : c.settings = s
  cached : ∀ {i : Nat} {worker key data}, c.workers[i]? = some worker →
    worker.cache.get? key = some data → K key
  pending : ∀ {id e}, c.evaluations.get? id = some e → e.phase.Caches K

namespace Confines

variable {s : DataSettings} {K : Key → Prop} {c c' : Cluster} {id : EvaluationId} {e : Evaluation}

/-- Only the workers and the evaluations count. -/
theorem frame (h : c.Confines s K) (settings : c'.settings = c.settings)
    (workers : c'.workers = c.workers) (evaluations : c'.evaluations = c.evaluations) :
    c'.Confines s K where
  settings := settings.trans h.settings
  cached := workers ▸ h.cached
  pending := evaluations ▸ h.pending

theorem wake (h : c.Confines s K) (t : Thread) : (c.wake t).Confines s K := by
  unfold Cluster.wake
  split
  · exact h
  · exact h.frame rfl rfl rfl

theorem foldl_wake {α : Type} (h : c.Confines s K) (f : α → Thread) (l : List α) :
    (l.foldl (fun c a => c.wake (f a)) c).Confines s K := by
  induction l generalizing c with
  | nil => exact h
  | cons a rest ih => exact ih (h.wake (f a))

theorem setPhase (h : c.Confines s K) {phase : Phase} (caches : phase.Caches K) :
    (c.setPhase id e phase).Confines s K where
  settings := h.settings
  cached := h.cached
  pending live := by
    rw [Cluster.setPhase, Table.get?_insert] at live
    split at live
    · cases live
      exact caches
    · exact h.pending live

theorem modifyWorker (h : c.Confines s K) {f : Worker → Worker} (i : Nat)
    (cached : ∀ {w key data}, (f w).cache.get? key = some data →
      w.cache.get? key = some data ∨ K key) : (c.modifyWorker i f).Confines s K where
  settings := h.settings
  cached {j worker key data} at_slot found := by
    rw [Cluster.modifyWorker, List.getElem?_modify] at at_slot
    obtain ⟨w, hw, rfl⟩ := Option.map_eq_some_iff.1 at_slot
    split at found
    · exact (cached found).elim (h.cached hw) fun hkey => hkey
    · exact h.cached hw found
  pending := h.pending

theorem respond (h : c.Confines s K) (r : Response) : (c.respond id e r).Confines s K := by
  have answered : (c.setPhase id e (.responded r)).Confines s K := h.setPhase trivial
  unfold Cluster.respond
  refine wake ?_ _
  exact answered.frame rfl rfl rfl

theorem send (h : c.Confines s K) (p : Placement) (payload : String) :
    (c.send id e p payload).Confines s K := by
  have queued : (c.setPhase id e .queued).Confines s K := h.setPhase trivial
  unfold Cluster.send
  split
  · split
    · refine wake ?_ _
      exact queued.modifyWorker _ fun found => .inl found
    · exact h.respond _
  · exact h.respond _

theorem dispatch (h : c.Confines s K) (job : JobId) (parent : Option Parent) (scope : Scope)
    (w : Workflow) : (c.dispatch job parent scope w).Confines s K := by
  have counted : { c with nextId := c.nextId + 1 }.Confines s K := h.frame rfl rfl rfl
  unfold Cluster.dispatch
  simp only [freshId]
  split
  · exact counted.respond _
  · refine send ?_ _ _
    exact counted.frame rfl rfl rfl

theorem dropDelivery (h : c.Confines s K) (worker : WorkerId) (d : Delivery) :
    (c.dropDelivery worker d).Confines s K := by
  unfold Cluster.dropDelivery
  split
  · exact h.respond _
  · exact h

theorem foldl_dropDelivery (h : c.Confines s K) (worker : WorkerId) (ds : List Delivery) :
    (ds.foldl (Cluster.dropDelivery worker) c).Confines s K := by
  induction ds generalizing c with
  | nil => exact h
  | cons d rest ih => exact ih (h.dropDelivery worker d)

theorem cancelScope (h : c.Confines s K) (scope : Scope) : (c.cancelScope scope).Confines s K := by
  have cancelled : { c with scopes := c.scopes.cancel scope }.Confines s K := h.frame rfl rfl rfl
  exact cancelled.foldl_wake (fun entry : EvaluationId × Evaluation => .evaluation entry.1) _

theorem serve (h : c.Confines s K) {r : Request} (caches : r.Caches K) :
    (c.serve e r).2.Confines s K := by
  cases r with
  | remember key data =>
    simp only [Cluster.serve, Cluster.remember]
    split
    · refine h.modifyWorker _ fun {w k kept} found => ?_
      rw [Table.get?_insert] at found
      split at found
      · next hk => exact .inr (hk ▸ caches)
      · exact .inl found
    · exact h
  | store | cached | freshId | now | pause | append => exact h.frame rfl rfl rfl

theorem runMachine (h : c.Confines s K) {m : Machine}
    (performs : ∀ {op stack}, m.step c.registry = .operate op stack →
      (op.effect (c.surroundings e)).Caches K) : (c.runMachine id e m).Confines s K := by
  unfold Cluster.runMachine
  split
  · exact h.setPhase trivial
  · exact h.respond _
  · exact h.respond _
  · unfold Cluster.fork
    split
    · exact h.setPhase trivial
    · refine setPhase ?_ trivial
      exact h.frame rfl rfl rfl
  · next op stack hstep =>
    have caches := performs hstep
    split
    · exact h.setPhase trivial
    · next p heffect => exact h.setPhase (heffect ▸ caches :)

theorem request (h : c.Confines s K) {due : Option Nat} {stack : List Frame} {r : Request}
    {next : r.Answer → Program (Reply Value)}
    (caches : (Program.ask r next).Asks (Request.Caches K))
    (after : c.request id e due stack r next = some c') : c'.Confines s K := by
  cases r with
  | pause micros =>
    simp only [Cluster.request] at after
    split at after
    · cases after
      exact h.setPhase caches
    · split at after <;> cases after
      exact h.setPhase (caches.2 ())
  | store | cached | remember | freshId | now | append =>
    cases after
    exact setPhase (h.serve (e := e) caches.1) (caches.2 _)

theorem placeChild (h : c.Confines s K) (f : Fork) (w : Workflow) (rest : List Workflow)
    (stack : List Frame) : (c.placeChild id e f w rest stack).Confines s K := by
  refine dispatch ?_ _ _ _ _
  refine setPhase ?_ trivial
  exact h.frame rfl rfl rfl

theorem advance (h : c.Confines s K)
    (performs : ∀ {op}, c.Performs op (.move (.advance id)) → ∀ key, op.MayCache s key → K key)
    (after : c.advance id = some c') : c'.Confines s K := by
  obtain ⟨e, t, live, turn, after⟩ := advance_cases after
  have follows := follows_of_turn turn
  cases follows with
  | steps running free =>
    cases after
    refine h.runMachine fun {op stack} operates => ?_
    have wider := performs ⟨e, _, stack, live, running, free, operates⟩
    rw [← h.settings] at wider
    exact (op.caches_effect _).mono wider
  | asks operating =>
    have caches := h.pending live
    rw [operating] at caches
    exact h.request caches after
  | places => cases after; exact h.placeChild _ _ _ _
  | started => cases after; exact h.setPhase trivial
  | interrupted | returned | failed | joined => cases after; exact h.setPhase trivial
  | undecoded | stopped | aborted => cases after; exact h.respond _

theorem receive (h : c.Confines s K) {i : Nat} (after : c.receive i = some c') :
    c'.Confines s K := by
  obtain ⟨worker, d, rest, -, -, -, received⟩ := receive_cases after
  have taken : (c.modifyWorker i fun w => { w with inbox := rest }).Confines s K :=
    h.modifyWorker _ fun found => .inl found
  rcases received with ⟨e, -, rfl⟩ | ⟨-, rfl⟩
  · refine wake ?_ _
    exact taken.setPhase trivial
  · exact taken

theorem close (h : c.Confines s K) {i : Nat} (after : c.close i = some c') :
    c'.Confines s K := by
  obtain ⟨worker, -, -, -, rfl⟩ := close_cases after
  refine foldl_dropDelivery ?_ _ _
  exact h.modifyWorker _ fun found => .inl found

theorem arrive (h : c.Confines s K) (parent : Parent) (o : Outcome) :
    (c.arrive parent o).Confines s K := by
  simp only [Cluster.arrive]
  split
  · split
    · split
      · refine cancelScope ?_ _
        exact h.setPhase trivial
      · exact h.setPhase trivial
    · exact h
  · exact h

theorem endJob (h : c.Confines s K) (job : JobId) (o : Outcome) :
    (c.endJob job o).Confines s K := by
  simp only [Cluster.endJob]
  split <;> exact h.frame rfl rfl rfl

theorem collect (h : c.Confines s K) (after : c.collect id = some c') : c'.Confines s K := by
  have erased : { c with evaluations := c.evaluations.erase id }.Confines s K :=
    ⟨h.settings, h.cached, fun {id' e'} live' => by
      rw [Table.get?_erase] at live'
      split at live'
      · cases live'
      · exact h.pending live'⟩
  obtain ⟨e, r, o, dispatcher, -, -, -, ⟨parent, -, rfl⟩ | ⟨-, rfl⟩⟩ := collect_cases after
  · refine arrive ?_ _ _
    exact erased.frame rfl rfl rfl
  · refine endJob ?_ _ _
    exact erased.frame rfl rfl rfl

theorem step (h : c.Confines s K) {m : Move}
    (performs : ∀ {op}, c.Performs op (.move m) → ∀ key, op.MayCache s key → K key)
    (after : c.step m = some c') : c'.Confines s K := by
  cases m with
  | begin job =>
    obtain ⟨w, scope, -, rfl⟩ := begin_cases after
    refine dispatch ?_ _ _ _ _
    exact h.frame rfl rfl rfl
  | receive i => exact h.receive after
  | close i => exact h.close after
  | advance id => exact h.advance performs after
  | collect id => exact h.collect after

theorem after {ev : Event} (h : c.Confines s K)
    (performs : ∀ {op}, c.Performs op ev → ∀ key, op.MayCache s key → K key)
    (after : c.after ev = some c') : c'.Confines s K := by
  cases ev with
  | submit name w =>
    cases after
    refine wake ?_ _
    exact h.frame rfl rfl rfl
  | cancel job =>
    obtain ⟨entry, -, -, rfl⟩ := cancel_cases after
    exact h.cancelScope _
  | forget job =>
    obtain ⟨entry, -, -, rfl⟩ := forget_cases after
    exact h.frame rfl rfl rfl
  | shutdown =>
    cases after
    exact (h.cancelScope _).foldl_wake _ _
  | elapse time =>
    cases after
    refine foldl_wake ?_ (fun due : EvaluationId × Nat => .evaluation due.1) _
    exact h.frame rfl rfl rfl
  | arrange ready =>
    cases after
    exact h.frame rfl rfl rfl
  | move m => exact h.step performs after

theorem run {P : Cluster → Event → Prop} (h : c.Confines s K) (run : Run P c c')
    (performs : ∀ {b ev op}, P b ev → b.Performs op ev → ∀ key, op.MayCache s key → K key) :
    c'.Confines s K := by
  induction run with
  | refl => exact h
  | step _ may next ih => exact ih.after (performs may) next

theorem start (registry : Registry) (config : EngineConfig) (backend : Backend) (sink : LogSink) :
    (start registry config backend sink).Confines
      (start registry config backend sink).settings K where
  settings := rfl
  cached at_slot found := by
    obtain ⟨n, -, rfl⟩ := List.mem_map.1 (List.mem_of_getElem? at_slot)
    cases found
  pending live := nomatch live

end Confines

variable {registry : Registry} {config : EngineConfig} {backend : Backend} {sink : LogSink}
  {c : Cluster}

/-- What is cached on a worker is cached by an operation that the engine has performed. -/
theorem cached_by_operation {performed : Operation → Prop}
    (run : Run (fun b ev => ∀ op, b.Performs op ev → performed op)
      (start registry config backend sink) c) {worker : Worker} (mem : worker ∈ c.workers)
    {key : Key} {data : Bytes} (found : worker.cache.get? key = some data) :
    ∃ op, performed op ∧ op.MayCache c.settings key := by
  obtain ⟨i, at_slot⟩ := List.getElem?_of_mem mem
  have initial := Confines.start registry config backend sink
    (K := fun key => ∃ op, performed op ∧
      op.MayCache (start registry config backend sink).settings key)
  have confined := initial.run run fun may performs key caches => ⟨_, may _ performs, caches⟩
  rw [confined.settings]
  exact confined.cached at_slot found

/-- Atoms are cached on no worker as long as no operation reads mutable data as if it never changed:
the handles of the cells, sequences and vectors that are read are not those of atoms. -/
theorem atoms_uncached
    (run : Run (fun b ev => ∀ op, b.Performs op ev → op.ReadsImmutable c.settings)
      (start registry config backend sink) c) {worker : Worker} (mem : worker ∈ c.workers)
    {v : Value} {a : Atom} (made : (Atom.create c.settings v).run.Gives (.ok a)) :
    worker.cache.get? a.key = none := by
  cases found : worker.cache.get? a.key with
  | none => rfl
  | some data =>
    obtain ⟨op, reads, caches⟩ := cached_by_operation run mem found
    exact absurd (Atom.gives_create made) (reads.container_ne caches)

/-- A job makes an atom, and another one reads the handle of the atom as that of a cell. -/
theorem exists_atom_read :
    ∃ (b c : Cluster) (a : Atom),
      Run (fun b' ev => ∀ op, b'.Performs op ev → op.ReadsImmutable b.settings)
        (start {} { workers := 1 } (.memory .empty) (.memory .empty)) b ∧
      Reaches b c ∧ (Atom.create b.settings .null).run.Gives (.ok a) ∧
      b.backend.entry a.key = .ok (some ⟨0, Value.null.json.toBytes⟩) ∧
      c.settings = b.settings ∧
      ∃ worker ∈ c.workers, worker.cache.get? a.key = some Value.null.json.toBytes := by
  have making : Workflow.decode (Workflow.perform (.atomNew .null)).encode =
      .ok (.perform (.atomNew .null)) := by cbv
  have reading : Workflow.decode (Workflow.perform (.cellValue
      ⟨⟨"stratus#mutable", (Uuid.fresh 2).text⟩⟩)).encode =
        .ok (.perform (.cellValue ⟨⟨"stratus#mutable", (Uuid.fresh 2).text⟩⟩)) := by cbv
  have submitted := Run.step (P := fun b' ev => ∀ op, b'.Performs op ev →
      op.ReadsImmutable (.ofParts "stratus" 1024 100))
    (.refl (start {} { workers := 1 } (.memory .empty) (.memory .empty))) (by rintro _ ⟨⟩)
    (rfl : Cluster.after _ (.submit "job" (.perform (.atomNew .null))) = some _)
  have begun := submitted.step (by rintro _ ⟨⟩)
    (rfl : Cluster.after _ (.move (.begin ⟨Uuid.fresh 0⟩)) = some _)
  have received := begun.step (by rintro _ ⟨⟩)
    (rfl : Cluster.after _ (.move (.receive 0)) = some _)
  have started := received.step (by rintro op ⟨e, m, stack, ⟨⟩, ⟨⟩, -⟩)
    (after_accepted ⟨Uuid.fresh 1⟩ rfl rfl making)
  have performed := started.step (by rintro op ⟨e, m, stack, ⟨⟩, ⟨⟩, -, ⟨⟩⟩; trivial)
    (rfl : Cluster.after _ (.move (.advance ⟨Uuid.fresh 1⟩)) = some _)
  have named := performed.step (by rintro op ⟨e, m, stack, ⟨⟩, ⟨⟩, -⟩)
    (rfl : Cluster.after _ (.move (.advance ⟨Uuid.fresh 1⟩)) = some _)
  have made := named.step (by rintro op ⟨e, m, stack, ⟨⟩, ⟨⟩, -⟩)
    (rfl : Cluster.after _ (.move (.advance ⟨Uuid.fresh 1⟩)) = some _)
  have onward : ∀ {P : Cluster → Event → Prop} {a b : Cluster}, Run P a b → Reaches b b :=
    fun _ => .refl _
  have asked := (onward made).step trivial (rfl : Cluster.after _ (.submit "job" (.perform
    (.cellValue ⟨⟨"stratus#mutable", (Uuid.fresh 2).text⟩⟩))) = some _)
  have sent := asked.step trivial (rfl : Cluster.after _ (.move (.begin ⟨Uuid.fresh 3⟩)) = some _)
  have taken := sent.step trivial (rfl : Cluster.after _ (.move (.receive 0)) = some _)
  have decoded := taken.step trivial (after_accepted ⟨Uuid.fresh 4⟩ rfl rfl reading)
  have operated := decoded.step trivial
    (rfl : Cluster.after _ (.move (.advance ⟨Uuid.fresh 4⟩)) = some _)
  have missed := operated.step trivial
    (rfl : Cluster.after _ (.move (.advance ⟨Uuid.fresh 4⟩)) = some _)
  have found := missed.step trivial
    (rfl : Cluster.after _ (.move (.advance ⟨Uuid.fresh 4⟩)) = some _)
  have cached := found.step trivial
    (rfl : Cluster.after _ (.move (.advance ⟨Uuid.fresh 4⟩)) = some _)
  have created : (Atom.create (.ofParts "stratus" 1024 100) .null).run.Gives
      (.ok ⟨⟨"stratus#mutable", (Uuid.fresh 2).text⟩⟩) :=
    .ask (Uuid.fresh 2) (.ask (.ok ()) (.done _))
  exact ⟨_, _, _, made, cached, created, rfl, rfl, _, List.mem_singleton.2 rfl, rfl⟩

/-- An atom that has been made is in the store and in no cache. -/
theorem atoms_uncached_made :
    ∃ (c : Cluster) (a : Atom),
      Run (fun b ev => ∀ op, b.Performs op ev → op.ReadsImmutable c.settings)
        (start {} { workers := 1 } (.memory .empty) (.memory .empty)) c ∧
      c.backend.entry a.key = .ok (some ⟨0, Value.null.json.toBytes⟩) ∧
      ∀ worker ∈ c.workers, worker.cache.get? a.key = none := by
  obtain ⟨b, c, a, run, -, made, stored, -⟩ := exists_atom_read
  exact ⟨b, a, run, stored, fun worker mem => atoms_uncached run mem made⟩

/-- When an operation reads the handle of an atom as that of a cell, the atom is cached. -/
theorem atom_cached_as_cell :
    ∃ (c : Cluster) (a : Atom),
      Reaches (start {} { workers := 1 } (.memory .empty) (.memory .empty)) c ∧
      (Atom.create c.settings .null).run.Gives (.ok a) ∧
      ∃ worker ∈ c.workers, worker.cache.get? a.key = some Value.null.json.toBytes := by
  obtain ⟨b, c, a, run, read, made, -, same, cached⟩ := exists_atom_read
  exact ⟨c, a, run.reaches.trans read, same ▸ made, cached⟩

end Cluster

end WorkflowEngine
