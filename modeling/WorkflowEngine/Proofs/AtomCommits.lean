import WorkflowEngine.Proofs.AtomCalls
/-!
Where a call takes effect. It does so with one answer of the store: an update with the swap that
succeeds, a call that writes nothing with the last thing that it read.
-/
set_option autoImplicit false

namespace WorkflowEngine

namespace Atom

theorem Replays.snoc {a : Atom} {before between after : Option Value} {order : List Completed}
    (h : Replays a before order between) {last : Completed}
    (yields : last.call.Yields a between last.answer after) :
    Replays a before (order ++ [last]) after := by
  induction h with
  | nil => exact .cons yields (.nil _)
  | cons first _ ih => exact .cons first (ih yields)

/-- All calls after one that has freed the atom find nothing. -/
theorem Replays.freed {a : Atom} {order : List Completed} {after : Option Value}
    (h : Replays a none order after) :
    after = none ∧ ∀ x ∈ order, x.answer = .fault (.store (.notFound a.key.text)) := by
  induction order with
  | nil =>
    cases h
    exact ⟨rfl, by simp⟩
  | cons first rest ih =>
    cases h with
    | cons yields later =>
      obtain ⟨i, call, answer⟩ := first
      cases yields
      obtain ⟨hafter, hrest⟩ := ih later
      refine ⟨hafter, fun x hx => ?_⟩
      rcases List.mem_cons.1 hx with rfl | hx
      · rfl
      · exact hrest x hx

/-- What is stored of an atom: the version and the value, as an entry. -/
def stored (held : Option (UInt64 × Value)) : Option Entry :=
  held.map fun (n, v) => ⟨n, v.json.toBytes⟩

/-- Whether nothing else can have the version that was read but the value that was read. -/
def Current (held : Option (UInt64 × Value)) (n : UInt64) (v : Value) : Prop :=
  ∀ {n' v'}, held = some (n', v') → n.toNat ≤ n'.toNat ∧ (n' = n → v' = v)

/-- How what is stored may go on. -/
inductive Advances (held : Option (UInt64 × Value)) : Option (UInt64 × Value) → Prop
  | same : Advances held held
  | freed : Advances held none
  | written {n : UInt64} {v : Value} (w : Value) (was : held = some (n, v))
      (room : n.toNat + 1 < UInt64.size) : Advances held (some (n + 1, w))

theorem Current.advance {held held' : Option (UInt64 × Value)} {n : UInt64} {v : Value}
    (h : Current held n v) (ha : Advances held held') : Current held' n v := by
  cases ha with
  | same => exact h
  | freed =>
    intro n' v' hnone
    cases hnone
  | @written m u w was room =>
    intro n' v' hsome
    cases hsome
    obtain ⟨hle, -⟩ := h was
    have hnext : (m + 1).toNat = m.toNat + 1 := by
      rw [UInt64.toNat_add]
      exact Nat.mod_eq_of_lt room
    refine ⟨by omega, ?_⟩
    rintro rfl
    omega

/-- The update that a call applies, and how it answers. -/
inductive Call.Updates : Call → (Value → Reply (Bool × Value)) → (Bool → Answer) → Prop
  | set (f : Value → Reply (Bool × Value)) : Updates (.set f) (always f) (fun _ => .done)
  | transact (f : Value → Reply (Bool × Value)) : Updates (.transact f) f .applied

variable {element : Decoder Value} {a : Atom} {call : Call} {f : Value → Reply (Bool × Value)}
  {encode : Bool → Answer} {v next : Value}

theorem Call.Updates.writes (h : call.Updates f encode) (updated : f v = .ok (true, next)) :
    call.Writes next := by
  cases h with
  | set g =>
    unfold always at updated
    cases hg : g v <;> rw [hg] at updated <;> cases updated
    exact .set hg
  | transact => exact .transact updated

theorem Call.Updates.applied (h : call.Updates f encode) (updated : f v = .ok (true, next)) :
    call.Yields a (some v) (encode true) (some next) := by
  cases h with
  | set g =>
    unfold always at updated
    cases hg : g v with
    | ok result =>
      obtain ⟨flag, w⟩ := result
      rw [hg] at updated
      cases updated
      exact .set hg
    | failed e =>
      rw [hg] at updated
      cases updated
    | aborted message =>
      rw [hg] at updated
      cases updated
  | transact => exact .applied updated

theorem Call.Updates.declined (h : call.Updates f encode) (declines : f v = .ok (false, next)) :
    call.Yields a (some v) (encode false) (some v) := by
  cases h with
  | set g =>
    unfold always at declines
    cases hg : g v <;> rw [hg] at declines <;> cases declines
  | transact => exact .declined declines

theorem Call.Updates.failed (h : call.Updates f encode) {e : WorkflowError}
    (failed : f v = .failed e) : call.Yields a (some v) (.fault (.failed e)) (some v) := by
  cases h with
  | set g =>
    unfold always at failed
    cases hg : g v <;> rw [hg] at failed <;> cases failed
    exact .setFailed hg
  | transact => exact .failed failed

theorem Call.Updates.aborted (h : call.Updates f encode) {message : Option String}
    (aborted : f v = .aborted message) :
    call.Yields a (some v) (.fault (.aborted message)) (some v) := by
  cases h with
  | set g =>
    unfold always at aborted
    cases hg : g v <;> rw [hg] at aborted <;> cases aborted
    exact .setAborted hg
  | transact => exact .aborted aborted

theorem Call.Updates.exhausted (h : call.Updates f encode) (v : Value) (limit : Nat) :
    call.Yields a (some v) (.fault (.store (.exhausted a.key.text limit))) (some v) := by
  cases h with
  | set g => exact .setExhausted g v limit
  | transact => exact .exhausted f v limit

/-- The program of a call that has not taken effect yet. One that is about to write has read the
value that it updates under a version that no other value can have. -/
inductive Open (element : Decoder Value) (a : Atom) (held : Option (UInt64 × Value)) :
    Call → Program Answer → Prop
  | read {next : Except StoreError (Option Bytes) → Program Answer}
      (present : ∀ {data v}, element.ofBytes data = .ok v →
        next (.ok (some data)) = .done (.value v))
      (absent : next (.ok none) = .done (.fault (.store (.notFound a.key.text)))) :
      Open element a held .read (.ask (.store (.get a.key)) next)
  | force {w : Value} {next : Except StoreError Unit → Program Answer}
      (written : next (.ok ()) = .done .done)
      (refused : ∀ e, next (.error e) = .done (.fault (.store e))) :
      Open element a held (.force w) (.ask (.store (.overwrite a.key w.json.toBytes)) next)
  | free {next : Except StoreError Bool → Program Answer} (present : next (.ok true) = .done .done)
      (absent : next (.ok false) = .done (.fault (.store (.notFound a.key.text)))) :
      Open element a held .free (.ask (.store (.delete a.key)) next)
  | attempts {call : Call} {f : Value → Reply (Bool × Value)} {encode : Bool → Answer}
      (updates : call.Updates f encode) (limit left : Nat) :
      Open element a held call
        (.ask (.store (.getVersioned a.key)) fun answer =>
          Answer.ofTransaction encode <$> found element a f limit left answer)
  | writes {call : Call} {f : Value → Reply (Bool × Value)} {encode : Bool → Answer}
      (updates : call.Updates f encode) (limit left : Nat) {n : UInt64} {v next : Value}
      (current : Current held n v) (updated : f v = .ok (true, next)) :
      Open element a held call
        (.ask (.store (.compareAndSwap a.key n next.json.toBytes)) fun answer =>
          Answer.ofTransaction encode <$> written element a f limit left answer)
  | pauses {call : Call} {f : Value → Reply (Bool × Value)} {encode : Bool → Answer}
      (updates : call.Updates f encode) (limit left micros : Nat) :
      Open element a held call
        (.ask (.pause micros) fun _ => .ask (.store (.getVersioned a.key)) fun answer =>
          Answer.ofTransaction encode <$> found element a f limit left answer)

/-- The program of a call that has taken effect. -/
inductive Settles : Program Answer → Answer → Prop
  | done (answer : Answer) : Settles (.done answer) answer
  | pauses {answer : Answer} (micros : Nat) :
      Settles (.ask (.pause micros) fun _ => .done answer) answer

theorem Open.advance {held held' : Option (UInt64 × Value)} {p : Program Answer}
    (h : Open element a held call p) (ha : Advances held held') : Open element a held' call p := by
  cases h with
  | read present absent => exact .read present absent
  | force written refused => exact .force written refused
  | free present absent => exact .free present absent
  | attempts updates limit left => exact .attempts updates limit left
  | writes updates limit left current updated =>
    exact .writes updates limit left (current.advance ha) updated
  | pauses updates limit left micros => exact .pauses updates limit left micros

theorem exists_attemptLimit (s : DataSettings) : ∃ left, attemptLimit s = left + 1 := by
  refine ⟨attemptLimit s - 1, ?_⟩
  unfold attemptLimit
  omega

theorem open_program (element : Decoder Value) (a : Atom) (s : DataSettings) (call : Call)
    (held : Option (UInt64 × Value)) : Open element a held call (call.program element s a) := by
  have transaction : ∀ {call f encode}, Call.Updates call f encode →
      Open element a held call (Answer.ofTransaction encode <$> (a.transact element s f).run) := by
    intro call f encode updates
    obtain ⟨left, hleft⟩ := exists_attemptLimit s
    unfold transact
    rw [hleft, run_attempts]
    exact .attempts updates _ left
  cases call with
  | read =>
    refine .read (fun {data v} hv => ?_) rfl
    simp only [Program.bind, ExceptT.bindCont, StoreProgram.decode, ExceptT.mk, Function.comp, hv]
    rfl
  | force w => exact .force rfl fun _ => rfl
  | free => exact .free rfl rfl
  | set f => exact transaction (.set f)
  | transact f => exact transaction (.transact f)

/-- What comes of an answer of the store: the call takes effect, or it goes on. -/
inductive Answers (element : Decoder Value) (a : Atom) (held : Option (UInt64 × Value))
    (call : Call) : Program Answer → Option (UInt64 × Value) → Prop
  | goesOn {p : Program Answer} (isOpen : Open element a held call p) :
      Answers element a held call p held
  | settles {p : Program Answer} {held' : Option (UInt64 × Value)} {answer : Answer}
      (yields : call.Yields a (held.map Prod.snd) answer (held'.map Prod.snd))
      (settles : Settles p answer) (advances : Advances held held')
      (legible : ∀ {n v}, held' = some (n, v) → element.ofBytes v.json.toBytes = .ok v) :
      Answers element a held call p held'

/-- What an attempt reads either settles the call or is to be swapped. -/
theorem Call.Updates.found_answers (updates : call.Updates f encode) (limit left : Nat)
    {held : Option (UInt64 × Value)}
    (legible : ∀ {n v}, held = some (n, v) → element.ofBytes v.json.toBytes = .ok v) :
    Answers element a held call
      (Answer.ofTransaction encode <$> found element a f limit left (.ok (stored held))) held := by
  cases held with
  | none => exact .settles (.freed _) (.done _) .same legible
  | some entry =>
    obtain ⟨n, v⟩ := entry
    have hv : element.ofBytes v.json.toBytes = .ok v := legible rfl
    simp only [stored, Option.map_some, found, hv]
    cases hf : f v with
    | failed e => exact .settles (updates.failed hf) (.done _) .same legible
    | aborted message => exact .settles (updates.aborted hf) (.done _) .same legible
    | ok result =>
      obtain ⟨flag, next⟩ := result
      cases flag with
      | false => exact .settles (updates.declined hf) (.done _) .same legible
      | true =>
        have current : Current (some (n, v)) n v := by
          intro n' v' hsome
          cases hsome
          exact ⟨Nat.le_refl _, fun _ => rfl⟩
        exact .goesOn (.writes updates limit left current hf)

/-- A swap that succeeds replaces the value that was read; one that does not lets the call go on
or ends it. -/
theorem Call.Updates.written_answers (updates : call.Updates f encode) (limit left : Nat)
    {held : Option (UInt64 × Value)} {n : UInt64}
    (legible : ∀ {n v}, held = some (n, v) → element.ofBytes v.json.toBytes = .ok v)
    (current : Current held n v) (updated : f v = .ok (true, next))
    (reads : element.ofBytes next.json.toBytes = .ok next)
    (room : ∀ {n v}, held = some (n, v) → n.toNat + 1 < UInt64.size) :
    ∃ held', (StoreCommand.act (.compareAndSwap a.key n next.json.toBytes) (stored held)).2 =
        stored held' ∧
      Answers element a held call
        (Answer.ofTransaction encode <$> written element a f limit left
          (StoreCommand.act (.compareAndSwap a.key n next.json.toBytes) (stored held)).1)
        held' := by
  cases held with
  | none => exact ⟨none, rfl, .settles (.freed _) (.done _) .same legible⟩
  | some entry =>
    obtain ⟨n', v'⟩ := entry
    -- With the version that was read, the value is the one that was read.
    by_cases hn : n' = n
    · obtain ⟨-, hv⟩ := current rfl
      cases hn
      cases hv rfl
      refine ⟨some (n + 1, next), ?_, ?_⟩
      · simp [StoreCommand.act, stored]
      · simp only [StoreCommand.act, stored, Option.map_some, if_true]
        refine .settles (updates.applied updated) (.done _) (.written next rfl (room rfl)) ?_
        intro m u hsome
        cases hsome
        exact reads
    · refine ⟨some (n', v'), ?_, ?_⟩
      · simp [StoreCommand.act, stored, hn]
      · simp only [StoreCommand.act, stored, Option.map_some, if_neg hn]
        cases left with
        | zero =>
          -- The last attempt has failed: the call ends after one more pause.
          exact .settles (updates.exhausted v' limit) (.pauses _) .same legible
        | succ left =>
          simp only [written, run_attempts]
          exact .goesOn (.pauses updates limit left _)

/-- A call that has not taken effect asks for the entry of the atom. -/
theorem Open.step {held : Option (UInt64 × Value)} {c : StoreCommand}
    {next : (Request.store c).Answer → Program Answer}
    (h : Open element a held call (.ask (.store c) next))
    (legible : ∀ {n v}, held = some (n, v) → element.ofBytes v.json.toBytes = .ok v)
    (writes : ∀ {v : Value}, call.Writes v → c.data? = some v.json.toBytes →
      element.ofBytes v.json.toBytes = .ok v)
    (room : c.data? ≠ none → ∀ {n v}, held = some (n, v) → n.toNat + 1 < UInt64.size) :
    c.key = a.key ∧ ∃ held', (c.act (stored held)).2 = stored held' ∧
      Answers element a held call (next (c.act (stored held)).1) held' := by
  cases h with
  | read present absent =>
    refine ⟨rfl, held, rfl, ?_⟩
    cases held with
    | none => exact absent ▸ .settles (.freed _) (.done _) .same legible
    | some entry =>
      obtain ⟨n, v⟩ := entry
      have hnext := present (legible rfl)
      exact hnext ▸ .settles (.read v) (.done _) .same legible
  | @force w _ written refused =>
    cases held with
    | none => exact ⟨rfl, none, rfl, refused _ ▸ .settles (.freed _) (.done _) .same legible⟩
    | some entry =>
      obtain ⟨n, v⟩ := entry
      refine ⟨rfl, some (n + 1, w), rfl,
        written ▸ .settles (.force v w) (.done _) (.written w rfl (room nofun rfl)) ?_⟩
      intro n' v' hsome
      cases hsome
      exact writes (.force w) rfl
  | free present absent =>
    cases held with
    | none => exact ⟨rfl, none, rfl, absent ▸ .settles (.freed _) (.done _) .same legible⟩
    | some entry =>
      obtain ⟨n, v⟩ := entry
      exact ⟨rfl, none, rfl, present ▸ .settles (.free v) (.done _) .freed (by simp)⟩
  | attempts updates limit left =>
    exact ⟨rfl, held, rfl, updates.found_answers limit left legible⟩
  | writes updates limit left current updated =>
    have reads := writes (updates.writes updated) rfl
    exact ⟨rfl, updates.written_answers limit left legible current updated reads (room nofun)⟩

end Atom

end WorkflowEngine
