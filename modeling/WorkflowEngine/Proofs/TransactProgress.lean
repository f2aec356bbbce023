import Mathlib
import WorkflowEngine.Proofs.Contention
/-!
How often a transaction tries. An attempt fails only if somebody else has written between its read
and its swap, so that a call gives up only if others have written as often as it may try.
-/
set_option autoImplicit false

namespace WorkflowEngine

namespace Atom

/-- An attempt that failed: what it read, what the update made of it, and the pause after it. -/
structure Attempt where
  entry : Entry
  current : Value
  next : Value
  micros : Nat

/-- Whether the update ran on what was read and was to be applied. -/
structure Attempt.Valid (element : Decoder Value) (f : Value → Reply (Bool × Value)) (t : Attempt) :
    Prop where
  read : element.ofBytes t.entry.data = .ok t.current
  updated : f t.current = .ok (true, t.next)

/-- What an attempt that failed asks for, and how it is answered. -/
def Attempt.events (key : Key) (i : Nat) (t : Attempt) : List Event :=
  [.asked i (.getVersioned key) (.ok (some t.entry)),
   .asked i (.compareAndSwap key t.entry.version t.next.json.toBytes) (.ok false),
   .paused i t.micros]

/-- Whether a call gives up. -/
def Answer.GivesUp (answer : Answer) : Prop :=
  ∃ place n, answer = .fault (.store (.exhausted place n))

/-- How far a call is that tries to apply an update: what it has done so far and what it does next,
given the entry of the atom and how often others have written since it was made. -/
inductive Course (element : Decoder Value) (a : Atom) (f : Value → Reply (Bool × Value))
    (encode : Bool → Answer) (limit i : Nat) (entry : Except StoreError (Option Entry))
    (writes : Nat) : List Event → Option (Program Answer) → Prop
  | reads (tries : List Attempt) {left : Nat} (count : tries.length + left = limit)
      (few : tries.length ≤ writes) (valid : ∀ t ∈ tries, t.Valid element f) :
      Course element a f encode limit i entry writes (tries.flatMap (Attempt.events a.key i))
        (some (Answer.ofTransaction encode <$> (attempts element a f limit left).run))
  | swaps {tries : List Attempt} {left : Nat} {t : Attempt}
      (count : tries.length + (left + 1) = limit) (few : tries.length ≤ writes)
      (valid : ∀ t ∈ tries, t.Valid element f) (now : t.Valid element f)
      -- Another version than the one that was read is there only if somebody has written since.
      (overtaken : ∀ e, entry = .ok (some e) → e.version ≠ t.entry.version →
        tries.length + 1 ≤ writes) :
      Course element a f encode limit i entry writes
        (tries.flatMap (Attempt.events a.key i) ++ (t.events a.key i).take 1)
        (some (.ask (.store (.compareAndSwap a.key t.entry.version t.next.json.toBytes))
          fun answer => Answer.ofTransaction encode <$> written element a f limit left answer))
  | pauses {tries : List Attempt} {left : Nat} {t : Attempt}
      (count : tries.length + (left + 1) = limit) (few : tries.length + 1 ≤ writes)
      (valid : ∀ t ∈ tries, t.Valid element f) (now : t.Valid element f) :
      Course element a f encode limit i entry writes
        (tries.flatMap (Attempt.events a.key i) ++ (t.events a.key i).take 2)
        (some (.ask (.pause t.micros) fun _ =>
          Answer.ofTransaction encode <$> (attempts element a f limit left).run))
  | ends {own : List Event} {answer : Answer} (bounded : own.length ≤ 3 * limit)
      (decided : ¬ answer.GivesUp) :
      Course element a f encode limit i entry writes own (some (.done answer))
  | returned {own : List Event} {answer : Answer} (bounded : own.length ≤ 3 * limit) :
      Course element a f encode limit i entry writes (own ++ [.answered i answer]) none

theorem attempts_ne_pause {element : Decoder Value} {a : Atom} {f : Value → Reply (Bool × Value)}
    {encode : Bool → Answer} {limit left micros : Nat}
    {next : (Request.pause micros).Answer → Program Answer} :
    Answer.ofTransaction encode <$> (attempts element a f limit left).run ≠
      .ask (.pause micros) next := by
  intro h
  cases left with
  | zero => cases h
  | succ left =>
    rw [run_attempts] at h
    cases h

/-- There is nothing to ask for only when no attempt is left. -/
theorem of_attempts_eq_done {element : Decoder Value} {a : Atom}
    {f : Value → Reply (Bool × Value)} {encode : Bool → Answer} {limit left : Nat} {answer : Answer}
    (h : Answer.ofTransaction encode <$> (attempts element a f limit left).run = .done answer) :
    left = 0 ∧ answer = .fault (.store (.exhausted a.key.text limit)) := by
  cases left with
  | zero =>
    cases h
    exact ⟨rfl, rfl⟩
  | succ left =>
    rw [run_attempts] at h
    cases h

theorem length_events (key : Key) (i : Nat) (tries : List Attempt) :
    (tries.flatMap (Attempt.events key i)).length = 3 * tries.length := by
  simp [Attempt.events, Nat.mul_comm]

theorem Call.Updates.not_givesUp {call : Call} {f : Value → Reply (Bool × Value)}
    {encode : Bool → Answer} (h : call.Updates f encode) (yes : Bool) : ¬ (encode yes).GivesUp := by
  rintro ⟨place, n, h'⟩
  cases h <;> cases h'

namespace Course

variable {element : Decoder Value} {a : Atom} {call : Call} {f : Value → Reply (Bool × Value)}
  {encode : Bool → Answer} {limit i writes writes' : Nat}
  {entry entry' : Except StoreError (Option Entry)} {own : List Event}
  {p : Option (Program Answer)} {b : Backend}

/-- Others may change the entry only by writing, or take it away. -/
theorem foreign (h : Course element a f encode limit i entry writes own p) (le : writes ≤ writes')
    (kept : ∀ e, entry' = .ok (some e) → entry = .ok (some e) ∨ writes + 1 ≤ writes') :
    Course element a f encode limit i entry' writes' own p := by
  cases h with
  | reads tries count few valid => exact .reads tries count (few.trans le) valid
  | swaps count few valid now overtaken =>
    refine .swaps count (few.trans le) valid now fun e he newer => ?_
    rcases kept e he with same | wrote
    · exact (overtaken e same newer).trans le
    · omega
  | pauses count few valid now => exact .pauses count (few.trans le) valid now
  | ends bounded decided => exact .ends bounded decided
  | returned bounded => exact .returned bounded

/-- What an attempt reads ends the call or is to be swapped. -/
theorem found {tries : List Attempt} {left : Nat} (updates : call.Updates f encode)
    (count : tries.length + (left + 1) = limit) (few : tries.length ≤ writes)
    (valid : ∀ t ∈ tries, t.Valid element f)
    (known : ∀ place n, entry ≠ .error (.exhausted place n)) :
    Course element a f encode limit i entry writes
      (tries.flatMap (Attempt.events a.key i) ++ [Event.asked i (.getVersioned a.key) entry])
      (some (Answer.ofTransaction encode <$> found element a f limit left entry)) := by
  have bounded : (tries.flatMap (Attempt.events a.key i) ++
      [Event.asked i (.getVersioned a.key) entry]).length ≤ 3 * limit := by
    rw [List.length_append, length_events, List.length_singleton]
    omega
  rcases entry with e | _ | e
  · refine .ends bounded ?_
    rintro ⟨place, n, h⟩
    cases h
    exact known place n rfl
  · exact .ends bounded (by simp [Answer.GivesUp, Answer.ofTransaction])
  cases read : element.ofBytes e.data with
  | error err =>
    simp only [Atom.found, read]
    exact .ends bounded (by simp [Answer.GivesUp, Answer.ofTransaction])
  | ok current =>
    simp only [Atom.found, read]
    cases updated : f current with
    | failed err => exact .ends bounded (by simp [Answer.GivesUp, Answer.ofTransaction])
    | aborted message => exact .ends bounded (by simp [Answer.GivesUp, Answer.ofTransaction])
    | ok result =>
      obtain ⟨flag, next⟩ := result
      cases flag with
      | false => exact .ends bounded (updates.not_givesUp false)
      | true =>
        refine .swaps (t := ⟨e, current, next, 0⟩) count few valid ⟨read, updated⟩ ?_
        intro e' he newer
        cases he
        exact absurd rfl newer

/-- A swap ends the call, or it has failed because somebody else has written. -/
theorem written {tries : List Attempt} {left : Nat} {t : Attempt} {swapped : Except StoreError Bool}
    (updates : call.Updates f encode) (count : tries.length + (left + 1) = limit)
    (valid : ∀ t ∈ tries, t.Valid element f) (now : t.Valid element f)
    (known : ∀ place n, swapped ≠ .error (.exhausted place n))
    (overtaken : swapped = .ok false → tries.length + 1 ≤ writes) :
    Course element a f encode limit i entry writes
      (tries.flatMap (Attempt.events a.key i) ++ (t.events a.key i).take 1 ++
        [Event.asked i (.compareAndSwap a.key t.entry.version t.next.json.toBytes) swapped])
      (some (Answer.ofTransaction encode <$> written element a f limit left swapped)) := by
  have bounded : (tries.flatMap (Attempt.events a.key i) ++ (t.events a.key i).take 1 ++
      [Event.asked i (.compareAndSwap a.key t.entry.version t.next.json.toBytes)
        swapped]).length ≤ 3 * limit := by
    rw [List.length_append, List.length_append, length_events, List.length_singleton]
    simp only [Attempt.events, List.take_succ_cons, List.take_zero, List.length_singleton]
    omega
  rcases swapped with e | _ | _
  · refine .ends bounded ?_
    rintro ⟨place, n, h⟩
    cases h
    exact known place n rfl
  · rw [List.append_assoc]
    exact .pauses (t := { t with micros := conflictMicros (limit - (left + 1)) }) count
      (overtaken rfl) valid ⟨now.read, now.updated⟩
  · exact .ends bounded (updates.not_givesUp true)

/-- The store answers a request of the call. -/
theorem asked {c : StoreCommand} {next : (Request.store c).Answer → Program Answer}
    (updates : call.Updates f encode)
    (h : Course element a f encode limit i (b.entry a.key) writes own
      (some (.ask (.store c) next))) :
    Course element a f encode limit i ((b.run c).2.entry a.key) writes
      (own ++ [.asked i c (b.run c).1]) (some (next (b.run c).1)) := by
  generalize hp : some (Program.ask (.store c) next) = p at h
  cases h with
  | @reads tries left count few valid =>
    cases left with
    | zero => cases hp
    | succ left =>
      rw [run_attempts] at hp
      cases hp
      have unchanged : (b.run (.getVersioned a.key)).2 = b := Backend.run_of_isRead rfl
      have answer := b.run_getVersioned a.key
      rw [unchanged, answer]
      exact found updates count few valid fun place n h =>
        b.run_ne_exhausted (.getVersioned a.key) place n (answer.trans h)
  | swaps count few valid now overtaken =>
    cases hp
    refine written updates count valid now (b.run_ne_exhausted _) fun h => ?_
    obtain ⟨e, he, newer⟩ := Backend.exists_newer h
    exact overtaken e he newer
  | pauses => cases hp
  | ends => cases hp
  | returned => cases hp

/-- A pause is over, and the next attempt begins. -/
theorem paused {micros : Nat} {next : (Request.pause micros).Answer → Program Answer}
    (h : Course element a f encode limit i entry writes own (some (.ask (.pause micros) next))) :
    Course element a f encode limit i entry writes (own ++ [.paused i micros])
      (some (next ())) := by
  generalize hp : some (Program.ask (.pause micros) next) = p at h
  cases h with
  | reads => exact absurd (Option.some.inj hp).symm attempts_ne_pause
  | swaps => cases hp
  | @pauses tries left t count few valid now =>
    cases hp
    have events : (tries ++ [t]).flatMap (Attempt.events a.key i) =
        tries.flatMap (Attempt.events a.key i) ++ (t.events a.key i).take 2 ++
          [.paused i t.micros] := by
      simp [Attempt.events]
    rw [← events]
    refine .reads _ (by simpa [Nat.add_assoc, Nat.add_comm 1] using count) (by simpa using few) ?_
    simpa [or_imp, forall_and] using ⟨valid, now⟩
  | ends => cases hp
  | returned => cases hp

/-- The answer comes back. -/
theorem answered {answer : Answer}
    (h : Course element a f encode limit i entry writes own (some (.done answer))) :
    Course element a f encode limit i entry writes (own ++ [.answered i answer]) none := by
  generalize hp : some (Program.done answer) = p at h
  cases h with
  | @reads tries left count few valid =>
    refine .returned ?_
    rw [length_events]
    omega
  | swaps => cases hp
  | pauses => cases hp
  | ends bounded => exact .returned bounded
  | returned => cases hp

theorem length_le (h : Course element a f encode limit i entry writes own p) :
    own.length ≤ 3 * limit + 1 := by
  cases h with
  | reads tries count =>
    rw [length_events]
    omega
  | swaps count =>
    rw [List.length_append, length_events, List.length_take]
    omega
  | pauses count =>
    rw [List.length_append, length_events, List.length_take]
    omega
  | ends bounded => omega
  | returned bounded =>
    rw [List.length_append, List.length_singleton]
    omega

/-- A call that gives up has failed as often as it may, each time because others have written. -/
theorem exists_tries {place : String} {n : Nat}
    (h : Course element a f encode limit i entry writes own
      (some (.done (.fault (.store (.exhausted place n)))))) :
    place = a.key.text ∧ n = limit ∧ limit ≤ writes ∧
      ∃ tries : List Attempt, tries.length = limit ∧
        own = tries.flatMap (Attempt.events a.key i) ∧ ∀ t ∈ tries, t.Valid element f := by
  generalize hp : some (Program.done (Answer.fault (.store (.exhausted place n)))) = p at h
  cases h with
  | @reads tries left count few valid =>
    obtain ⟨rfl, gaveUp⟩ := of_attempts_eq_done (Option.some.inj hp).symm
    cases gaveUp
    exact ⟨rfl, rfl, count ▸ few, tries, count, rfl, valid⟩
  | swaps => cases hp
  | pauses => cases hp
  | ends bounded decided =>
    cases hp
    exact absurd ⟨_, _, rfl⟩ decided
  | returned => cases hp

end Course

namespace Contest

variable {element : Decoder Value} {a : Atom} {b : Backend} {r : Contest} {i : Nat}
  {s : DataSettings} {call : Call} {f : Value → Reply (Bool × Value)} {encode : Bool → Answer}
  {before during after : List Event}

/-- How often others than a call have written the atom. -/
def rivals (b : Backend) (a : Atom) (i : Nat) (during : List Event) : Nat :=
  during.countP (Event.isRival b a.key i)

/-- The requests, pauses and answer of a call. -/
def own (i : Nat) (during : List Event) : List Event := during.filter (Event.isBy i)

theorem rivals_snoc (during : List Event) (ev : Event) : rivals b a i (during ++ [ev]) =
    rivals b a i during + if ev.isRival b a.key i then 1 else 0 := by
  simp [rivals, List.countP_append, List.countP_cons]

theorem own_snoc (during : List Event) (ev : Event) :
    own i (during ++ [ev]) = if ev.isBy i then own i during ++ [ev] else own i during := by
  by_cases h : ev.isBy i <;> simp [own, h]

theorem course_start (updates : call.Updates f encode)
    (entry : Except StoreError (Option Entry)) :
    Course element a f encode (attemptLimit s) i entry 0 [] (some (call.program element s a)) := by
  cases updates with
  | set g => exact .reads [] (Nat.zero_add _) (Nat.le_refl 0) nofun
  | transact => exact .reads [] (Nat.zero_add _) (Nat.le_refl 0) nofun

/-- An entry that stands there after an event that was no write stood there before. -/
theorem Moves.entry_of_not_wrote {ev : Event} {running : Nat → Option (Program Answer)}
    (moves : r.Moves element a ev running) (same : r.backend.same = b.same) {key : Key}
    (quiet : ev.wrote b key = false) {e : Entry}
    (after : (ev.effect r.backend).entry key = .ok (some e)) :
    r.backend.entry key = .ok (some e) := by
  cases moves with
  | ask asks =>
    rw [Event.wrote, ← same] at quiet
    exact Backend.entry_of_not_wrote quiet after
  | other c =>
    rw [Event.wrote, ← same] at quiet
    exact Backend.entry_of_not_wrote quiet after
  | call | pause | answer => exact after

theorem Moves.running_of_not_by {ev : Event} {running : Nat → Option (Program Answer)}
    (moves : r.Moves element a ev running) (notBy : ev.isBy i = false) :
    running i = r.running i := by
  cases moves with
  | other c => rfl
  | call | ask | pause | answer =>
    exact Function.update_of_ne (Ne.symm (by simpa [Event.isBy] using notBy)) _ _

/-- A call keeps to its course with every step. -/
theorem Moves.course {ev : Event} {running : Nat → Option (Program Answer)}
    (moves : r.Moves element a ev running) (updates : call.Updates f encode)
    (same : r.backend.same = b.same) (mine : .called i s call ∈ r.log)
    (h : Course element a f encode (attemptLimit s) i (r.backend.entry a.key) (rivals b a i during)
      (own i during) (r.running i)) :
    Course element a f encode (attemptLimit s) i ((ev.effect r.backend).entry a.key)
      (rivals b a i (during ++ [ev])) (own i (during ++ [ev])) (running i) := by
  rw [rivals_snoc, own_snoc]
  cases isBy : ev.isBy i with
  | false =>
    -- The call itself stays where it is, and its swap will meet another entry only after a write.
    rw [moves.running_of_not_by isBy]
    refine h.foreign (Nat.le_add_right _ _) fun e after => ?_
    cases wrote : ev.wrote b a.key with
    | false => exact .inl (moves.entry_of_not_wrote same wrote after)
    | true => exact .inr (by simp [Event.isRival, isBy, wrote])
  | true =>
    have notRival : ev.isRival b a.key i = false := by simp [Event.isRival, isBy]
    rw [notRival]
    cases moves with
    | call s' call' new =>
      obtain rfl := of_decide_eq_true isBy
      exact absurd mine (new s call)
    | ask asks =>
      obtain rfl := of_decide_eq_true isBy
      rw [asks] at h
      rw [Function.update_self]
      exact h.asked updates
    | pause asks =>
      obtain rfl := of_decide_eq_true isBy
      rw [asks] at h
      rw [Function.update_self]
      exact h.paused
    | answer done =>
      obtain rfl := of_decide_eq_true isBy
      rw [done] at h
      rw [Function.update_self]
      exact h.answered
    | other c => cases isBy

/-- A call keeps to its course, whatever the others do. -/
theorem Run.course (run : Run element a b r) (updates : call.Updates f encode)
    (hlog : r.log = before ++ .called i s call :: during) :
    Course element a f encode (attemptLimit s) i (r.backend.entry a.key) (rivals b a i during)
      (own i during) (r.running i) := by
  induction run generalizing during with
  | start => simp at hlog
  | @step r ev running run moves ih =>
    rcases append_singleton_eq hlog with ⟨-, rfl, rfl⟩ | ⟨during, rfl, earlier⟩
    · cases moves with
      | call =>
        simp only [Function.update_self]
        exact course_start updates _
    · exact moves.course updates run.same_eq (by simp [earlier]) (ih earlier)

/-- A call can go on as long as it is under way. -/
theorem exists_moves {limit writes : Nat} {entry : Except StoreError (Option Entry)}
    {events : List Event} {p : Program Answer}
    (h : Course element a f encode limit i entry writes events (some p))
    (now : r.running i = some p) :
    ∃ ev running, r.Moves element a ev running ∧ ev.isBy i = true := by
  generalize hp : some p = p' at h
  cases h with
  | @reads tries left count few valid =>
    cases left with
    | zero => exact ⟨_, _, .answer (now.trans hp), by simp [Event.isBy]⟩
    | succ left =>
      rw [run_attempts] at hp
      exact ⟨_, _, .ask (now.trans hp), by simp [Event.isBy]⟩
  | swaps => exact ⟨_, _, .ask (now.trans hp), by simp [Event.isBy]⟩
  | pauses => exact ⟨_, _, .pause (now.trans hp), by simp [Event.isBy]⟩
  | ends => exact ⟨_, _, .answer (now.trans hp), by simp [Event.isBy]⟩
  | returned => cases hp

/-- What a read showed was the entry at that time. -/
theorem Run.current (run : Run element a b r) {e : Entry}
    (hlog : r.log = before ++ .asked i (.getVersioned a.key) (.ok (some e)) :: after) :
    (backendAfter b before).entry a.key = .ok (some e) := by
  obtain ⟨r', running, run', rfl, moves⟩ := run.at_event hlog
  rw [← run'.backend_eq]
  generalize hev : Event.asked i (.getVersioned a.key) (.ok (some e)) = ev at moves
  cases moves with
  | ask asks =>
    injection hev with _ command answer
    subst command
    exact (Backend.run_getVersioned _ _).symm.trans (eq_of_heq answer).symm
  | _ => cases hev

theorem not_wrote_of_mem {ev : Event} {key : Key} {tries : List Attempt}
    (h : ev ∈ tries.flatMap (Attempt.events key i)) : ev.wrote b key = false := by
  obtain ⟨t, -, hev⟩ := List.mem_flatMap.1 h
  simp only [Attempt.events, List.mem_cons, List.not_mem_nil, or_false] at hev
  rcases hev with rfl | rfl | rfl
  · exact Bool.and_false _
  · exact Bool.and_false _
  · rfl

theorem attemptLimit_eq (bound : s.retries.toNat + 1 < UInt32.size) :
    attemptLimit s = s.retries.toNat + 1 := by
  simp only [UInt32.size] at bound
  unfold attemptLimit
  omega

/-- What is known of a call while it is under way and after: it takes a bounded number of steps, it
can take the next one, and it is answered when there is none left. -/
structure UnderWay (element : Decoder Value) (a : Atom) (i bound : Nat) (during : List Event)
    (r : Contest) : Prop where
  bounded : (own i during).length ≤ bound
  goesOn : r.running i ≠ none → ∃ ev running, r.Moves element a ev running ∧ ev.isBy i = true
  ended : r.running i = none → ∃ answer, .answered i answer ∈ during

theorem Run.underWay (run : Run element a b r) (updates : call.Updates f encode)
    (bound : s.retries.toNat + 1 < UInt32.size)
    (hlog : r.log = before ++ .called i s call :: during) :
    UnderWay element a i (3 * (s.retries.toNat + 1) + 1) during r := by
  have course := run.course updates hlog
  rw [attemptLimit_eq bound] at course
  refine ⟨course.length_le, fun underWay => ?_, fun none => ?_⟩
  · obtain ⟨p, now⟩ := Option.ne_none_iff_exists'.1 underWay
    exact exists_moves (now ▸ course) now
  · rw [none] at course
    generalize hown : own i during = events at course
    cases course with
    | @returned events answer bounded =>
      have mem : .answered i answer ∈ own i during := by simp [hown]
      exact ⟨answer, (List.mem_filter.1 mem).1⟩

/-- A call that is left alone is answered, and the others wait meanwhile. -/
theorem Run.finishes (run : Run element a b r) (updates : call.Updates f encode)
    (bound : s.retries.toNat + 1 < UInt32.size)
    (hlog : r.log = before ++ .called i s call :: during) :
    ∃ r' later, Run element a b r' ∧ r'.log = r.log ++ later ∧ r'.running i = none ∧
      (∀ ev ∈ later, ev.isBy i = true ∧ ∀ s c, ev ≠ .called i s c) ∧
      ∀ j, j ≠ i → r'.running j = r.running j := by
  -- By the number of steps that the call may take yet.
  induction hsteps : 3 * (s.retries.toNat + 1) + 1 - (own i during).length
    using Nat.strong_induction_on generalizing r during with
  | _ steps ih =>
    by_cases idle : r.running i = none
    · exact ⟨r, [], run, by simp, idle, by simp, fun _ _ => rfl⟩
    · obtain ⟨ev, running, moves, isBy⟩ := (run.underWay updates bound hlog).goesOn idle
      have longer : r.log ++ [ev] = before ++ .called i s call :: (during ++ [ev]) := by
        simp [hlog]
      have bounded := ((run.step moves).underWay updates bound longer).bounded
      rw [own_snoc, if_pos isBy, List.length_append, List.length_singleton] at bounded
      obtain ⟨r', later, run', hlog', idle', mine, others⟩ :=
        ih (steps - 1) (by omega) (run.step moves) longer (by
          rw [own_snoc, if_pos isBy, List.length_append, List.length_singleton]
          omega)
      have notCalled : ∀ s c, ev ≠ .called i s c := by
        rintro s' call' rfl
        cases moves with
        | call _ _ new => exact new s call (by simp [hlog])
      refine ⟨r', ev :: later, run', by simp [hlog'], idle', ?_, fun j hj => ?_⟩
      · exact List.forall_mem_cons.2 ⟨⟨isBy, notCalled⟩, mine⟩
      · exact (others j hj).trans (moves.running_of_not_by (ev.not_isBy_of_ne isBy hj))

/-- What is known of a call that has been answered. It gives up only if others have written more
often than it may try again; then it has tried as often as it may, and has written nothing. -/
structure Answered (element : Decoder Value) (a : Atom) (b : Backend) (i retries : Nat)
    (f : Value → Reply (Bool × Value)) (before during : List Event) (answer : Answer) : Prop where
  decided : rivals b a i during ≤ retries → ¬ answer.GivesUp
  place : ∀ {place n}, answer = .fault (.store (.exhausted place n)) → place = a.key.text
  attempts : ∀ {place n}, answer = .fault (.store (.exhausted place n)) → n = retries + 1
  tries : answer.GivesUp → ∃ tries : List Attempt, tries.length = retries + 1 ∧
    own i during = tries.flatMap (Attempt.events a.key i) ∧ ∀ t ∈ tries, t.Valid element f
  current : ∀ {d d' e}, during = d ++ .asked i (.getVersioned a.key) (.ok (some e)) :: d' →
    (backendAfter b (before ++ d)).entry a.key = .ok (some e)
  nothing : answer.GivesUp → ∀ ev ∈ during, ev.isBy i = true → ev.wrote b a.key = false

theorem Run.answered (run : Run element a b r) (updates : call.Updates f encode)
    (bound : s.retries.toNat + 1 < UInt32.size) {answer : Answer}
    (hlog : r.log = before ++ .called i s call :: (during ++ .answered i answer :: after)) :
    Answered element a b i s.retries.toNat f (before ++ [.called i s call]) during answer := by
  have asAnswered : r.log =
      (before ++ .called i s call :: during) ++ .answered i answer :: after := by
    simpa using hlog
  obtain ⟨r', running, run', hlog', moves⟩ := run.at_event asAnswered
  have course := run'.course updates hlog'
  rw [attemptLimit_eq bound] at course
  have done : r'.running i = some (.done answer) := by
    cases moves
    assumption
  rw [done] at course
  refine ⟨?_, ?_, ?_, ?_, ?_, ?_⟩
  · rintro few ⟨place, n, rfl⟩
    obtain ⟨-, -, many, -⟩ := course.exists_tries
    omega
  · rintro place n rfl
    exact course.exists_tries.1
  · rintro place n rfl
    exact course.exists_tries.2.1
  · rintro ⟨place, n, rfl⟩
    exact course.exists_tries.2.2.2
  · rintro d d' e rfl
    have asRead : r.log = (before ++ [.called i s call] ++ d) ++
        .asked i (.getVersioned a.key) (.ok (some e)) :: (d' ++ .answered i answer :: after) := by
      simpa using hlog
    exact run.current asRead
  · rintro ⟨place, n, rfl⟩ ev mem isBy
    obtain ⟨-, -, -, tries, -, heq, -⟩ := course.exists_tries
    have mine : ev ∈ own i during := List.mem_filter.2 ⟨mem, isBy⟩
    rw [heq] at mine
    exact not_wrote_of_mem mine

/-- A call gives up when the atom is written anew in each of its attempts. -/
theorem Run.overtaken {current next : Value} {limit left : Nat} {e : Entry}
    (run : Run element a b r) (updated : f current = .ok (true, next))
    (read : element.ofBytes e.data = .ok current) (entry : r.backend.entry a.key = .ok (some e))
    (now : r.running i =
      some (Answer.ofTransaction encode <$> (attempts element a f limit left).run)) :
    ∃ r' later, Run element a b r' ∧ r'.log = r.log ++ later ∧ rivals b a i later = left ∧
      r'.running i = some (.done (.fault (.store (.exhausted a.key.text limit)))) := by
  induction left generalizing r e with
  | zero => exact ⟨r, [], run, by simp, rfl, now⟩
  | succ left ih =>
    -- Somebody writes the data that the attempt has read once more, so that its swap comes too late.
    let swap : StoreCommand := .compareAndSwap a.key e.version next.json.toBytes
    let anew : StoreCommand := .overwrite a.key e.data
    have unchanged : (r.backend.run (.getVersioned a.key)).2 = r.backend :=
      Backend.run_of_isRead rfl
    obtain ⟨accepted, written⟩ : (r.backend.run anew).1 = .ok () ∧
        (r.backend.run anew).2.entry a.key = .ok (some ⟨e.version + 1, e.data⟩) :=
      Backend.run_act (c := anew) entry
    have newer : swap.act (some ⟨e.version + 1, e.data⟩) =
        (.ok false, some ⟨e.version + 1, e.data⟩) := if_neg (by simp)
    obtain ⟨swapped, kept⟩ := Backend.run_act (c := swap) written
    rw [newer] at swapped kept
    rw [run_attempts] at now
    have read₁ := run.step (.ask now)
    rw [Event.effect, unchanged, Backend.run_getVersioned, entry] at read₁
    simp only [found, read, updated] at read₁
    have run₃ := (read₁.step (.other anew)).step (.ask (Function.update_self ..))
    rw [Event.effect, Event.effect, accepted, swapped] at run₃
    have run₄ := run₃.step (.pause (Function.update_self ..))
    obtain ⟨r', later, run', log, many, done⟩ := ih run₄ (e := ⟨e.version + 1, e.data⟩) read kept
      (Function.update_self ..)
    simp only [List.append_assoc] at log
    refine ⟨r', _, run', log, ?_, done⟩
    have wrote : Event.wrote b a.key (.other anew (.ok ())) = true := by
      rw [Event.wrote, StoreCommand.key, b.same_self]
      rfl
    simp [rivals, Event.isRival, Event.isBy, wrote, ← many]

end Contest

end Atom

end WorkflowEngine
