import Mathlib
import WorkflowEngine.Proofs.AtomLinearizability
import WorkflowEngine.Proofs.NormalForm
import WorkflowEngine.Proofs.TransactProgress
/-!
Clients that each add one to an atom. As many of them as there are attempts never get in each
other's way so often that one gives up, and none of the additions is lost.
-/
set_option autoImplicit false

namespace WorkflowEngine

namespace Atom

/-- A number as a value. -/
def count (n : Nat) : Value := .ofUInt64 (.ofNat n)

theorem ofBytes_count (n : Nat) : Decoder.value.ofBytes (count n).json.toBytes = .ok (count n) := by
  have exact : (count n).json.Exact := trivial
  rw [Decoder.ofBytes_toBytes _ exact]
  exact Decoder.restores_value _ _ (Nat.zero_le _)

/-- Whether an update adds one to every number below `k`. -/
def AddsOne (k : Nat) (f : Value → Reply (Bool × Value)) : Prop :=
  ∀ n < k, f (count n) = .ok (true, count (n + 1))

/-- The program of a call that has not added yet, when `n` calls have. It has failed at most `n`
times, and what it is about to write belongs to the version that it has read. -/
inductive Adding (element : Decoder Value) (a : Atom) (k : Nat) (first : UInt64) (n : Nat) :
    Program Answer → Prop
  | reads {f : Value → Reply (Bool × Value)} {limit left : Nat} (adds : AddsOne k f)
      (enough : k ≤ limit) (room : limit ≤ left + n) :
      Adding element a k first n
        (Answer.ofTransaction .applied <$> (attempts element a f limit left).run)
  | swaps {f : Value → Reply (Bool × Value)} {limit left m : Nat} (adds : AddsOne k f)
      (enough : k ≤ limit) (old : m ≤ n) (room : limit ≤ left + 1 + m) :
      Adding element a k first n
        (.ask (.store (.compareAndSwap a.key (first + .ofNat m) (count (m + 1)).json.toBytes))
          fun answer => Answer.ofTransaction .applied <$> written element a f limit left answer)
  | pauses {f : Value → Reply (Bool × Value)} {limit left micros : Nat} (adds : AddsOne k f)
      (enough : k ≤ limit) (room : limit ≤ left + n) :
      Adding element a k first n
        (.ask (.pause micros) fun _ =>
          Answer.ofTransaction .applied <$> (attempts element a f limit left).run)

theorem Adding.mono {element : Decoder Value} {a : Atom} {k m n : Nat} {first : UInt64}
    {p : Program Answer} (h : Adding element a k first m p) (le : m ≤ n) :
    Adding element a k first n p := by
  cases h with
  | reads adds enough room => exact .reads adds enough (by omega)
  | swaps adds enough old room => exact .swaps adds enough (by omega) room
  | pauses adds enough room => exact .pauses adds enough (by omega)

namespace Contest

/-- Whether nobody but `k` clients at most uses an atom, and each of them only adds one to it, once,
and may try `retries` times again. -/
structure Adds (a : Atom) (b : Backend) (k retries : Nat) (log : List Event) : Prop where
  calls : ∀ {i s call}, .called i s call ∈ log → i < k ∧ retries ≤ s.retries.toNat ∧
    ∃ f, call = .transact f ∧ AddsOne k f
  others : ∀ {c answer}, .other c answer ∈ log → b.same c.key a.key = false

theorem Adds.of_append {a : Atom} {b : Backend} {k retries : Nat} {log later : List Event}
    (h : Adds a b k retries (log ++ later)) : Adds a b k retries log where
  calls mem := h.calls (List.mem_append_left _ mem)
  others mem := h.others (List.mem_append_left _ mem)

/-- The steps of a call that has been made bring nothing new. -/
theorem Adds.append {a : Atom} {b : Backend} {k retries i : Nat} {log later : List Event}
    (h : Adds a b k retries log)
    (mine : ∀ ev ∈ later, ev.isBy i = true ∧ ∀ s c, ev ≠ .called i s c) :
    Adds a b k retries (log ++ later) where
  calls mem := by
    rcases List.mem_append.1 mem with mem | mem
    · exact h.calls mem
    · obtain ⟨isBy, new⟩ := mine _ mem
      obtain rfl := of_decide_eq_true isBy
      exact absurd rfl (new _ _)
  others mem := by
    rcases List.mem_append.1 mem with mem | mem
    · exact h.others mem
    · cases (mine _ mem).1

/-- What holds all the time, with those that have added. -/
structure Tally (element : Decoder Value) (a : Atom) (k : Nat) (first : UInt64) (r : Contest)
    (added : Finset Nat) : Prop where
  entry : r.backend.entry a.key =
    .ok (some ⟨first + .ofNat added.card, (count added.card).json.toBytes⟩)
  inside : added ⊆ Finset.range k
  called : ∀ {i}, i ∈ added ∨ r.running i ≠ none → ∃ s call, .called i s call ∈ r.log
  turn : ∀ {i p}, r.running i = some p → (i ∈ added ∧ p = .done (.applied true)) ∨
    (i ∉ added ∧ i < k ∧ Adding element a k first added.card p)
  answered : ∀ {i answer}, .answered i answer ∈ r.log → i ∈ added ∧ answer = .applied true

namespace Tally

variable {element : Decoder Value} {a : Atom} {b b' : Backend} {k i : Nat} {first : UInt64}
  {r : Contest} {added added' : Finset Nat} {ev : Event} {p : Program Answer}

/-- As long as one of the clients has not added, there are fewer that have than clients. -/
theorem card_lt (h : Tally element a k first r added) (inside : i < k) (notAdded : i ∉ added) :
    added.card < k := by
  have all := Finset.card_le_card (Finset.insert_subset (Finset.mem_range.2 inside) h.inside)
  rw [Finset.card_insert_of_notMem notAdded, Finset.card_range] at all
  exact all

theorem start (entry : b.entry a.key = .ok (some ⟨first, (count 0).json.toBytes⟩)) :
    Tally element a k first ⟨b, fun _ => none, []⟩ ∅ where
  entry := by simpa using entry
  inside := Finset.empty_subset _
  called := by simp
  turn := nofun
  answered := by simp

/-- A step of one call, which may have added by it. -/
theorem advance (h : Tally element a k first r added) (grows : added ⊆ added')
    (noOther : ∀ {j}, j ≠ i → j ∈ added' → j ∈ added) (inside : added' ⊆ Finset.range k)
    (entry : b'.entry a.key =
      .ok (some ⟨first + .ofNat added'.card, (count added'.card).json.toBytes⟩))
    (called : ∃ s call, .called i s call ∈ r.log ++ [ev])
    (turn : (i ∈ added' ∧ p = .done (.applied true)) ∨
      (i ∉ added' ∧ i < k ∧ Adding element a k first added'.card p))
    (quiet : ∀ j answer, ev ≠ .answered j answer) :
    Tally element a k first ⟨b', Function.update r.running i (some p), r.log ++ [ev]⟩ added' where
  entry := entry
  inside := inside
  called {j} hj := by
    by_cases hne : j = i
    · exact hne ▸ called
    · have underWay : r.running j ≠ none ↔ Function.update r.running i (some p) j ≠ none := by
        rw [Function.update_of_ne hne]
      obtain ⟨s, call, mem⟩ := h.called (hj.imp (noOther hne) underWay.2)
      exact ⟨s, call, List.mem_append_left _ mem⟩
  turn {j q} hp := by
    have now : Function.update r.running i (some p) j = some q := hp
    rcases running_cases now with ⟨rfl, hq⟩ | ⟨hne, hq⟩
    · cases hq
      exact turn
    · rcases h.turn hq with ⟨hj, hq⟩ | ⟨hj, hk, adding⟩
      · exact .inl ⟨grows hj, hq⟩
      · exact .inr ⟨fun mem => hj (noOther hne mem), hk, adding.mono (Finset.card_le_card grows)⟩
  answered mem := by
    rcases List.mem_append.1 mem with mem | mem
    · obtain ⟨hj, heq⟩ := h.answered mem
      exact ⟨grows hj, heq⟩
    · exact absurd (List.mem_singleton.1 mem).symm (quiet _ _)

/-- A step by which a call adds nothing. -/
theorem goesOn (h : Tally element a k first r added)
    (entry : b'.entry a.key = r.backend.entry a.key) (notAdded : i ∉ added) (inside : i < k)
    (adding : Adding element a k first added.card p)
    (called : ∃ s call, .called i s call ∈ r.log ++ [ev])
    (quiet : ∀ j answer, ev ≠ .answered j answer) :
    Tally element a k first ⟨b', Function.update r.running i (some p), r.log ++ [ev]⟩ added :=
  h.advance (Finset.Subset.refl _) (fun _ hj => hj) h.inside (entry.trans h.entry) called
    (.inr ⟨notAdded, inside, adding⟩) quiet

/-- A swap that succeeds: the call has added. -/
theorem adds (h : Tally element a k first r added)
    (entry : b'.entry a.key = .ok (some ⟨first + .ofNat added.card + 1,
      (count (added.card + 1)).json.toBytes⟩))
    (notAdded : i ∉ added) (inside : i < k)
    (called : ∃ s call, .called i s call ∈ r.log ++ [ev])
    (quiet : ∀ j answer, ev ≠ .answered j answer) :
    Tally element a k first
      ⟨b', Function.update r.running i (some (.done (.applied true))), r.log ++ [ev]⟩
      (insert i added) := by
  have version : first + .ofNat (added.card + 1) = first + .ofNat added.card + 1 := by
    rw [UInt64.ofNat_add, ← UInt64.add_assoc]
    rfl
  refine h.advance (Finset.subset_insert _ _) (fun hne hj => Finset.mem_of_mem_insert_of_ne hj hne)
    (Finset.insert_subset (Finset.mem_range.2 inside) h.inside) ?_ called
    (.inl ⟨Finset.mem_insert_self _ _, rfl⟩) quiet
  rw [Finset.card_insert_of_notMem notAdded, version, entry]

theorem version_ne {m n : Nat} (hm : m < n) (hn : n < UInt64.size) :
    first + .ofNat n ≠ first + .ofNat m := by
  intro h
  have same := congrArg UInt64.toNat (UInt64.add_right_inj first |>.1 h)
  rw [UInt64.toNat_ofNat_of_lt' hn, UInt64.toNat_ofNat_of_lt' (hm.trans hn)] at same
  omega

/-- The store answers a request of a call. -/
theorem asked (h : Tally element a k first r added) (few : k < UInt64.size)
    {c : StoreCommand} {next : (Request.store c).Answer → Program Answer}
    (legible : ∀ n < k, element.ofBytes (count n).json.toBytes = .ok (count n))
    (asks : r.running i = some (.ask (.store c) next)) :
    ∃ added', Tally element a k first ⟨(r.backend.run c).2,
      Function.update r.running i (some (next (r.backend.run c).1)),
      r.log ++ [.asked i c (r.backend.run c).1]⟩ added' := by
  obtain ⟨s, call, mem⟩ := h.called (.inr (asks ▸ Option.some_ne_none _))
  have called : ∀ ev, ∃ s call, .called i s call ∈ r.log ++ [ev] :=
    fun ev => ⟨s, call, List.mem_append_left _ mem⟩
  rcases h.turn asks with ⟨-, hp⟩ | ⟨notAdded, inside, adding⟩
  · cases hp
  have card := h.card_lt inside notAdded
  generalize hp : Program.ask (.store c) next = p at adding
  cases adding with
  | @reads f limit left adds enough room =>
    cases left with
    | zero => cases hp
    | succ left =>
      rw [run_attempts] at hp
      cases hp
      have unchanged : (r.backend.run (.getVersioned a.key)).2 = r.backend :=
        Backend.run_of_isRead rfl
      refine ⟨added, h.goesOn (congrArg (Backend.entry · a.key) unchanged) notAdded inside ?_
        (called _) (by simp)⟩
      rw [Backend.run_getVersioned, h.entry]
      simp only [Atom.found, legible _ card, adds _ card]
      exact .swaps adds enough (Nat.le_refl _) room
  | @swaps f limit left m adds enough old room =>
    cases hp
    obtain ⟨answer, after⟩ := Backend.run_act
      (c := .compareAndSwap a.key (first + .ofNat m) (count (m + 1)).json.toBytes) h.entry
    rcases old.eq_or_lt with rfl | newer
    · rw [StoreCommand.act, if_pos rfl] at answer after
      rw [answer]
      exact ⟨insert i added, h.adds after notAdded inside (called _) (by simp)⟩
    · -- Others have added since the read, so that one more failure is paid for.
      rw [StoreCommand.act, if_neg (version_ne newer (card.trans few))] at answer after
      rw [answer]
      refine ⟨added, h.goesOn (after.trans h.entry.symm) notAdded inside ?_ (called _) (by simp)⟩
      exact .pauses adds enough (by omega)
  | pauses => cases hp

theorem paused (h : Tally element a k first r added) {micros : Nat}
    {next : (Request.pause micros).Answer → Program Answer}
    (asks : r.running i = some (.ask (.pause micros) next)) :
    Tally element a k first ⟨r.backend, Function.update r.running i (some (next ())),
      r.log ++ [.paused i micros]⟩ added := by
  obtain ⟨s, call, mem⟩ := h.called (.inr (asks ▸ Option.some_ne_none _))
  rcases h.turn asks with ⟨-, hp⟩ | ⟨notAdded, inside, adding⟩
  · cases hp
  generalize hp : Program.ask (.pause micros) next = p at adding
  cases adding with
  | reads => exact absurd hp.symm attempts_ne_pause
  | swaps => cases hp
  | pauses adds enough room =>
    cases hp
    exact h.goesOn rfl notAdded inside (.reads adds enough room)
      ⟨s, call, List.mem_append_left _ mem⟩ (by simp)

/-- A call that has not added has attempts left. -/
theorem applied (h : Tally element a k first r added) {answer : Answer}
    (done : r.running i = some (.done answer)) :
    i ∈ added ∧ answer = .applied true := by
  rcases h.turn done with ⟨mine, hp⟩ | ⟨notAdded, inside, adding⟩
  · cases hp
    exact ⟨mine, rfl⟩
  have card := h.card_lt inside notAdded
  generalize hp : Program.done answer = p at adding
  cases adding with
  | reads adds enough room =>
    obtain ⟨rfl, -⟩ := of_attempts_eq_done hp.symm
    omega
  | swaps => cases hp
  | pauses => cases hp

/-- The answer of a call comes back. -/
theorem replied (h : Tally element a k first r added) {answer : Answer}
    (done : r.running i = some (.done answer)) :
    Tally element a k first ⟨r.backend, Function.update r.running i none,
      r.log ++ [.answered i answer]⟩ added where
  entry := h.entry
  inside := h.inside
  called {j} hj := by
    obtain ⟨s, call, mem⟩ := h.called (i := j) (hj.imp_right fun underWay => by
      by_cases hne : j = i
      · rw [hne, done]
        exact Option.some_ne_none _
      · exact (Function.update_of_ne hne none r.running).symm.trans_ne underWay)
    exact ⟨s, call, List.mem_append_left _ mem⟩
  turn {j q} hp := by
    have now : Function.update r.running i none j = some q := hp
    rcases running_cases now with ⟨-, hq⟩ | ⟨-, hq⟩
    · cases hq
    · exact h.turn hq
  answered mem := by
    rcases List.mem_append.1 mem with mem | mem
    · exact h.answered mem
    · cases List.mem_singleton.1 mem
      exact h.applied done

/-- A step of anybody. -/
theorem moves (h : Tally element a k first r added) {retries : Nat} (enough : k ≤ retries + 1)
    (bound : retries + 1 < UInt32.size)
    (legible : ∀ n < k, element.ofBytes (count n).json.toBytes = .ok (count n))
    {running : Nat → Option (Program Answer)} (moves : r.Moves element a ev running)
    (same : r.backend.same = b.same) (adding : Adds a b k retries (r.log ++ [ev])) :
    ∃ added', Tally element a k first ⟨ev.effect r.backend, running, r.log ++ [ev]⟩ added' := by
  have few : k < UInt64.size := (enough.trans_lt bound).trans (by decide)
  cases moves with
  | @call i s call new =>
    have mem : .called i s call ∈ r.log ++ [.called i s call] := by simp
    obtain ⟨inside, more, f, rfl, adds⟩ := adding.calls mem
    have limit : k ≤ attemptLimit s := by
      simp only [UInt32.size] at bound
      unfold attemptLimit
      omega
    have notAdded : i ∉ added := fun hi => by
      obtain ⟨s', call', mem⟩ := h.called (.inl hi)
      exact new s' call' mem
    exact ⟨added, h.goesOn rfl notAdded inside (.reads adds limit (Nat.le_add_right _ _))
      ⟨s, _, mem⟩ (by simp)⟩
  | ask asks => exact h.asked few legible asks
  | pause asks => exact ⟨added, h.paused asks⟩
  | answer done => exact ⟨added, h.replied done⟩
  | other c =>
    have elsewhere := adding.others (List.mem_append_right _ (List.mem_singleton_self _))
    rw [← same] at elsewhere
    have kept := Backend.entry_run_of_not_same (c := c) elsewhere
    refine ⟨added, kept.trans h.entry, h.inside, ?_, h.turn, ?_⟩
    · intro j hj
      obtain ⟨s, call, mem⟩ := h.called hj
      exact ⟨s, call, List.mem_append_left _ mem⟩
    · intro j answer mem
      exact h.answered (by simpa using mem)

end Tally

/-- Whoever has added is known all the time. -/
theorem Run.exists_tally {element : Decoder Value} {a : Atom} {b : Backend} {k retries : Nat}
    {first : UInt64} {r : Contest} (run : Run element a b r) (enough : k ≤ retries + 1)
    (bound : retries + 1 < UInt32.size)
    (legible : ∀ n < k, element.ofBytes (count n).json.toBytes = .ok (count n))
    (entry : b.entry a.key = .ok (some ⟨first, (count 0).json.toBytes⟩))
    (adding : Adds a b k retries r.log) : ∃ added, Tally element a k first r added := by
  -- Nobody can tell from the store who has added, so that the set grows along with the run.
  induction run with
  | start => exact ⟨∅, .start entry⟩
  | step run moves ih =>
    obtain ⟨added, tally⟩ := ih adding.of_append
    exact tally.moves enough bound legible moves run.same_eq adding

/-- When all clients have been answered, all have added. -/
theorem Tally.entry_of_answered {element : Decoder Value} {a : Atom} {k : Nat} {first : UInt64}
    {r : Contest} {added : Finset Nat} (h : Tally element a k first r added)
    (all : ∀ i < k, ∃ answer, .answered i answer ∈ r.log) :
    r.backend.entry a.key = .ok (some ⟨first + .ofNat k, (count k).json.toBytes⟩) := by
  have everybody : added = Finset.range k := by
    refine h.inside.antisymm fun i hi => ?_
    obtain ⟨answer, mem⟩ := all i (Finset.mem_range.1 hi)
    exact (h.answered mem).1
  have entry := h.entry
  rwa [everybody, Finset.card_range] at entry

/-- Updates of an atom make progress, whatever the interleaving. A call that is under way can go on,
and is answered after a bounded number of steps of its own. It does not give up unless others have
written more often than it may try again; then it has tried as often as it may, ran the update each
time on what was stored then, and has written nothing. So clients that add one each, as many as
there are attempts, all succeed, and none of the additions is lost. -/
theorem transact_progress {element : Decoder Value} {a : Atom} {b : Backend} {r : Contest}
    (run : Run element a b r) :
    (∀ {before during : List Event} {i : Nat} {s : DataSettings} {call : Call}
      {f : Value → Reply (Bool × Value)} {encode : Bool → Answer}, call.Updates f encode →
      s.retries.toNat + 1 < UInt32.size → r.log = before ++ .called i s call :: during →
      UnderWay element a i (3 * (s.retries.toNat + 1) + 1) during r) ∧
    (∀ {before during after : List Event} {i : Nat} {s : DataSettings} {call : Call}
      {f : Value → Reply (Bool × Value)} {encode : Bool → Answer} {answer : Answer},
      call.Updates f encode →
      s.retries.toNat + 1 < UInt32.size →
      r.log = before ++ .called i s call :: (during ++ .answered i answer :: after) →
      Answered element a b i s.retries.toNat f (before ++ [.called i s call]) during answer) ∧
    ∀ {k retries : Nat} {first : UInt64}, k ≤ retries + 1 → retries + 1 < UInt32.size →
      (∀ n < k, element.ofBytes (count n).json.toBytes = .ok (count n)) →
      b.entry a.key = .ok (some ⟨first, (count 0).json.toBytes⟩) → Adds a b k retries r.log →
      (∀ i answer, .answered i answer ∈ r.log → answer = .applied true) ∧
      ((∀ i < k, ∃ answer, .answered i answer ∈ r.log) →
        r.backend.entry a.key = .ok (some ⟨first + .ofNat k, (count k).json.toBytes⟩)) := by
  refine ⟨fun updates bound hlog => run.underWay updates bound hlog,
    fun updates bound hlog => run.answered updates bound hlog,
    fun enough bound legible entry adding => ?_⟩
  obtain ⟨added, tally⟩ := run.exists_tally enough bound legible entry adding
  exact ⟨fun i answer mem => (tally.answered mem).2, tally.entry_of_answered⟩

/-- Two clients that may try twice: both are called before any of them is answered. One of them
gives up when others write twice meanwhile. -/
theorem transact_progress_two : ∃ (s : DataSettings) (a : Atom) (b : Backend) (call : Call),
    s.retries = 1 ∧ b.entry a.key = .ok (some ⟨0, (count 0).json.toBytes⟩) ∧
      (∃ r, Run Decoder.value a b r ∧
        (∃ later, r.log = .called 0 s call :: .called 1 s call :: later) ∧
        .answered 0 (.applied true) ∈ r.log ∧ .answered 1 (.applied true) ∈ r.log ∧
        r.backend.entry a.key = .ok (some ⟨2, (count 2).json.toBytes⟩)) ∧
      ∃ r during, Run Decoder.value a b r ∧ rivals b a 0 during = 2 ∧
        r.log = .called 0 s call ::
          (during ++ [.answered 0 (.fault (.store (.exhausted a.key.text 2)))]) ∧
        ∃ tries : List Attempt, tries.length = 2 ∧
          own 0 during = tries.flatMap (Attempt.events a.key 0) := by
  let s : DataSettings := .ofParts "stratus" 1 1
  let a : Atom := ⟨⟨"stratus#mutable", "counter"⟩⟩
  let b : Backend := .memory ⟨⟨[(a.key, ⟨0, (count 0).json.toBytes⟩)]⟩⟩
  let f : Value → Reply (Bool × Value) := fun v =>
    .ok (true, .ofUInt64 (v.uint64?.getD 0 + 1))
  have entry : b.entry a.key = .ok (some ⟨0, (count 0).json.toBytes⟩) := rfl
  have bound : s.retries.toNat + 1 < UInt32.size := by decide
  have addsOne : AddsOne 2 f := by
    intro n hn
    obtain rfl | rfl : n = 0 ∨ n = 1 := by omega
    · rfl
    · rfl
  let running : Nat → Option (Program Answer) := Function.update (fun _ => none) 0
    (some (Call.program Decoder.value s a (.transact f)))
  have called : Run Decoder.value a b ⟨b, running, [.called 0 s (.transact f)]⟩ :=
    Run.start.step (.call s (.transact f) fun _ _ => List.not_mem_nil)
  refine ⟨s, a, b, .transact f, rfl, entry, ?_, ?_⟩
  · have both := called.step (.call (i := 1) s (.transact f) (by simp))
    have log : [Event.called 0 s (.transact f)] ++ [.called 1 s (.transact f)] =
        [] ++ .called 0 s (.transact f) :: [.called 1 s (.transact f)] := rfl
    obtain ⟨r₁, later₁, run₁, log₁, idle₁, mine₁, -⟩ := both.finishes (.transact f) bound log
    have log : r₁.log = [.called 0 s (.transact f)] ++ .called 1 s (.transact f) :: later₁ := by
      simp [log₁]
    obtain ⟨r₂, later₂, run₂, log₂, idle₂, mine₂, others₂⟩ := run₁.finishes (.transact f) bound log
    have log₀ : r₂.log = [] ++ .called 0 s (.transact f) ::
        .called 1 s (.transact f) :: (later₁ ++ later₂) := by
      simp [log₂, log₁]
    have log₁' : r₂.log = [.called 0 s (.transact f)] ++
        .called 1 s (.transact f) :: (later₁ ++ later₂) := log₀
    obtain ⟨underWay, -, adding⟩ := transact_progress run₂
    obtain ⟨answer₀, mem₀⟩ := (underWay (.transact f) bound log₀).ended
      ((others₂ 0 (by decide)).trans idle₁)
    obtain ⟨answer₁, mem₁⟩ := (underWay (.transact f) bound log₁').ended idle₂
    have adds : Adds a b 2 1 r₂.log := by
      rw [log₂, log₁]
      refine Adds.append (Adds.append ⟨fun mem => ?_, by simp⟩ mine₁) mine₂
      obtain ⟨rfl, rfl, rfl⟩ | ⟨rfl, rfl, rfl⟩ := by simpa using mem
      · exact ⟨by decide, Nat.le_refl 1, f, rfl, addsOne⟩
      · exact ⟨by decide, Nat.le_refl 1, f, rfl, addsOne⟩
    have in₀ : .answered 0 answer₀ ∈ r₂.log := log₀ ▸ List.mem_cons_of_mem _ mem₀
    have in₁ : .answered 1 answer₁ ∈ r₂.log :=
      log₀ ▸ List.mem_cons_of_mem _ (List.mem_cons_of_mem _ mem₁)
    obtain ⟨applied, all⟩ := adding (by decide) (by decide) (fun n _ => ofBytes_count n) entry adds
    obtain rfl := applied _ _ in₀
    obtain rfl := applied _ _ in₁
    refine ⟨r₂, run₂, ⟨_, log₀⟩, in₀, in₁, all fun i hi => ?_⟩
    obtain rfl | rfl : i = 0 ∨ i = 1 := by omega
    · exact ⟨_, in₀⟩
    · exact ⟨_, in₁⟩
  · have asked : running 0 =
        some (Answer.ofTransaction .applied <$> (attempts Decoder.value a f 2 2).run) := rfl
    obtain ⟨r, during, run, log, many, done⟩ := called.overtaken (i := 0) (addsOne 0 (by decide))
      (ofBytes_count 0) entry asked
    have ended := run.step (.answer done)
    have log' : r.log ++ [Event.answered 0 (.fault (.store (.exhausted a.key.text 2)))] =
        [] ++ .called 0 s (.transact f) ::
          (during ++ [.answered 0 (.fault (.store (.exhausted a.key.text 2)))]) := by
      simp [log]
    obtain ⟨-, answered, -⟩ := transact_progress ended
    obtain ⟨tries, length, mine, -⟩ := (answered (.transact f) bound log').tries
      ⟨_, _, rfl⟩
    exact ⟨_, during, ended, many, log', tries, length, mine⟩

end Contest

end Atom

end WorkflowEngine
