import Mathlib
import WorkflowEngine.Proofs.CachedKeys
import WorkflowEngine.Proofs.Lookups
import WorkflowEngine.Registry.Builtin
import WorkflowEngine.Scope.Timeline
/-!
The retries of a delivery, on sinks whose appends are planned. The attempts before the one that a
delivery ends with have all stored nothing, which gives the time at which each of them starts.
-/
set_option autoImplicit false

namespace WorkflowEngine

/-! Waits that are not cut short. -/

theorem waitMillis_of_le {millis : Nat} (h : millis ≤ longestWait) : waitMillis millis = millis :=
  Nat.min_eq_left h

theorem millisOf_whole (millis : Nat) : millisOf (millis * 1000) = waitMillis millis :=
  congrArg waitMillis (by omega)

namespace AppendPlan

/-- Whether an append stores its entry before a limit. -/
def inTime (limit : Nat) : AppendPlan → Bool
  | .takes millis => decide (millis < limit)
  | .fails | .hangs => false

/-- How long an attempt takes that is cut off at a limit. -/
def lasts (limit : Nat) : AppendPlan → Nat
  | .fails => 0
  | .takes millis => min millis limit
  | .hangs => limit

theorem lasts_le (limit : Nat) (a : AppendPlan) : a.lasts limit ≤ limit := by
  cases a with
  | fails => exact Nat.zero_le _
  | takes millis => exact Nat.min_le_right _ _
  | hangs => exact Nat.le_refl _

end AppendPlan

namespace PlannedSink

/-- How an append ends that `j` others come before. Beyond its plan a sink stores at once. -/
def upcoming (s : PlannedSink) (j : Nat) : AppendPlan := s.plan[j]?.getD (.takes 0)

theorem attempt_eq {s : PlannedSink} {e : LogEntry} {limit : Nat} {a : AppendPlan}
    (range : limit < longestWait) (untied : a ≠ .takes limit) :
    s.attempt e limit a = (a.inTime limit, { s with
      now := s.now + a.lasts limit
      stored := if a.inTime limit then s.stored ++ [e] else s.stored }) := by
  have whole : waitMillis limit = limit := waitMillis_of_le (Nat.le_of_lt range)
  cases a with
  | fails => simp [attempt, AppendPlan.inTime, AppendPlan.lasts]
  | hangs => simp [attempt, AppendPlan.inTime, AppendPlan.lasts, whole]
  | takes millis =>
    have apart : millis ≠ limit := fun h => untied (congrArg _ h)
    by_cases early : millis < limit
    · have same : waitMillis millis = millis := waitMillis_of_le (by omega)
      have reached : waitMillis millis ≤ waitMillis limit := by omega
      simp [attempt, AppendPlan.inTime, AppendPlan.lasts, early, early.le, same, whole]
    · have late : limit < waitMillis millis := by
        unfold waitMillis
        omega
      have cut : min millis limit = limit := by omega
      simp [attempt, AppendPlan.inTime, AppendPlan.lasts, early, late, cut, whole]

end PlannedSink

namespace DeliveryPolicy

/-- Whether the waits of a policy can be represented as they are. -/
structure InRange (p : DeliveryPolicy) : Prop where
  attempts : p.attempts ≤ 32
  timeout : p.timeoutMillis < longestWait
  pauses : ∀ j, j + 1 < p.attempts → p.backoffMillis * 2 ^ j ≤ longestWait

/-- The last pause is the longest. -/
theorem inRange_of_longest {p : DeliveryPolicy} (attempts : p.attempts ≤ 32)
    (timeout : p.timeoutMillis < longestWait)
    (longest : p.backoffMillis * 2 ^ (p.attempts - 2) ≤ longestWait) : p.InRange where
  attempts := attempts
  timeout := timeout
  pauses j more := by
    have grows : 2 ^ j ≤ 2 ^ (p.attempts - 2) := Nat.pow_le_pow_right (by omega) (by omega)
    exact Nat.le_trans (Nat.mul_le_mul_left _ grows) longest

/-- When attempt `j` starts, counted from 0, if those before it store nothing. -/
def startOf (p : DeliveryPolicy) (s : PlannedSink) : Nat → Nat
  | 0 => s.now
  | j + 1 => p.startOf s j + (s.upcoming j).lasts p.timeoutMillis + p.backoffMillis * 2 ^ j

/-- The longest time that a delivery takes. -/
def allowance (p : DeliveryPolicy) : Nat :=
  p.attempts * p.timeoutMillis + p.backoffMillis * (2 ^ (p.attempts - 1) - 1)

/-- What a delivery answers and leaves when its last attempt is number `last`, counted from 0. -/
structure Ends (p : DeliveryPolicy) (e : LogEntry) (s : PlannedSink) (last : Nat) (delivered : Bool)
    (s' : PlannedSink) : Prop where
  bounded : last < p.attempts
  missed : ∀ j < last, (s.upcoming j).inTime p.timeoutMillis = false
  answer : delivered = (s.upcoming last).inTime p.timeoutMillis
  gaveUp : delivered = false → last + 1 = p.attempts
  starts : s'.starts = s.starts ++ (List.range (last + 1)).map (p.startOf s)
  now : s'.now = p.startOf s last + (s.upcoming last).lasts p.timeoutMillis
  stored : s'.stored = if delivered then s.stored ++ [e] else s.stored

variable {p : DeliveryPolicy} {e : LogEntry} {s s' : PlannedSink}

theorem attempts_pos (p : DeliveryPolicy) : 0 < p.attempts := Nat.le_max_left 1 p.maxAttempts

theorem le_startOf (p : DeliveryPolicy) (s : PlannedSink) (j : Nat) : s.now ≤ p.startOf s j := by
  induction j with
  | zero => simp [startOf]
  | succ j ih =>
    unfold startOf
    omega

theorem startOf_le (p : DeliveryPolicy) (s : PlannedSink) (j : Nat) :
    p.startOf s j ≤ s.now + j * p.timeoutMillis + p.backoffMillis * (2 ^ j - 1) := by
  induction j with
  | zero => simp [startOf]
  | succ j ih =>
    have attempt := (s.upcoming j).lasts_le p.timeoutMillis
    have pauses : p.backoffMillis * (2 ^ (j + 1) - 1) =
        p.backoffMillis * (2 ^ j - 1) + p.backoffMillis * 2 ^ j := by
      have positive := Nat.two_pow_pos j
      rw [← Nat.mul_add]
      congr 1
      omega
    calc p.startOf s (j + 1)
        ≤ s.now + j * p.timeoutMillis + p.backoffMillis * (2 ^ j - 1) + p.timeoutMillis +
            p.backoffMillis * 2 ^ j := by
          unfold startOf
          omega
      _ = s.now + (j + 1) * p.timeoutMillis + p.backoffMillis * (2 ^ (j + 1) - 1) := by
          rw [pauses]
          ring

namespace Ends

variable {last : Nat} {delivered : Bool}

theorem last_le (h : p.Ends e s last delivered s') {j : Nat}
    (hit : (s.upcoming j).inTime p.timeoutMillis = true) : last ≤ j := by
  by_contra late
  have missed := h.missed j (by omega)
  simp [hit] at missed

/-- An entry is stored when one of the attempts that may be made is in time. -/
theorem delivered_iff (h : p.Ends e s last delivered s') :
    delivered = true ↔ ∃ j < p.attempts, (s.upcoming j).inTime p.timeoutMillis = true := by
  constructor
  · intro answered
    exact ⟨last, h.bounded, h.answer ▸ answered⟩
  · rintro ⟨j, bounded, hit⟩
    by_contra missed
    have all := h.gaveUp (Bool.eq_false_iff.2 missed)
    have le := h.last_le hit
    obtain rfl : j = last := by omega
    exact missed (h.answer.trans hit)

theorem le_now (h : p.Ends e s last delivered s') : s.now ≤ s'.now := by
  rw [h.now]
  exact Nat.le_trans (p.le_startOf s last) (Nat.le_add_right _ _)

theorem now_le (h : p.Ends e s last delivered s') : s'.now ≤ s.now + p.allowance := by
  have attempt := (s.upcoming last).lasts_le p.timeoutMillis
  have start := p.startOf_le s last
  have attempts : last * p.timeoutMillis + p.timeoutMillis ≤ p.attempts * p.timeoutMillis := by
    rw [← Nat.succ_mul]
    exact Nat.mul_le_mul_right _ h.bounded
  have pauses : p.backoffMillis * (2 ^ last - 1) ≤
      p.backoffMillis * (2 ^ (p.attempts - 1) - 1) := by
    have bounded := h.bounded
    have grows : 2 ^ last ≤ 2 ^ (p.attempts - 1) := Nat.pow_le_pow_right (by omega) (by omega)
    exact Nat.mul_le_mul_left _ (Nat.sub_le_sub_right grows 1)
  rw [h.now]
  unfold allowance
  omega

end Ends

/-- The sink when attempt `k` starts and those before it have stored nothing. -/
def before (p : DeliveryPolicy) (s : PlannedSink) (k : Nat) : PlannedSink :=
  ⟨s.plan.drop k, p.startOf s k, s.starts ++ (List.range k).map (p.startOf s), s.stored⟩

/-- The sink when attempt `k` ends. -/
def after (p : DeliveryPolicy) (e : LogEntry) (s : PlannedSink) (k : Nat) : PlannedSink where
  plan := s.plan.drop (k + 1)
  now := p.startOf s k + (s.upcoming k).lasts p.timeoutMillis
  starts := s.starts ++ (List.range (k + 1)).map (p.startOf s)
  stored := if (s.upcoming k).inTime p.timeoutMillis then s.stored ++ [e] else s.stored

theorem before_zero (p : DeliveryPolicy) (s : PlannedSink) : p.before s 0 = s := by
  simp [before, startOf]

theorem serve_append {k : Nat} (range : p.InRange)
    (untied : s.upcoming k ≠ .takes p.timeoutMillis) :
    (p.before s k).serve (.append e p.timeoutMillis) =
      ((s.upcoming k).inTime p.timeoutMillis, p.after e s k) := by
  have logged : s.starts ++ (List.range k).map (p.startOf s) ++ [p.startOf s k] =
      s.starts ++ (List.range (k + 1)).map (p.startOf s) := by
    simp [List.range_succ]
  have rest : s.plan.drop k = s.plan[k]?.toList ++ s.plan.drop (k + 1) :=
    List.drop_eq_getElem?_toList_append
  cases planned : s.plan[k]? with
  | none =>
    have here : s.upcoming k = .takes 0 := by simp [PlannedSink.upcoming, planned]
    have short : s.plan.length ≤ k := List.getElem?_eq_none_iff.1 planned
    have nothing : s.plan.drop (k + 1) = [] := List.drop_eq_nil_of_le (by omega)
    have ends := PlannedSink.attempt_eq (s := ⟨[], p.startOf s k,
      s.starts ++ (List.range k).map (p.startOf s) ++ [p.startOf s k], s.stored⟩) (e := e)
      range.timeout untied
    simp only [planned, Option.toList_none, List.nil_append, nothing] at rest
    simp only [PlannedSink.serve, before, after, rest, nothing]
    rw [← here, ends, logged]
  | some a =>
    have here : s.upcoming k = a := by simp [PlannedSink.upcoming, planned]
    have ends := PlannedSink.attempt_eq (s := ⟨s.plan.drop (k + 1), p.startOf s k,
      s.starts ++ (List.range k).map (p.startOf s) ++ [p.startOf s k], s.stored⟩) (e := e)
      range.timeout untied
    simp only [planned, Option.toList_some, List.singleton_append] at rest
    simp only [PlannedSink.serve, before, after, rest]
    rw [← here, ends, logged]

theorem serve_pause {k : Nat} (range : p.InRange) (more : k + 1 < p.attempts)
    (missed : (s.upcoming k).inTime p.timeoutMillis = false) :
    (p.after e s k).serve (.pause (p.pauseMillis k * 1000)) = ((), p.before s (k + 1)) := by
  have pause : millisOf (p.pauseMillis k * 1000) = p.backoffMillis * 2 ^ k := by
    rw [millisOf_whole]
    exact waitMillis_of_le (range.pauses k more)
  simp only [PlannedSink.serve, after, before, startOf, missed, pause]
  rfl

/-- From attempt `k` on, when those before it have stored nothing and `left` may follow it. -/
theorem run_deliverFrom {k left : Nat} (range : p.InRange) (all : k + left + 1 = p.attempts)
    (untied : ∀ j < p.attempts, s.upcoming j ≠ .takes p.timeoutMillis)
    (missed : ∀ j < k, (s.upcoming j).inTime p.timeoutMillis = false) :
    ∃ last delivered s', (p.deliverFrom e k left).run PlannedSink.serve (p.before s k) =
      (delivered, s') ∧ p.Ends e s last delivered s' := by
  induction left generalizing k with
  | zero =>
    have served := serve_append (e := e) range (untied k (by omega))
    refine ⟨k, _, _, congrArg (fun r => (r.1, r.2)) served, ?_⟩
    exact ⟨by omega, missed, rfl, fun _ => by omega, rfl, rfl, rfl⟩
  | succ left ih =>
    have served := serve_append (e := e) range (untied k (by omega))
    have unfolded : (p.deliverFrom e k (left + 1)).run PlannedSink.serve (p.before s k) =
        Program.run PlannedSink.serve (p.after e s k)
          (if (s.upcoming k).inTime p.timeoutMillis then .done true
          else .ask (.pause (p.pauseMillis k * 1000)) fun _ => p.deliverFrom e (k + 1) left) := by
      have asks : p.deliverFrom e k (left + 1) =
          .ask (.append e p.timeoutMillis) fun (stored : Bool) =>
            if stored then .done true
            else .ask (.pause (p.pauseMillis k * 1000)) fun _ => p.deliverFrom e (k + 1) left := by
        refine congrArg (Program.ask _) (funext fun stored => ?_)
        cases stored with
        | true => rfl
        | false => rfl
      rw [asks]
      simp only [Program.run, served]
    rw [unfolded]
    cases hit : (s.upcoming k).inTime p.timeoutMillis with
    | true =>
      refine ⟨k, true, p.after e s k, rfl, by omega, missed, hit.symm, by simp, rfl, rfl, ?_⟩
      simp [after, hit]
    | false =>
      have missed' : ∀ j < k + 1, (s.upcoming j).inTime p.timeoutMillis = false := by
        intro j hj
        rcases Nat.lt_succ_iff_lt_or_eq.1 hj with earlier | rfl
        · exact missed j earlier
        · exact hit
      have pause := serve_pause (e := e) range (by omega) hit
      simpa [Program.run, pause] using ih (by omega) missed'

theorem run_deliver (range : p.InRange)
    (untied : ∀ j < p.attempts, s.upcoming j ≠ .takes p.timeoutMillis) :
    ∃ last delivered s', (p.deliver e).run PlannedSink.serve s = (delivered, s') ∧
      p.Ends e s last delivered s' := by
  have positive := p.attempts_pos
  have runs := @run_deliverFrom p e s 0 (p.attempts - 1) range (by omega) untied (by simp)
  rwa [before_zero] at runs

end DeliveryPolicy

namespace Timeline

/-- Whether an operation has given a value, or has been cancelled with its scope, by some time. -/
def GivesBy (limit : Nat) (scope : Scope) (v : Value) (r : Except Fault Value × Timeline) : Prop :=
  r.2.now ≤ limit ∧ r.1 = if r.2.tree.isCancelled scope then .error .cancelled else .ok v

theorem givesBy_waitUntil {scope : Scope} {due now : Nat} {v : Value} {tree : ScopeTree}
    {planned : List (Nat × Scope)} (ahead : now ≤ due) :
    GivesBy due scope v (waitUntil scope due (.ok v) tree now planned) := by
  induction planned generalizing tree now with
  | nil =>
    unfold waitUntil
    by_cases cancelled : tree.isCancelled scope = true
    · simp [GivesBy, ScopeTree.guard, cancelled, ahead]
    · by_cases ended : due ≤ now
      · simp [GivesBy, ScopeTree.guard, cancelled, ended, ahead, Except.mapError]
      · simp [GivesBy, ScopeTree.guard, cancelled, ended, Except.mapError]
  | cons plan rest ih =>
    obtain ⟨time, other⟩ := plan
    unfold waitUntil
    by_cases cancelled : tree.isCancelled scope = true
    · simp [GivesBy, ScopeTree.guard, cancelled, ahead]
    · by_cases ended : due ≤ now
      · simp [GivesBy, ScopeTree.guard, cancelled, ended, ahead, Except.mapError]
      · by_cases early : time ≤ due
        · have later : max now time ≤ due := by omega
          simpa [ScopeTree.guard, cancelled, ended, early] using ih later
        · simp [GivesBy, ScopeTree.guard, cancelled, ended, early, Except.mapError]

theorem GivesBy.mono {limit limit' : Nat} {scope : Scope} {v : Value}
    {r : Except Fault Value × Timeline} (h : GivesBy limit scope v r) (le : limit ≤ limit') :
    GivesBy limit' scope v r :=
  ⟨Nat.le_trans h.1 le, h.2⟩

end Timeline

namespace Surroundings

/-- What an operation that logs a message asks for. -/
def logs (around : Surroundings) (message : String) : Program (Reply Value) := do
  let time ← Program.now
  let _ ← around.policy.deliver ⟨around.job, around.worker, time, message⟩
  return .ok .null

variable {around : Surroundings} {message : String}

theorem gives_logs {reply : Reply Value} (h : (around.logs message).Gives reply) :
    reply = .ok .null := by
  obtain ⟨time, -, h⟩ := Program.gives_bind.1 h
  obtain ⟨delivered, -, h⟩ := Program.gives_bind.1 h
  exact Program.gives_pure.1 h

theorem run_logs (s : PlannedSink) :
    (around.logs message).run PlannedSink.serve s = (.ok .null,
      ((around.policy.deliver ⟨around.job, around.worker, .ofMillis s.now, message⟩).run
        PlannedSink.serve s).2) :=
  Program.run_bind PlannedSink.serve s (around.policy.deliver
    ⟨around.job, around.worker, .ofMillis s.now, message⟩) fun _ => pure (Reply.ok Value.null)

/-- A sink is tried until an attempt is in time, or as often as the policy says, at the times that
the policy says. An operation that logs a message gives null whatever becomes of the entry, within
a time that the policy alone says, unless its scope is cancelled before. -/
theorem delivery_bounded {s : PlannedSink} (range : around.policy.InRange)
    (untied : ∀ j < around.policy.attempts,
      s.upcoming j ≠ .takes around.policy.timeoutMillis) :
    (∀ e, ∃ last delivered s',
      (around.policy.deliver e).run PlannedSink.serve s = (delivered, s') ∧
      around.policy.Ends e s last delivered s' ∧
      (delivered = true ↔ ∃ j < around.policy.attempts,
        (s.upcoming j).inTime around.policy.timeoutMillis = true)) ∧
    ∀ (op : Operation) (message : String), op.message? = some message →
      ∃ p : Program (Reply Value), op.effect around = .guarded p ∧
      (∀ reply, p.Gives reply → reply = .ok .null) ∧
      ∃ last delivered s', p.run PlannedSink.serve s = (.ok .null, s') ∧
        around.policy.Ends ⟨around.job, around.worker, .ofMillis s.now, message⟩ s last delivered
          s' ∧
        ∀ scope tree planned, Timeline.GivesBy (s.now + around.policy.allowance) scope .null
          (Timeline.waitUntil scope s'.now (.ok .null) tree s.now planned) := by
  constructor
  · intro e
    obtain ⟨last, delivered, s', runs, ends⟩ := around.policy.run_deliver (e := e) range untied
    exact ⟨last, delivered, s', runs, ends, ends.delivered_iff⟩
  · intro op message logged
    obtain ⟨last, delivered, s', runs, ends⟩ := around.policy.run_deliver
      (e := ⟨around.job, around.worker, .ofMillis s.now, message⟩) range untied
    refine ⟨around.logs message, op.effect_of_message logged around, fun _ => gives_logs, last,
      delivered, s', ?_, ends, ?_⟩
    · rw [run_logs, runs]
    · intro scope tree planned
      exact (Timeline.givesBy_waitUntil ends.le_now).mono ends.now_le

/-- A first attempt that fails at once and a second one that hangs, before one that is in time. -/
theorem delivery_bounded_third : ∃ (around : Surroundings) (s s' : PlannedSink) (e : LogEntry)
    (p : Program (Reply Value)), around.policy = ⟨5, 50, 100⟩ ∧
      s.plan = [.fails, .hangs, .takes 5, .fails] ∧ s.now = 7 ∧
      (Operation.log "m").effect around = .guarded p ∧
      p.run PlannedSink.serve s = (.ok .null, s') ∧ s'.starts = [7, 57, 257] ∧ s'.now = 262 ∧
      s'.stored = [e] ∧ e.message = "m" ∧ around.policy.allowance = 1250 ∧
      ∀ scope tree planned, Timeline.GivesBy 1257 scope .null
        (Timeline.waitUntil scope s'.now (.ok .null) tree s.now planned) := by
  let around : Surroundings := ⟨⟨Uuid.fresh 0⟩, .indexed 0, 1, .standard, .ofParts "stratus" 2 100,
    ⟨5, 50, 100⟩⟩
  let s : PlannedSink := ⟨[.fails, .hangs, .takes 5, .fails], 7, [], []⟩
  have range : around.policy.InRange :=
    DeliveryPolicy.inRange_of_longest (by decide) (by decide) (by decide)
  obtain ⟨tries, logs⟩ := @delivery_bounded around s range (by decide)
  obtain ⟨p, guarded, -, last, delivered, s', runs, ends, guards⟩ := logs (.log "m") "m" rfl
  have hit : delivered = true := ends.delivered_iff.2 ⟨2, by decide, by decide⟩
  have third : last = 2 := by
    apply Nat.le_antisymm (ends.last_le (j := 2) (by decide))
    by_contra early
    have answered := ends.answer.symm.trans hit
    obtain rfl | rfl : last = 0 ∨ last = 1 := by omega
    · exact absurd answered (by decide)
    · exact absurd answered (by decide)
  subst hit third
  have allowance : around.policy.allowance = 1250 := by decide
  rw [allowance] at guards
  refine ⟨around, s, s', _, p, rfl, rfl, rfl, guarded, runs, ?_, ?_, ends.stored, rfl, allowance,
    guards⟩
  · exact ends.starts.trans (by decide)
  · exact ends.now.trans (by decide)

end Surroundings

end WorkflowEngine
