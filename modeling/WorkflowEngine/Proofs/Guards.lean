import WorkflowEngine.Scope.Timeline
import Mathlib
/-!
Guarded operations and the cancellations planned around them. While an operation is waited for, the
cancellations that come due land in the order of their times; the first one that concerns its scope
ends the wait.
-/
set_option autoImplicit false

namespace WorkflowEngine

theorem ScopeTree.next_cancel (t : ScopeTree) (r : Scope) : (t.cancel r).next = t.next := by
  unfold cancel
  split <;> rfl

theorem ScopeTree.isCancelled_cancel_iff {t : ScopeTree} {r s : Scope} :
    (t.cancel r).isCancelled s = true ↔ r.number ∈ s.path ∨ t.isCancelled s = true := by
  simp only [isCancelled_iff, mem_cancel]
  constructor
  · rintro ⟨n, hn, rfl | hc⟩
    · exact .inl hn
    · exact .inr ⟨n, hn, hc⟩
  · rintro (hn | ⟨n, hn, hc⟩)
    · exact ⟨r.number, hn, .inl rfl⟩
    · exact ⟨n, hn, .inr hc⟩

namespace Timeline

variable {σ α : Type} {s : Scope} {due now : Nat} {result : Except WorkflowError α}
  {tree : ScopeTree} {planned : List (Nat × Scope)}

/-- Whether cancellations are planned in the order of their times, and none for the past. -/
structure Ahead (now : Nat) (planned : List (Nat × Scope)) : Prop where
  sorted : planned.Pairwise fun p q => p.1 ≤ q.1
  later : ∀ p ∈ planned, now ≤ p.1

namespace Ahead

variable {p : Nat × Scope}

theorem tail (h : Ahead now (p :: planned)) : Ahead (max now p.1) planned where
  sorted := h.sorted.of_cons
  later q hq := Nat.max_le.2
    ⟨h.later q (List.mem_cons_of_mem p hq), (List.pairwise_cons.1 h.sorted).1 q hq⟩

theorem suffix {landed : List (Nat × Scope)} {now' : Nat} (h : Ahead now (landed ++ planned))
    (later : ∀ p ∈ planned, now' ≤ p.1) : Ahead now' planned :=
  ⟨(List.pairwise_append.1 h.sorted).2.1, later⟩

end Ahead

theorem mem_insertPlan {time : Nat} {r : Scope} {p : Nat × Scope} :
    p ∈ insertPlan time r planned ↔ p = (time, r) ∨ p ∈ planned := by
  induction planned with
  | nil => simp [insertPlan]
  | cons q rest ih =>
    obtain ⟨time', r'⟩ := q
    unfold insertPlan
    split
    · simp
    · rw [List.mem_cons, ih, List.mem_cons]
      exact or_left_comm

theorem Ahead.insertPlan {time : Nat} {r : Scope} (h : Ahead now planned) (le : now ≤ time) :
    Ahead now (insertPlan time r planned) where
  sorted := by
    have sorted := h.sorted
    clear h
    induction planned with
    | nil => exact List.pairwise_singleton _ _
    | cons q rest ih =>
      obtain ⟨time', r'⟩ := q
      obtain ⟨least, sorted⟩ := List.pairwise_cons.1 sorted
      unfold Timeline.insertPlan
      split
      · next lt =>
        refine List.pairwise_cons.2 ⟨List.forall_mem_cons.2 ⟨Nat.le_of_lt lt, fun p hp => ?_⟩,
          List.pairwise_cons.2 ⟨least, sorted⟩⟩
        exact Nat.le_trans (Nat.le_of_lt lt) (least p hp)
      · next ge =>
        refine List.pairwise_cons.2 ⟨fun p hp => ?_, ih sorted⟩
        rcases mem_insertPlan.1 hp with rfl | hp
        · exact Nat.le_of_not_lt ge
        · exact least p hp
  later p hp := by
    rcases mem_insertPlan.1 hp with rfl | hp
    · exact le
    · exact h.later p hp

/-! ## One look at an operation -/

theorem waitUntil_of_cancelled (h : tree.isCancelled s = true) :
    waitUntil s due result tree now planned = (.error .cancelled, ⟨now, tree, planned⟩) := by
  unfold waitUntil
  simp [ScopeTree.guard, h]

theorem waitUntil_of_ended (h : tree.isCancelled s = false) (ended : due ≤ now) :
    waitUntil s due result tree now planned = (result.mapError .error, ⟨now, tree, planned⟩) := by
  unfold waitUntil
  simp [ScopeTree.guard, h, ended]

theorem waitUntil_nil (h : tree.isCancelled s = false) (pending : now < due) :
    waitUntil s due result tree now [] = (result.mapError .error, ⟨due, tree, []⟩) := by
  unfold waitUntil
  simp [ScopeTree.guard, h, Nat.not_le.2 pending]

theorem waitUntil_land {time : Nat} {r : Scope} (h : tree.isCancelled s = false)
    (pending : now < due) (early : time ≤ due) :
    waitUntil s due result tree now ((time, r) :: planned) =
      waitUntil s due result (tree.cancel r) (max now time) planned := by
  rw [waitUntil]
  simp [ScopeTree.guard, h, Nat.not_le.2 pending, early]

theorem waitUntil_past {time : Nat} {r : Scope} (h : tree.isCancelled s = false)
    (pending : now < due) (late : due < time) :
    waitUntil s due result tree now ((time, r) :: planned) =
      (result.mapError .error, ⟨due, tree, (time, r) :: planned⟩) := by
  rw [waitUntil]
  simp [ScopeTree.guard, h, Nat.not_le.2 pending, Nat.not_le.2 late]

/-! ## What lands during a wait -/

/-- The cancellations that have landed when a wait is over: all that were planned for before its
end, and none for after it. -/
structure Lands (planned : List (Nat × Scope)) (tree : ScopeTree) (landed : List (Nat × Scope))
    (t : Timeline) : Prop where
  parts : planned = landed ++ t.planned
  early : ∀ p ∈ landed, p.1 ≤ t.now
  later : ∀ p ∈ t.planned, t.now ≤ p.1
  next : t.tree.next = tree.next
  cancelled : ∀ n, n ∈ t.tree.cancelled ↔ n ∈ tree.cancelled ∨ ∃ p ∈ landed, p.2.number = n

theorem Lands.none (h : ∀ p ∈ planned, now ≤ p.1) : Lands planned tree [] ⟨now, tree, planned⟩ where
  parts := rfl
  early _ none := nomatch none
  later := h
  next := rfl
  cancelled n := by simp

theorem Lands.cons {p : Nat × Scope} {landed : List (Nat × Scope)} {t : Timeline}
    (h : Lands planned (tree.cancel p.2) landed t) (early : p.1 ≤ t.now) :
    Lands (p :: planned) tree (p :: landed) t where
  parts := congrArg (p :: ·) h.parts
  early := List.forall_mem_cons.2 ⟨early, h.early⟩
  later := h.later
  next := h.next.trans (ScopeTree.next_cancel tree p.2)
  cancelled n := by
    rw [h.cancelled, ScopeTree.mem_cancel, List.exists_mem_cons_iff, eq_comm (a := n), or_assoc,
      or_left_comm]

variable (s result tree) in
theorem lands_waitUntil (ahead : Ahead now planned) (before : now ≤ due) :
    ∃ landed, Lands planned tree landed (waitUntil s due result tree now planned).2 ∧
      now ≤ (waitUntil s due result tree now planned).2.now := by
  induction planned generalizing tree now with
  | nil =>
    by_cases h : tree.isCancelled s = true
    · rw [waitUntil_of_cancelled h]
      exact ⟨[], .none ahead.later, Nat.le_refl now⟩
    · rw [Bool.not_eq_true] at h
      by_cases ended : due ≤ now
      · rw [waitUntil_of_ended h ended]
        exact ⟨[], .none ahead.later, Nat.le_refl now⟩
      · rw [waitUntil_nil h (Nat.lt_of_not_le ended)]
        exact ⟨[], .none (fun _ none => nomatch none), before⟩
  | cons p rest ih =>
    obtain ⟨time, r⟩ := p
    by_cases h : tree.isCancelled s = true
    · rw [waitUntil_of_cancelled h]
      exact ⟨[], .none ahead.later, Nat.le_refl now⟩
    rw [Bool.not_eq_true] at h
    by_cases ended : due ≤ now
    · rw [waitUntil_of_ended h ended]
      exact ⟨[], .none ahead.later, Nat.le_refl now⟩
    have pending := Nat.lt_of_not_le ended
    by_cases early : time ≤ due
    · rw [waitUntil_land h pending early]
      obtain ⟨landed, lands, le⟩ := ih (tree.cancel r) ahead.tail (Nat.max_le.2 ⟨before, early⟩)
      exact ⟨(time, r) :: landed, lands.cons (Nat.le_trans (Nat.le_max_right now time) le),
        Nat.le_trans (Nat.le_max_left now time) le⟩
    · have late := Nat.lt_of_not_le early
      rw [waitUntil_past h pending late]
      refine ⟨[], .none (List.forall_mem_cons.2 ⟨Nat.le_of_lt late, fun q hq => ?_⟩), before⟩
      exact Nat.le_trans (Nat.le_of_lt late) ((List.pairwise_cons.1 ahead.sorted).1 q hq)

/-! ## How a wait ends -/

/-- An operation that ends before its scope is cancelled gives its own result when it ends. -/
theorem waitUntil_of_undisturbed (before : now ≤ due) (h : tree.isCancelled s = false)
    (undisturbed : ∀ p ∈ planned, p.2.number ∈ s.path → due < p.1) :
    (waitUntil s due result tree now planned).1 = result.mapError .error ∧
      (waitUntil s due result tree now planned).2.now = due := by
  induction planned generalizing tree now with
  | nil =>
    by_cases ended : due ≤ now
    · rw [waitUntil_of_ended h ended]
      exact ⟨rfl, Nat.le_antisymm before ended⟩
    · rw [waitUntil_nil h (Nat.lt_of_not_le ended)]
      exact ⟨rfl, rfl⟩
  | cons p rest ih =>
    obtain ⟨time, r⟩ := p
    by_cases ended : due ≤ now
    · rw [waitUntil_of_ended h ended]
      exact ⟨rfl, Nat.le_antisymm before ended⟩
    have pending := Nat.lt_of_not_le ended
    by_cases early : time ≤ due
    · have apart : r.number ∉ s.path := fun concerns =>
        Nat.not_lt.2 early (undisturbed _ List.mem_cons_self concerns)
      have free : (tree.cancel r).isCancelled s = false := by
        rw [← Bool.not_eq_true, ScopeTree.isCancelled_cancel_iff, h]
        simpa using apart
      rw [waitUntil_land h pending early]
      exact ih (Nat.max_le.2 ⟨before, early⟩) free fun q hq =>
        undisturbed q (List.mem_cons_of_mem _ hq)
    · rw [waitUntil_past h pending (Nat.lt_of_not_le early)]
      exact ⟨rfl, rfl⟩

/-- An operation whose scope is cancelled before it ends is cut off at that moment. -/
theorem waitUntil_of_disturbed {c : Nat} {r : Scope} (ahead : Ahead now planned)
    (h : tree.isCancelled s = false) (mem : (c, r) ∈ planned) (concerns : r.number ∈ s.path)
    (first : ∀ p ∈ planned, p.2.number ∈ s.path → c ≤ p.1) (early : c < due) :
    (waitUntil s due result tree now planned).1 = .error .cancelled ∧
      (waitUntil s due result tree now planned).2.now = c := by
  induction planned generalizing tree now with
  | nil => cases mem
  | cons p rest ih =>
    obtain ⟨time, r'⟩ := p
    have sooner : time ≤ c := by
      rcases List.mem_cons.1 mem with same | mem
      · exact Nat.le_of_eq (Prod.mk.inj same).1.symm
      · exact (List.pairwise_cons.1 ahead.sorted).1 _ mem
    have pending : now < due :=
      Nat.lt_of_le_of_lt (ahead.later _ List.mem_cons_self) (Nat.lt_of_le_of_lt sooner early)
    rw [waitUntil_land h pending (Nat.le_of_lt (Nat.lt_of_le_of_lt sooner early))]
    -- What lands before `c` concerns other scopes, since `first` leaves nothing sooner for this one.
    by_cases hr : r'.number ∈ s.path
    · have now_eq : max now time = c := by
        have le := ahead.later _ List.mem_cons_self
        have ge := first _ List.mem_cons_self hr
        rw [Nat.max_eq_right le]
        exact Nat.le_antisymm sooner ge
      rw [waitUntil_of_cancelled (ScopeTree.isCancelled_cancel_iff.2 (.inl hr))]
      exact ⟨rfl, now_eq⟩
    · have free : (tree.cancel r').isCancelled s = false := by
        rw [← Bool.not_eq_true, ScopeTree.isCancelled_cancel_iff, h]
        simpa using hr
      have mem : (c, r) ∈ rest := by
        rcases List.mem_cons.1 mem with same | mem
        · obtain ⟨-, rfl⟩ := Prod.mk.inj same
          exact absurd concerns hr
        · exact mem
      exact ih ahead.tail free mem fun q hq => first q (List.mem_cons_of_mem _ hq)

/-! ## What an operation does -/

/-- Waits like `waitUntil` for an operation that changes something whenever it is looked at. -/
def workUntil (s : Scope) (due : Nat) (result : Except WorkflowError α) (work : Nat → σ → σ) :
    σ → ScopeTree → Nat → List (Nat × Scope) → (Except Fault α × Timeline) × σ
  | x, tree, now, planned =>
    match tree.isCancelled s with
    | true => ((.error .cancelled, ⟨now, tree, planned⟩), x)
    | false =>
      if due ≤ now then ((result.mapError .error, ⟨now, tree, planned⟩), work now x)
      else
        match planned with
        | [] => ((result.mapError .error, ⟨due, tree, []⟩), work due (work now x))
        | (time, scope) :: rest =>
          if time ≤ due then
            workUntil s due result work (work now x) (tree.cancel scope) (max now time) rest
          else
            ((result.mapError .error, ⟨due, tree, (time, scope) :: rest⟩), work due (work now x))
  termination_by _ _ _ planned => planned.length

/-- Runs an operation that takes `millis` and does some work under a scope. -/
def guardWorking (t : Timeline) (s : Scope) (millis : Nat) (result : Except WorkflowError α)
    (work : Nat → σ → σ) (x : σ) : (Except Fault α × Timeline) × σ :=
  workUntil s (t.now + waitMillis millis) result work x t.tree t.now t.planned

/-- What an operation does has no influence on how the wait for it ends. -/
theorem workUntil_fst (work : Nat → σ → σ) (x : σ) :
    (workUntil s due result work x tree now planned).1 =
      waitUntil s due result tree now planned := by
  induction planned generalizing x tree now with
  | nil =>
    unfold workUntil
    split
    · next h => exact (waitUntil_of_cancelled h).symm
    · next h =>
      split
      · next ended => exact (waitUntil_of_ended h ended).symm
      · next ended => exact (waitUntil_nil h (Nat.lt_of_not_le ended)).symm
  | cons p rest ih =>
    obtain ⟨time, r⟩ := p
    rw [workUntil]
    split
    · next h => exact (waitUntil_of_cancelled h).symm
    · next h =>
      split
      · next ended => exact (waitUntil_of_ended h ended).symm
      · next ended =>
        have pending := Nat.lt_of_not_le ended
        split
        · next early => exact (ih _).trans (waitUntil_land h pending early).symm
        · next early => exact (waitUntil_past h pending (Nat.lt_of_not_le early)).symm

theorem workUntil_of_cancelled (h : tree.isCancelled s = true) (work : Nat → σ → σ) (x : σ) :
    (workUntil s due result work x tree now planned).2 = x := by
  unfold workUntil
  rw [h]

end Timeline

end WorkflowEngine
