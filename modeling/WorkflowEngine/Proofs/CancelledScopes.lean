import WorkflowEngine.Proofs.Lineage
/-!
Which scopes are cancelled after any steps, and what guarded operations give: a scope is cancelled
if a step cancelled it or a scope that it is nested in, and an operation is cut off by the first
such cancellation that comes before its end.
-/
set_option autoImplicit false

namespace WorkflowEngine

variable {α : Type}

/-! ## Cancellations -/

namespace Grove

/-- Whether a step cancels a scope: by itself, or because the time comes for which that was planned
while it waits for an operation. -/
def Cancels (g : Grove) : ScopeStep α → Scope → Prop
  | .cancel i, s => g.scopes[i]? = some s
  | .guard i millis result later, r =>
    ∃ s, g.scopes[i]? = some s ∧ ∃ landed time,
      (g.plan later).planned = landed ++ ((g.plan later).guard s millis result).2.planned ∧
      (time, r) ∈ landed ∧ time ≤ ((g.plan later).guard s millis result).2.now
  | _, _ => False

variable {os : List ScopeOrigin} {g : Grove} {s : Scope}

theorem getElem?_step {i : Nat} (x : ScopeStep α) (hs : g.scopes[i]? = some s) :
    (g.step x).scopes[i]? = some s := by
  have lt := (List.getElem?_eq_some_iff.1 hs).1
  cases x with
  | child j | clone j =>
    simp only [step]
    split
    · exact (List.getElem?_append_left lt).trans hs
    · exact hs
  | cancel j | guard j =>
    simp only [step]
    split <;> exact hs

theorem Cancels.mem {x : ScopeStep α} (h : g.Cancels x s) (grown : Grown os g) : s ∈ g.scopes := by
  cases x with
  | child | clone => cases h
  | cancel i => exact List.mem_of_getElem? h
  | guard i millis result later =>
    obtain ⟨_, -, landed, time, parts, mem, -⟩ := h
    obtain ⟨-, -, planned, -⟩ := grown.plan later
    exact planned _ (parts ▸ List.mem_append_left _ mem)

/-- What a step adds to the scopes that were cancelled themselves. -/
theorem mem_cancelled_step (grown : Grown os g) (x : ScopeStep α) (n : Nat) :
    n ∈ (g.step x).timeline.tree.cancelled ↔
      n ∈ g.timeline.tree.cancelled ∨ ∃ s, g.Cancels x s ∧ s.number = n := by
  cases x with
  | child i | clone i =>
    simp only [step, Cancels, false_and, exists_false, or_false]
    split <;> exact Iff.rfl
  | cancel i =>
    cases hi : g.scopes[i]? with
    | none => simp [step, Cancels, hi]
    | some s =>
      simp only [step, Cancels, hi, ScopeTree.mem_cancel, Option.some.injEq]
      constructor
      · rintro (rfl | hn)
        · exact .inr ⟨s, rfl, rfl⟩
        · exact .inl hn
      · rintro (hn | ⟨_, rfl, rfl⟩)
        · exact .inr hn
        · exact .inl rfl
  | guard i millis result later =>
    cases hi : g.scopes[i]? with
    | none => simp [step, Cancels, hi]
    | some s =>
      obtain ⟨landed, lands⟩ := grown.lands s millis result later
      simp only [step, Cancels, hi, lands.cancelled]
      refine or_congr_right ⟨?_, ?_⟩
      · rintro ⟨⟨time, r⟩, mem, rfl⟩
        exact ⟨r, ⟨s, rfl, landed, time, lands.parts, mem, lands.early _ mem⟩, rfl⟩
      · rintro ⟨r, ⟨_, ⟨⟩, landed', time, parts, mem, -⟩, rfl⟩
        have same : landed = landed' := List.append_cancel_right (lands.parts.symm.trans parts)
        exact ⟨(time, r), same ▸ mem, rfl⟩

theorem run_append (steps more : List (ScopeStep α)) :
    run (steps ++ more) = more.foldl step (run steps) := List.foldl_append

theorem run_concat (steps : List (ScopeStep α)) (x : ScopeStep α) :
    run (steps ++ [x]) = (run steps).step x := run_append steps [x]

theorem getElem?_run_append {steps : List (ScopeStep α)} (more : List (ScopeStep α)) {i : Nat}
    (hs : (run steps).scopes[i]? = some s) : (run (steps ++ more)).scopes[i]? = some s := by
  rw [run_append]
  generalize run steps = g at hs
  induction more generalizing g with
  | nil => exact hs
  | cons x more ih => exact ih _ (getElem?_step x hs)

end Grove

/-- Whether one of the steps cancels a scope, under any of its numbers. -/
def CancelledBy (steps : List (ScopeStep α)) (s : Scope) : Prop :=
  ∃ before step after, steps = before ++ step :: after ∧ (Grove.run before).Cancels step s

namespace CancelledBy

open Grove

variable {steps : List (ScopeStep α)} {s : Scope}

theorem concat_iff {x : ScopeStep α} :
    CancelledBy (steps ++ [x]) s ↔ CancelledBy steps s ∨ (run steps).Cancels x s := by
  constructor
  · rintro ⟨before, y, after, parts, cancels⟩
    rcases List.eq_nil_or_concat after with rfl | ⟨after, z, rfl⟩
    · obtain ⟨rfl, ⟨⟩⟩ := List.append_inj' parts rfl
      exact .inr cancels
    · rw [List.concat_eq_append, ← List.cons_append, ← List.append_assoc] at parts
      obtain ⟨rfl, -⟩ := List.append_inj' parts rfl
      exact .inl ⟨before, y, after, rfl, cancels⟩
  · rintro (⟨before, y, after, rfl, cancels⟩ | cancels)
    · exact ⟨before, y, after ++ [x], by simp, cancels⟩
    · exact ⟨steps, x, [], rfl, cancels⟩

theorem mem (h : CancelledBy steps s) : s ∈ (run steps).scopes := by
  obtain ⟨before, x, after, rfl, cancels⟩ := h
  obtain ⟨i, hi⟩ := List.mem_iff_getElem?.1 (cancels.mem (.run before))
  exact List.mem_of_getElem? (getElem?_run_append (x :: after) hi)

/-- The scopes that count as cancelled by themselves are those that the steps cancel. -/
theorem mem_cancelled_iff (n : Nat) :
    n ∈ (run steps).timeline.tree.cancelled ↔ ∃ s, CancelledBy steps s ∧ s.number = n := by
  -- What a step cancels depends on the steps before it, so the last one is split off.
  induction steps using List.reverseRecOn with
  | nil =>
    constructor
    · intro none
      cases none
    · rintro ⟨s, ⟨before, x, after, parts, -⟩, -⟩
      simp at parts
  | append_singleton steps x ih =>
    rw [run_concat, mem_cancelled_step (.run steps), ih]
    simp only [concat_iff, or_and_right, exists_or]

end CancelledBy

namespace Grove

/-- Whether a cancellation that concerns a scope is planned for a moment: one of the scope itself or
of a scope that it is nested in. -/
def Expects (g : Grove) (os : List ScopeOrigin) (t : Timeline) (i time : Nat) : Prop :=
  ∃ j r, (time, r) ∈ t.planned ∧ g.scopes[j]? = some r ∧ Nested os i j

/-- What an operation gives that is guarded by a scope and would end at `due`. -/
structure Guarded (t : Timeline) (s : Scope) (millis : Nat) (result : Except WorkflowError α)
    (cancelled : Bool) (expects : Nat → Prop) : Prop where
  /-- Under a cancelled scope it is not even begun. -/
  untouched {σ : Type} (work : Nat → σ → σ) (x : σ) : cancelled = true →
    t.guardWorking s millis result work x = ((.error .cancelled, t), x)
  /-- What it does while it runs makes no difference. -/
  apart {σ : Type} (work : Nat → σ → σ) (x : σ) :
    (t.guardWorking s millis result work x).1 = t.guard s millis result
  finished : cancelled = false → (∀ time, expects time → t.now + waitMillis millis < time) →
    (t.guard s millis result).1 = result.mapError .error ∧
      (t.guard s millis result).2.now = t.now + waitMillis millis
  interrupted (time : Nat) : cancelled = false → expects time →
    (∀ other, expects other → time ≤ other) → time < t.now + waitMillis millis →
    (t.guard s millis result).1 = .error .cancelled ∧ (t.guard s millis result).2.now = time

variable {steps : List (ScopeStep α)} {s : Scope} {i : Nat}

theorem isCancelled_run_iff (hs : (run steps).scopes[i]? = some s) :
    (run steps).isCancelled s = true ↔
      ∃ j r, Nested (scopeOrigins steps) i j ∧ (run steps).scopes[j]? = some r ∧
        CancelledBy steps r := by
  unfold isCancelled
  rw [ScopeTree.isCancelled_iff]
  constructor
  · rintro ⟨n, hn, hc⟩
    obtain ⟨r, cancelled, rfl⟩ := (CancelledBy.mem_cancelled_iff n).1 hc
    obtain ⟨j, hj⟩ := List.mem_iff_getElem?.1 cancelled.mem
    exact ⟨j, r, ((Grown.run steps).number_mem_path_iff hs hj).1 hn, hj, cancelled⟩
  · rintro ⟨j, r, nested, hj, cancelled⟩
    exact ⟨r.number, ((Grown.run steps).number_mem_path_iff hs hj).2 nested,
      (CancelledBy.mem_cancelled_iff _).2 ⟨r, cancelled, rfl⟩⟩

theorem mem_cancelled_append (more : List (ScopeStep α)) {n : Nat}
    (hn : n ∈ (run steps).timeline.tree.cancelled) :
    n ∈ (run (steps ++ more)).timeline.tree.cancelled := by
  obtain ⟨s, ⟨before, x, after, rfl, cancels⟩, rfl⟩ := (CancelledBy.mem_cancelled_iff n).1 hn
  exact (CancelledBy.mem_cancelled_iff _).2
    ⟨s, ⟨before, x, after ++ more, by simp, cancels⟩, rfl⟩

/-- A scope that was cancelled itself, under whichever of its numbers, is not changed by more. -/
theorem step_cancel_of_cancelledBy (hs : (run steps).scopes[i]? = some s)
    (h : CancelledBy steps s) : (run steps).step (.cancel (α := α) i) = run steps := by
  have hn : s.number ∈ (run steps).timeline.tree.cancelled :=
    (CancelledBy.mem_cancelled_iff _).2 ⟨s, h, rfl⟩
  have same : (run steps).timeline.tree.cancel s = (run steps).timeline.tree := by
    unfold ScopeTree.cancel
    rw [if_pos (by simpa using hn)]
  simp only [step, hs, same]

theorem guarded (hs : (run steps).scopes[i]? = some s) (millis : Nat)
    (result : Except WorkflowError α) (later : Option (Nat × Nat)) :
    Guarded ((run steps).plan later) s millis result ((run steps).isCancelled s)
      ((run steps).Expects (scopeOrigins steps) ((run steps).plan later) i) := by
  have grown := Grown.run steps
  obtain ⟨-, tree, planned, ahead⟩ := grown.plan later
  have before := Nat.le_add_right ((run steps).plan later).now (waitMillis millis)
  have known : ∀ p ∈ ((run steps).plan later).planned, p.2.number ∈ s.path →
      (run steps).Expects (scopeOrigins steps) ((run steps).plan later) i p.1 := by
    intro p hp concerns
    obtain ⟨j, hj⟩ := List.mem_iff_getElem?.1 (planned p hp)
    exact ⟨j, p.2, hp, hj, (grown.number_mem_path_iff hs hj).1 concerns⟩
  exact {
    untouched := fun work x cancelled => by
      have h : ((run steps).plan later).tree.isCancelled s = true := tree ▸ cancelled
      exact Prod.ext ((Timeline.workUntil_fst work x).trans (Timeline.waitUntil_of_cancelled h))
        (Timeline.workUntil_of_cancelled h work x)
    apart := Timeline.workUntil_fst
    finished := fun free undisturbed =>
      Timeline.waitUntil_of_undisturbed before (tree ▸ free) fun p hp concerns =>
        undisturbed p.1 (known p hp concerns)
    interrupted := by
      rintro time free ⟨j, r, mem, hr, nested⟩ first early
      exact Timeline.waitUntil_of_disturbed ahead (tree ▸ free) mem
        (grown.number_mem_path nested hs hr)
        (fun p hp concerns => first p.1 (known p hp concerns)) early }

/-- Whatever was done with scopes grown from one root, those are cancelled that were cancelled
themselves or are nested in one that was, and they stay so; to cancel one of them again changes
nothing. A guarded operation that is to end before its scope or one around it is cancelled gives its
own result at its end; one that is not is cut off at the moment of the first such cancellation, and
is not begun if that moment is past. -/
theorem cancelled_and_guarded (steps : List (ScopeStep α)) :
    (∀ i s, (run steps).scopes[i]? = some s →
      ((run steps).isCancelled s = true ↔
        ∃ j r, Nested (scopeOrigins steps) i j ∧ (run steps).scopes[j]? = some r ∧
          CancelledBy steps r)) ∧
    (∀ more, ∀ s ∈ (run steps).scopes, (run steps).isCancelled s = true →
      (run (steps ++ more)).isCancelled s = true) ∧
    (∀ i s, (run steps).scopes[i]? = some s →
      (CancelledBy steps s → ∀ more, run (steps ++ .cancel i :: more) = run (steps ++ more)) ∧
      ((run steps).isCancelled s = true → ∀ r ∈ (run steps).scopes,
        (run (steps ++ [.cancel i])).isCancelled r = (run steps).isCancelled r)) ∧
    (∀ p ∈ (run steps).timeline.planned, (run steps).timeline.now ≤ p.1) ∧
    ∀ i s, (run steps).scopes[i]? = some s → ∀ millis (result : Except WorkflowError α) later,
      Guarded ((run steps).plan later) s millis result ((run steps).isCancelled s)
        ((run steps).Expects (scopeOrigins steps) ((run steps).plan later) i) := by
  refine ⟨fun i s => isCancelled_run_iff, fun more s _ cancelled => ?_, fun i s hs => ⟨?_, ?_⟩,
    (Grown.run steps).ahead.later, fun i s => guarded⟩
  · exact ScopeTree.isCancelled_mono (fun n => mem_cancelled_append more) cancelled
  · intro h more
    rw [run_append, run_append, List.foldl_cons, step_cancel_of_cancelledBy hs h]
  · intro cancelled r hr
    obtain ⟨k, hk⟩ := List.mem_iff_getElem?.1 hr
    rw [run_concat, Bool.eq_iff_iff]
    simp only [step, hs]
    refine ScopeTree.isCancelled_cancel_iff.trans ⟨?_, .inr⟩
    -- The scopes inside one that counts as cancelled already count as cancelled with it.
    rintro (inside | h)
    · obtain ⟨j, outer, nested, hj, by_steps⟩ := (isCancelled_run_iff hs).1 cancelled
      exact (isCancelled_run_iff hk).2
        ⟨j, outer, (((Grown.run steps).number_mem_path_iff hk hs).1 inside).trans nested, hj,
          by_steps⟩
    · exact h

end Grove

end WorkflowEngine
