import WorkflowEngine.Program.Basic
import WorkflowEngine.Scope.Basic
/-!
Guarded operations in time: cancellations are planned for later moments, and an operation runs
until its own end or the first cancellation that concerns it.
-/
set_option autoImplicit false

namespace WorkflowEngine

/-- The planned cancellations come in the order of their times. -/
structure Timeline where
  now : Nat
  tree : ScopeTree
  planned : List (Nat × Scope)

namespace Timeline

def initial : Timeline := ⟨0, .initial, []⟩

/-- Adds a cancellation after those of the same time. -/
def insertPlan (time : Nat) (s : Scope) : List (Nat × Scope) → List (Nat × Scope)
  | [] => [(time, s)]
  | (t, r) :: rest =>
    if time < t then (time, s) :: (t, r) :: rest else (t, r) :: insertPlan time s rest

def plan (t : Timeline) (after : Nat) (s : Scope) : Timeline :=
  { t with planned := insertPlan (t.now + waitMillis after) s t.planned }

/-- Looks at an operation that ends at `due`, now and at each planned cancellation. -/
def waitUntil {α : Type} (s : Scope) (due : Nat) (result : Except WorkflowError α) :
    ScopeTree → Nat → List (Nat × Scope) → Except Fault α × Timeline
  | tree, now, planned =>
    match tree.guard s (if due ≤ now then some result else none) with
    | some outcome => (outcome, ⟨now, tree, planned⟩)
    | none =>
      match planned with
      | [] => (result.mapError .error, ⟨due, tree, []⟩)
      | (time, scope) :: rest =>
        if time ≤ due then waitUntil s due result (tree.cancel scope) (max now time) rest
        else (result.mapError .error, ⟨due, tree, (time, scope) :: rest⟩)
  termination_by _ _ planned => planned.length

/-- Runs an operation that takes `millis` under a scope. -/
def guard {α : Type} (t : Timeline) (s : Scope) (millis : Nat) (result : Except WorkflowError α) :
    Except Fault α × Timeline :=
  waitUntil s (t.now + waitMillis millis) result t.tree t.now t.planned

end Timeline

end WorkflowEngine
