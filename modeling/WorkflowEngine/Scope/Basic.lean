import WorkflowEngine.Failure.Basic
/-!
Scopes of cancellation. Cancelling a scope cancels every scope inside it, those opened later
included, and none around it.
-/
set_option autoImplicit false

namespace WorkflowEngine

/-- A scope by its number, with the numbers of the scopes around it from the inside out. -/
structure Scope where
  number : Nat
  around : List Nat
  deriving DecidableEq

/-- The outermost scope. -/
def Scope.root : Scope := ⟨0, []⟩

/-- A scope and the scopes around it. -/
def Scope.path (s : Scope) : List Nat := s.number :: s.around

/-- Which scopes have been cancelled themselves, and the number of the next scope. -/
structure ScopeTree where
  next : Nat
  cancelled : List Nat

namespace ScopeTree

def initial : ScopeTree := ⟨1, []⟩

/-- Opens a scope inside another one. -/
def child (t : ScopeTree) (s : Scope) : Scope × ScopeTree :=
  (⟨t.next, s.path⟩, { t with next := t.next + 1 })

def cancel (t : ScopeTree) (s : Scope) : ScopeTree :=
  if t.cancelled.contains s.number then t else { t with cancelled := s.number :: t.cancelled }

def isCancelled (t : ScopeTree) (s : Scope) : Bool := s.path.any t.cancelled.contains

/-- What a guarded operation gives at a moment: cancelled counts before its own result, and
without either it goes on. -/
def guard {α : Type} (t : ScopeTree) (s : Scope) (result : Option (Except WorkflowError α)) :
    Option (Except Fault α) :=
  if t.isCancelled s then some (.error .cancelled) else result.map (·.mapError .error)

theorem isCancelled_iff {t : ScopeTree} {s : Scope} :
    t.isCancelled s = true ↔ ∃ n ∈ s.path, n ∈ t.cancelled := by
  simp [isCancelled]

theorem mem_cancel {t : ScopeTree} {s : Scope} {n : Nat} :
    n ∈ (t.cancel s).cancelled ↔ n = s.number ∨ n ∈ t.cancelled := by
  unfold cancel
  split
  · next h =>
    have hs : s.number ∈ t.cancelled := by simpa using h
    constructor
    · exact .inr
    · rintro (rfl | hn)
      · exact hs
      · exact hn
  · simp

/-- With more that is cancelled nothing gets free. -/
theorem isCancelled_mono {t t' : ScopeTree} (h : ∀ n ∈ t.cancelled, n ∈ t'.cancelled) {s : Scope}
    (hs : t.isCancelled s = true) : t'.isCancelled s = true := by
  obtain ⟨n, hn, hc⟩ := isCancelled_iff.1 hs
  exact isCancelled_iff.2 ⟨n, hn, h n hc⟩

theorem free_mono {t t' : ScopeTree} (h : ∀ n ∈ t.cancelled, n ∈ t'.cancelled) {s : Scope}
    (free : t'.isCancelled s = false) : t.isCancelled s = false := by
  apply eq_false_of_ne_true
  intro hs
  exact absurd (isCancelled_mono h hs) (by simp [free])

theorem isCancelled_cancel {t : ScopeTree} {s : Scope} (s' : Scope)
    (h : t.isCancelled s = true) : (t.cancel s').isCancelled s = true :=
  isCancelled_mono (fun _ hc => mem_cancel.2 (.inr hc)) h

theorem isCancelled_cancel_self (t : ScopeTree) (s : Scope) : (t.cancel s).isCancelled s = true :=
  isCancelled_iff.2 ⟨s.number, by simp [Scope.path], mem_cancel.2 (.inl rfl)⟩

/-- A cancelled scope has nothing inside that is not cancelled. -/
theorem isCancelled_of_suffix {t : ScopeTree} {s s' : Scope} (hs : s.path <:+ s'.path)
    (h : t.isCancelled s = true) : t.isCancelled s' = true := by
  obtain ⟨n, hn, hc⟩ := isCancelled_iff.1 h
  exact isCancelled_iff.2 ⟨n, hs.subset hn, hc⟩

end ScopeTree

end WorkflowEngine
