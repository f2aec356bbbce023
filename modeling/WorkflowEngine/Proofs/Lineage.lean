import WorkflowEngine.Proofs.Guards
/-!
Scopes grown from one root by any steps. The steps alone tell how a scope came about and which
scopes it is nested in, and the path of the scope says the same.
-/
set_option autoImplicit false

namespace WorkflowEngine

variable {α : Type}

/-- What is done with scopes known by numbers. The root has number 0; each new scope and each clone
gets the next number. A guarded operation may be met by a cancellation that is planned for later. -/
inductive ScopeStep (α : Type) where
  | child (of : Nat)
  | clone (of : Nat)
  | cancel (of : Nat)
  | guard (of millis : Nat) (result : Except WorkflowError α) (later : Option (Nat × Nat))

/-! ## What the steps tell -/

/-- How a scope came about: opened inside another one, or as one more name of another one. -/
inductive ScopeOrigin where
  | root
  | child (of : Nat)
  | clone (of : Nat)

def ScopeOrigin.after : List ScopeOrigin → ScopeStep α → List ScopeOrigin
  | os, .child i => if i < os.length then os ++ [.child i] else os
  | os, .clone i => if i < os.length then os ++ [.clone i] else os
  | os, _ => os

/-- The scopes that steps make, in the order of their numbers. -/
def scopeOrigins (steps : List (ScopeStep α)) : List ScopeOrigin :=
  steps.foldl ScopeOrigin.after [.root]

/-- Whether a scope is another one or inside it. A clone is the scope that it was made of. -/
inductive Nested (os : List ScopeOrigin) : Nat → Nat → Prop
  | refl (i : Nat) : Nested os i i
  | child {i j k : Nat} (origin : os[i]? = some (.child j)) (h : Nested os j k) : Nested os i k
  | clone {i j k : Nat} (origin : os[i]? = some (.clone j)) (h : Nested os j k) : Nested os i k
  | named {i j k : Nat} (origin : os[i]? = some (.clone j)) (h : Nested os i k) : Nested os j k

/-! ## What the steps do -/

/-- The scopes made so far by their numbers, and the time with what is planned. -/
structure Grove where
  timeline : Timeline
  scopes : List Scope

namespace Grove

def start : Grove := ⟨.initial, [.root]⟩

def isCancelled (g : Grove) (s : Scope) : Bool := g.timeline.tree.isCancelled s

/-- The timeline with one more cancellation planned. -/
def plan (g : Grove) : Option (Nat × Nat) → Timeline
  | none => g.timeline
  | some (j, after) =>
    match g.scopes[j]? with
    | some r => g.timeline.plan after r
    | none => g.timeline

def step (g : Grove) : ScopeStep α → Grove
  | .child i =>
    match g.scopes[i]? with
    | some s =>
      let (inner, tree) := g.timeline.tree.child s
      ⟨{ g.timeline with tree }, g.scopes ++ [inner]⟩
    | none => g
  | .clone i =>
    match g.scopes[i]? with
    | some s => { g with scopes := g.scopes ++ [s] }
    | none => g
  | .cancel i =>
    match g.scopes[i]? with
    | some s => { g with timeline := { g.timeline with tree := g.timeline.tree.cancel s } }
    | none => g
  | .guard i millis result later =>
    match g.scopes[i]? with
    | some s => { g with timeline := ((g.plan later).guard s millis result).2 }
    | none => g

def run (steps : List (ScopeStep α)) : Grove := steps.foldl step start

end Grove

namespace Nested

variable {os : List ScopeOrigin} {i j k : Nat}

theorem trans (h : Nested os i j) (h' : Nested os j k) : Nested os i k := by
  induction h with
  | refl => exact h'
  | child origin _ ih => exact .child origin (ih h')
  | clone origin _ ih => exact .clone origin (ih h')
  | named origin _ ih => exact .named origin (ih h')

end Nested

theorem getElem?_concat {β : Type} {xs : List β} {x y : β} {i : Nat} :
    (xs ++ [x])[i]? = some y ↔ xs[i]? = some y ∨ i = xs.length ∧ x = y := by
  rcases Nat.lt_trichotomy i xs.length with lt | rfl | gt
  · rw [List.getElem?_append_left lt]
    exact ⟨.inl, fun h => h.resolve_right fun last => absurd last.1 (Nat.ne_of_lt lt)⟩
  · rw [List.getElem?_concat_length, List.getElem?_eq_none (Nat.le_refl _)]
    simp
  · rw [List.getElem?_eq_none (by simpa using gt), List.getElem?_eq_none (Nat.le_of_lt gt)]
    simp [Nat.ne_of_gt gt]

/-! ## Paths and numbers -/

/-- What holds of the scopes after any steps: their paths go through the scopes that they were
opened inside, each one has a number of its own, and nothing is planned for the past. -/
structure Grown (os : List ScopeOrigin) (g : Grove) : Prop where
  length : g.scopes.length = os.length
  below : ∀ s ∈ g.scopes, s.number < g.timeline.tree.next
  root : ∀ i : Nat, os[i]? = some .root → g.scopes[i]? = some .root
  child : ∀ i j : Nat, os[i]? = some (.child j) → j < i ∧ ∃ s r, g.scopes[i]? = some s ∧
    g.scopes[j]? = some r ∧ s.around = r.path
  clone : ∀ i j : Nat, os[i]? = some (.clone j) → j < i ∧ ∃ s, g.scopes[i]? = some s ∧
    g.scopes[j]? = some s
  distinct : ∀ (i j : Nat) (s r : Scope), g.scopes[i]? = some s → g.scopes[j]? = some r →
    (∀ k, os[i]? ≠ some (.clone k)) → (∀ k, os[j]? ≠ some (.clone k)) →
    s.number = r.number → i = j
  planned : ∀ p ∈ g.timeline.planned, p.2 ∈ g.scopes
  ahead : Timeline.Ahead g.timeline.now g.timeline.planned

namespace Grown

variable {os : List ScopeOrigin} {g : Grove} {i j : Nat} {s r : Scope}

theorem number_mem_path (h : Grown os g) (nested : Nested os i j) (hs : g.scopes[i]? = some s)
    (hr : g.scopes[j]? = some r) : r.number ∈ s.path := by
  induction nested generalizing s with
  | refl i =>
    cases hs.symm.trans hr
    exact List.mem_cons_self
  | child origin _ ih =>
    obtain ⟨-, s', outer, hs', houter, around⟩ := h.child _ _ origin
    cases hs.symm.trans hs'
    exact List.mem_cons_of_mem _ (around ▸ ih houter hr)
  | clone origin _ ih =>
    obtain ⟨-, s', hs', hsame⟩ := h.clone _ _ origin
    cases hs.symm.trans hs'
    exact ih hsame hr
  | named origin _ ih =>
    obtain ⟨-, s', hs', hsame⟩ := h.clone _ _ origin
    cases hs.symm.trans hsame
    exact ih hs' hr

/-- Every scope is known by the number that it was made with. -/
theorem exists_first (h : Grown os g) (i : Nat) (hs : g.scopes[i]? = some s) :
    ∃ k, Nested os i k ∧ Nested os k i ∧ g.scopes[k]? = some s ∧ ∀ j, os[k]? ≠ some (.clone j) := by
  -- A clone stands behind what it is a clone of, so going back from clones comes to an end.
  induction i using Nat.strongRecOn with
  | ind i ih =>
    by_cases cloned : ∃ j, os[i]? = some (.clone j)
    · obtain ⟨j, origin⟩ := cloned
      obtain ⟨before, s', hs', hsame⟩ := h.clone i j origin
      cases hs.symm.trans hs'
      obtain ⟨k, up, down, hk, first⟩ := ih j before hsame
      exact ⟨k, .clone origin up, down.trans (.named origin (.refl i)), hk, first⟩
    · exact ⟨i, .refl i, .refl i, hs, fun j origin => cloned ⟨j, origin⟩⟩

theorem nested_of_same (h : Grown os g) (hs : g.scopes[i]? = some s) (hr : g.scopes[j]? = some r)
    (same : r.number = s.number) : Nested os i j := by
  obtain ⟨k, up, -, hk, first⟩ := h.exists_first i hs
  obtain ⟨l, -, down, hl, first'⟩ := h.exists_first j hr
  obtain rfl := h.distinct k l s r hk hl first first' same.symm
  exact up.trans down

theorem nested_of_mem_path (h : Grown os g) (i : Nat) (hs : g.scopes[i]? = some s)
    (hr : g.scopes[j]? = some r) (mem : r.number ∈ s.path) : Nested os i j := by
  induction i using Nat.strongRecOn generalizing s with
  | ind i ih =>
    -- The rest of the path is that of the scope around, which stands before.
    have known : i < os.length := h.length ▸ (List.getElem?_eq_some_iff.1 hs).1
    rcases List.mem_cons.1 mem with same | mem
    · exact h.nested_of_same hs hr same
    match origin : os[i]? with
    | none => exact absurd (List.getElem?_eq_none_iff.1 origin) (Nat.not_le.2 known)
    | some .root =>
      cases hs.symm.trans (h.root i origin)
      cases mem
    | some (.child k) =>
      obtain ⟨before, s', outer, hs', houter, around⟩ := h.child i k origin
      cases hs.symm.trans hs'
      exact .child origin (ih k before houter (around ▸ mem))
    | some (.clone k) =>
      obtain ⟨before, s', hs', hsame⟩ := h.clone i k origin
      cases hs.symm.trans hs'
      exact .clone origin (ih k before hsame (List.mem_cons_of_mem _ mem))

/-- The path of a scope has the numbers of the scopes that it is nested in. -/
theorem number_mem_path_iff (h : Grown os g) (hs : g.scopes[i]? = some s)
    (hr : g.scopes[j]? = some r) : r.number ∈ s.path ↔ Nested os i j :=
  ⟨h.nested_of_mem_path i hs hr, fun nested => h.number_mem_path nested hs hr⟩

/-! ## Steps -/

theorem start : Grown [.root] Grove.start where
  length := rfl
  below := by simp [Grove.start, Timeline.initial, ScopeTree.initial, Scope.root]
  root i hi := by
    cases i with
    | zero => rfl
    | succ i => cases hi
  child i j hi := by
    cases i with
    | zero => cases hi
    | succ i => cases hi
  clone i j hi := by
    cases i with
    | zero => cases hi
    | succ i => cases hi
  distinct i j s r hs hr _ _ _ := by
    have lt := (List.getElem?_eq_some_iff.1 hs).1
    have lt' := (List.getElem?_eq_some_iff.1 hr).1
    simp only [Grove.start, List.length_singleton] at lt lt'
    omega
  planned _ none := nomatch none
  ahead := ⟨.nil, fun _ none => nomatch none⟩

/-- One more scope, with a number of its own unless it is a clone. -/
theorem append {o : ScopeOrigin} {x : Scope} {g' : Grove} (h : Grown os g)
    (scopes : g'.scopes = g.scopes ++ [x]) (next : g.timeline.tree.next ≤ g'.timeline.tree.next)
    (planned : g'.timeline.planned = g.timeline.planned) (now : g'.timeline.now = g.timeline.now)
    (new : x.number < g'.timeline.tree.next) (inner : o ≠ .root)
    (child : ∀ j, o = .child j → ∃ r, g.scopes[j]? = some r ∧ x.around = r.path)
    (clone : ∀ j, o = .clone j → g.scopes[j]? = some x)
    (fresh : (∀ j, o ≠ .clone j) → x.number = g.timeline.tree.next) : Grown (os ++ [o]) g' where
  length := by simp [scopes, h.length]
  below s hs := by
    rw [scopes] at hs
    rcases List.mem_append.1 hs with hs | hs
    · exact Nat.lt_of_lt_of_le (h.below s hs) next
    · exact List.mem_singleton.1 hs ▸ new
  root i hi := by
    rw [scopes, getElem?_concat]
    rcases getElem?_concat.1 hi with hi | ⟨-, last⟩
    · exact .inl (h.root i hi)
    · exact absurd last inner
  child i j hi := by
    simp only [scopes, getElem?_concat]
    rcases getElem?_concat.1 hi with hi | ⟨rfl, last⟩
    · obtain ⟨before, s, r, hs, hr, around⟩ := h.child i j hi
      exact ⟨before, s, r, .inl hs, .inl hr, around⟩
    · obtain ⟨r, hr, around⟩ := child j last
      exact ⟨h.length ▸ (List.getElem?_eq_some_iff.1 hr).1, x, r, .inr ⟨h.length.symm, rfl⟩,
        .inl hr, around⟩
  clone i j hi := by
    simp only [scopes, getElem?_concat]
    rcases getElem?_concat.1 hi with hi | ⟨rfl, last⟩
    · obtain ⟨before, s, hs, hsame⟩ := h.clone i j hi
      exact ⟨before, s, .inl hs, .inl hsame⟩
    · have hx := clone j last
      exact ⟨h.length ▸ (List.getElem?_eq_some_iff.1 hx).1, x, .inr ⟨h.length.symm, rfl⟩, .inl hx⟩
  distinct i j s r hs hr first first' same := by
    simp only [scopes, getElem?_concat] at hs hr
    have old : ∀ {i : Nat}, (∀ k, (os ++ [o])[i]? ≠ some (.clone k)) →
        ∀ k, os[i]? ≠ some (.clone k) :=
      fun first k hk => first k (getElem?_concat.2 (.inl hk))
    have own : ∀ {i : Nat}, i = g.scopes.length → (∀ k, (os ++ [o])[i]? ≠ some (.clone k)) →
        x.number = g.timeline.tree.next := by
      rintro _ rfl first
      exact fresh fun k hk => first k (getElem?_concat.2 (.inr ⟨h.length, hk⟩))
    rcases hs with hs | ⟨hi, rfl⟩
    · rcases hr with hr | ⟨hj, rfl⟩
      · exact h.distinct i j s r hs hr (old first) (old first') same
      · have lt := h.below s (List.mem_of_getElem? hs)
        exact absurd (same.trans (own hj first')) (Nat.ne_of_lt lt)
    · rcases hr with hr | ⟨hj, rfl⟩
      · have lt := h.below r (List.mem_of_getElem? hr)
        exact absurd (same.symm.trans (own hi first)) (Nat.ne_of_lt lt)
      · exact hi.trans hj.symm
  planned p hp := by
    rw [planned] at hp
    rw [scopes]
    exact List.mem_append_left _ (h.planned p hp)
  ahead := by
    rw [planned, now]
    exact h.ahead

/-- The same scopes at another time, or with other plans. -/
theorem at_time {t : Timeline} (h : Grown os g) (next : t.tree.next = g.timeline.tree.next)
    (planned : ∀ p ∈ t.planned, p.2 ∈ g.scopes) (ahead : Timeline.Ahead t.now t.planned) :
    Grown os { g with timeline := t } :=
  { h with below := fun s hs => next ▸ h.below s hs, planned, ahead }

theorem plan (h : Grown os g) (later : Option (Nat × Nat)) :
    (g.plan later).now = g.timeline.now ∧ (g.plan later).tree = g.timeline.tree ∧
      (∀ p ∈ (g.plan later).planned, p.2 ∈ g.scopes) ∧
      Timeline.Ahead (g.plan later).now (g.plan later).planned := by
  unfold Grove.plan
  split
  · exact ⟨rfl, rfl, h.planned, h.ahead⟩
  split
  · next hr =>
    refine ⟨rfl, rfl, fun p hp => ?_, h.ahead.insertPlan (Nat.le_add_right _ _)⟩
    rcases Timeline.mem_insertPlan.1 hp with rfl | hp
    · exact List.mem_of_getElem? hr
    · exact h.planned p hp
  · exact ⟨rfl, rfl, h.planned, h.ahead⟩

/-- What a guarded operation leaves of a timeline. -/
theorem lands (h : Grown os g) (s : Scope) (millis : Nat) (result : Except WorkflowError α)
    (later : Option (Nat × Nat)) :
    ∃ landed, Timeline.Lands (g.plan later).planned g.timeline.tree landed
      ((g.plan later).guard s millis result).2 := by
  obtain ⟨-, tree, -, ahead⟩ := h.plan later
  obtain ⟨landed, lands, -⟩ := Timeline.lands_waitUntil s result (g.plan later).tree ahead
    (Nat.le_add_right _ (waitMillis millis))
  exact ⟨landed, tree ▸ lands⟩

theorem step (h : Grown os g) (x : ScopeStep α) : Grown (ScopeOrigin.after os x) (g.step x) := by
  have unknown : ∀ {i : Nat}, g.scopes[i]? = none → ¬ i < os.length := fun hi =>
    Nat.not_lt.2 (h.length ▸ List.getElem?_eq_none_iff.1 hi)
  have known : ∀ {i : Nat} {s : Scope}, g.scopes[i]? = some s → i < os.length := fun hi =>
    h.length ▸ (List.getElem?_eq_some_iff.1 hi).1
  cases x with
  | child i =>
    cases hi : g.scopes[i]? with
    | none => simpa only [Grove.step, hi, ScopeOrigin.after, if_neg (unknown hi)] using h
    | some s =>
      simp only [Grove.step, hi, ScopeOrigin.after, if_pos (known hi)]
      refine h.append rfl (Nat.le_succ _) rfl rfl (Nat.lt_succ_self _) nofun ?_ nofun fun _ => rfl
      rintro _ ⟨⟩
      exact ⟨s, hi, rfl⟩
  | clone i =>
    cases hi : g.scopes[i]? with
    | none => simpa only [Grove.step, hi, ScopeOrigin.after, if_neg (unknown hi)] using h
    | some s =>
      simp only [Grove.step, hi, ScopeOrigin.after, if_pos (known hi)]
      refine h.append rfl (Nat.le_refl _) rfl rfl (h.below s (List.mem_of_getElem? hi)) nofun nofun
        ?_ fun first => absurd rfl (first i)
      rintro _ ⟨⟩
      exact hi
  | cancel i =>
    cases hi : g.scopes[i]? with
    | none => simpa only [Grove.step, hi, ScopeOrigin.after] using h
    | some s =>
      simp only [Grove.step, hi, ScopeOrigin.after]
      exact h.at_time (ScopeTree.next_cancel _ _) h.planned h.ahead
  | guard i millis result later =>
    cases hi : g.scopes[i]? with
    | none => simpa only [Grove.step, hi, ScopeOrigin.after] using h
    | some s =>
      simp only [Grove.step, hi, ScopeOrigin.after]
      obtain ⟨landed, lands⟩ := h.lands s millis result later
      obtain ⟨-, -, planned, ahead⟩ := h.plan later
      refine h.at_time lands.next (fun p hp => planned p ?_) ?_
      · rw [lands.parts]
        exact List.mem_append_right _ hp
      · rw [lands.parts] at ahead
        exact ahead.suffix lands.later

theorem run (steps : List (ScopeStep α)) : Grown (scopeOrigins steps) (Grove.run steps) := by
  unfold scopeOrigins Grove.run
  generalize hos : [ScopeOrigin.root] = os
  generalize hg : Grove.start = g
  have h : Grown os g := hos ▸ hg ▸ .start
  clear hos hg
  induction steps generalizing os g with
  | nil => exact h
  | cons x steps ih => exact ih _ _ (h.step x)

end Grown

end WorkflowEngine
