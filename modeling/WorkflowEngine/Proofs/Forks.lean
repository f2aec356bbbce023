import WorkflowEngine.Proofs.Consistency
/-!
Forks count the children that they wait for correctly, in every state of an engine.
-/
set_option autoImplicit false

namespace WorkflowEngine

theorem Cluster.Turn.Leads.not_joining {s : Surroundings} {t : Turn} {phase : Phase}
    (h : t.Leads s phase) (f : Fork) (stack : List Frame) : phase ≠ .joining f stack := by
  cases h <;> simp

namespace Outline

variable {o o' : Outline}

def Childless (o : Outline) (id : EvaluationId) : Prop := ∀ i c, ¬ o.Child id i c

theorem Forked.childless (h : o.Forked) {id : EvaluationId} {e : Evaluation}
    (live : o.evaluations.get? id = some e) (hj : ∀ f stack, e.phase ≠ .joining f stack) :
    o.Childless id := by
  rintro i c ⟨ce, hc, hparent⟩
  obtain ⟨pe, f, stack, above, joining, -⟩ := h.above hc hparent
  cases above.symm.trans live
  exact hj f stack joining

theorem Forked.childless_of_missing (h : o.Forked) {id : EvaluationId} {e : Evaluation} {f : Fork}
    {stack : List Frame} (live : o.evaluations.get? id = some e)
    (joining : e.phase = .joining f stack) (arrived : f.missing = 0) : o.Childless id := by
  obtain ⟨present, hmem, hcard⟩ := h.missing live joining
  have hempty : present = ∅ := Finset.card_eq_zero.1 (by omega)
  intro i c hc
  have := (hmem i).2 ⟨c, hc⟩
  simp [hempty] at this

theorem Forked.index_lt (h : o.Forked) {id c : EvaluationId} {e : Evaluation} {f : Fork}
    {stack : List Frame} {i : Nat} (live : o.evaluations.get? id = some e)
    (joining : e.phase = .joining f stack) (hc : o.Child id i c) : i < f.placed := by
  obtain ⟨ce, hce, hparent⟩ := hc
  obtain ⟨pe, f', stack', above, joining', -, hlt, -⟩ := h.above hce hparent
  cases above.symm.trans live
  cases joining'.symm.trans joining
  exact hlt

theorem child_congr (hk : o'.StemsFrom o)
    (kept : ∀ {id e}, o.evaluations.get? id = some e → ∃ e', o'.evaluations.get? id = some e')
    {id c : EvaluationId} {i : Nat} : o'.Child id i c ↔ o.Child id i c := by
  constructor
  · rintro ⟨e', live', hparent⟩
    obtain ⟨e, live, -, hp, -⟩ := hk c e' live'
    exact ⟨e, live, hp ▸ hparent⟩
  · rintro ⟨e, live, hparent⟩
    obtain ⟨e', live'⟩ := kept live
    obtain ⟨e₀, live₀, -, hp, -⟩ := hk c e' live'
    cases live.symm.trans live₀
    exact ⟨e', live', hp ▸ hparent⟩

theorem child_update {id : EvaluationId} {e : Evaluation} {steps : Nat} {phase : Phase}
    (live : o.evaluations.get? id = some e)
    (he : o'.evaluations = o.evaluations.insert id { e with steps, phase })
    {parent c : EvaluationId} {i : Nat} : o'.Child parent i c ↔ o.Child parent i c := by
  refine child_congr (.update live he) fun {id' e₀} live₀ => ?_
  rw [he, Table.get?_insert]
  split
  · exact ⟨_, rfl⟩
  · exact ⟨e₀, live₀⟩

theorem child_erase (id : EvaluationId) (hk : o'.StemsFrom o)
    (gone : o'.evaluations.get? id = none)
    (kept : ∀ {id' e}, id' ≠ id → o.evaluations.get? id' = some e →
      ∃ e', o'.evaluations.get? id' = some e')
    {parent c : EvaluationId} {i : Nat} :
    o'.Child parent i c ↔ o.Child parent i c ∧ c ≠ id := by
  constructor
  · rintro ⟨e', live', hparent⟩
    obtain ⟨e, live, -, hp, -⟩ := hk c e' live'
    refine ⟨⟨e, live, hp ▸ hparent⟩, ?_⟩
    rintro rfl
    cases live'.symm.trans gone
  · rintro ⟨⟨e, live, hparent⟩, hne⟩
    obtain ⟨e', live'⟩ := kept hne live
    obtain ⟨e₀, live₀, -, hp, -⟩ := hk c e' live'
    cases live.symm.trans live₀
    exact ⟨e', live', hp ▸ hparent⟩

theorem Dispatched.child {job : JobId} {parent : Option Parent} {scope : Scope} {v : Workflow}
    (sent : o.Dispatched job parent scope v o') (fresh : o.evaluations.get? ⟨o.newId⟩ = none)
    {id c : EvaluationId} {i : Nat} :
    o'.Child id i c ↔ o.Child id i c ∨ (c = ⟨o.newId⟩ ∧ parent = some ⟨id, i⟩) := by
  obtain ⟨p, phase, hget, -⟩ := sent.get?
  unfold Child
  simp only [hget]
  by_cases hc : ⟨o.newId⟩ = c
  · subst hc
    simp [fresh]
  · simp [hc, Ne.symm hc]

theorem absent_of_fresh {id : EvaluationId}
    (fresh : ∀ {id' e}, o.evaluations.get? id' = some e → id ≠ id') :
    o.evaluations.get? id = none := by
  cases live : o.evaluations.get? id with
  | none => rfl
  | some e => exact absurd rfl (fresh live)

/-- When all children of a fork are placed, one for which it waits is still there. -/
theorem Forked.exists_child (h : o.Forked) {id : EvaluationId} {e : Evaluation} {f : Fork}
    {stack : List Frame} (live : o.evaluations.get? id = some e)
    (joining : e.phase = .joining f stack) (placed : f.waiting = []) (missing : f.missing ≠ 0) :
    ∃ i c, o.Child id i c := by
  obtain ⟨present, hmem, hcard⟩ := h.missing live joining
  have hpos : 0 < present.card := by
    rw [placed, List.length_nil] at hcard
    omega
  obtain ⟨i, hi⟩ := Finset.card_pos.1 hpos
  exact ⟨i, (hmem i).1 hi⟩

/-- The children that are gone after one of them is collected are that one and those before. -/
theorem absent_of_received {id c : EvaluationId} {i k : Nat}
    (hchild : ∀ {k c'}, o'.Child id k c' ↔ o.Child id k c' ∧ c' ≠ c)
    (unique : ∀ {k}, o.Child id k c → k = i) (absent : ∀ c', ¬ o'.Child id k c') :
    k = i ∨ ∀ c', ¬ o.Child id k c' := by
  by_cases same : k = i
  · exact .inl same
  · refine .inr fun c' hc' => absent c' (hchild.2 ⟨hc', ?_⟩)
    rintro rfl
    exact same (unique hc')

/-- What is placed and not there any more when a fork has placed one more child was so before. -/
theorem absent_of_placed {id new : EvaluationId} {n i : Nat}
    (hchild : ∀ {i c}, o'.Child id i c ↔ o.Child id i c ∨ (i = n ∧ c = new)) (hi : i < n + 1)
    (absent : ∀ c, ¬ o'.Child id i c) : i < n ∧ ∀ c, ¬ o.Child id i c := by
  refine ⟨Nat.lt_of_le_of_ne (Nat.le_of_lt_succ hi) ?_, fun c hc => absent c (hchild.2 (.inl hc))⟩
  rintro rfl
  exact absent new (hchild.2 (.inr ⟨rfl, rfl⟩))

theorem Dispatched.child_placed {job : JobId} {scope : Scope} {v : Workflow} {scopes : ScopeTree}
    {id : EvaluationId} {e : Evaluation} {phase : Phase} {k : Nat}
    (live : o.evaluations.get? id = some e) (fresh : o.evaluations.get? ⟨o.newId⟩ = none)
    (sent : Dispatched { o with evaluations := o.evaluations.insert id { e with phase }, scopes }
      job (some ⟨id, k⟩) scope v o')
    {x c : EvaluationId} {i : Nat} :
    o'.Child x i c ↔ o.Child x i c ∨ (x = id ∧ i = k ∧ c = ⟨o.newId⟩) := by
  have hne : id ≠ ⟨o.newId⟩ := by
    rintro rfl
    cases live.symm.trans fresh
  have absent : (o.evaluations.insert id { e with phase }).get? ⟨o.newId⟩ = none := by
    rw [Table.get?_insert, if_neg hne]
    exact fresh
  rw [sent.child absent, child_update live rfl]
  constructor
  · rintro (hc | ⟨hc, hparent⟩)
    · exact .inl hc
    · cases hparent
      exact .inr ⟨rfl, rfl, hc⟩
  · rintro (hc | ⟨rfl, rfl, hc⟩)
    · exact .inl hc
    · exact .inr ⟨hc, rfl⟩

/-- A child goes, and its parent has another phase. -/
theorem child_collect {id : EvaluationId} {parent : Parent} {pe : Evaluation} {phase : Phase}
    (hne : id ≠ parent.id) (above : o.evaluations.get? parent.id = some pe)
    (he : o'.evaluations = (o.evaluations.erase id).insert parent.id { pe with phase }) :
    o'.StemsFrom o ∧ ∀ {x c i}, o'.Child x i c ↔ o.Child x i c ∧ c ≠ id := by
  have stays : (o.evaluations.erase id).get? parent.id = some pe := by simp [hne, above]
  have updated : o'.StemsFrom { o with evaluations := o.evaluations.erase id } := .update stays he
  have stems : o'.StemsFrom o := updated.trans (.erase rfl)
  refine ⟨stems, child_erase id stems (by simp [he, Ne.symm hne]) fun {x ex} hx live => ?_⟩
  by_cases hp : parent.id = x
  · exact ⟨_, by rw [he, Table.get?_insert, if_pos hp]⟩
  · exact ⟨ex, by simp [he, hp, Ne.symm hx, live]⟩

/-- Children keep their parent when one fork places more of its own. -/
theorem Forked.above_kept (h : o.Forked) {id : EvaluationId} {e : Evaluation} {f g : Fork}
    {stack : List Frame} (live : o.evaluations.get? id = some e)
    (joining : e.phase = .joining f stack)
    (now : o'.evaluations.get? id = some { e with phase := .joining g stack })
    (scope : g.scope = f.scope) (placed : f.placed ≤ g.placed)
    {x : EvaluationId} {ex : Evaluation} {parent : Parent} (hx : o.evaluations.get? x = some ex)
    (hparent : ex.parent = some parent)
    (kept : ∀ {pe}, id ≠ parent.id → o.evaluations.get? parent.id = some pe →
      o'.evaluations.get? parent.id = some pe) :
    ∃ pe f' stack', o'.evaluations.get? parent.id = some pe ∧ pe.phase = .joining f' stack' ∧
      pe.job = ex.job ∧ parent.index < f'.placed ∧ ex.scope.around = f'.scope.path := by
  obtain ⟨pe, f', stack', above, joining', hjob, hlt, hscope⟩ := h.above hx hparent
  by_cases hne : id = parent.id
  · rw [← hne] at above ⊢
    cases above.symm.trans live
    cases joining'.symm.trans joining
    exact ⟨_, _, _, now, rfl, hjob, Nat.lt_of_lt_of_le hlt placed, scope ▸ hscope⟩
  · exact ⟨pe, f', stack', kept hne above, joining', hjob, hlt, hscope⟩

/-- One more child is there, and one less waits to be placed. -/
theorem missing_insert {P Q : Nat → Prop} {n waiting missing : Nat}
    (h : ∃ present : Finset Nat, (∀ i, i ∈ present ↔ P i) ∧ present.card + (waiting + 1) = missing)
    (hQ : ∀ i, Q i ↔ P i ∨ i = n) (new : ¬ P n) :
    ∃ present : Finset Nat, (∀ i, i ∈ present ↔ Q i) ∧ present.card + waiting = missing := by
  obtain ⟨present, hmem, hcard⟩ := h
  have absent : n ∉ present := fun hn => new ((hmem n).1 hn)
  refine ⟨insert n present, fun i => ?_, ?_⟩
  · rw [Finset.mem_insert, hmem, hQ, or_comm]
  · rw [Finset.card_insert_of_notMem absent]
    omega

theorem missing_erase {P Q : Nat → Prop} {n waiting missing : Nat}
    (h : ∃ present : Finset Nat, (∀ i, i ∈ present ↔ P i) ∧ present.card + waiting = missing)
    (hQ : ∀ i, Q i ↔ P i ∧ i ≠ n) (old : P n) :
    ∃ present : Finset Nat, (∀ i, i ∈ present ↔ Q i) ∧ present.card + waiting = missing - 1 := by
  obtain ⟨present, hmem, hcard⟩ := h
  have hn : n ∈ present := (hmem n).2 old
  have hpos : 0 < present.card := Finset.card_pos.2 ⟨n, hn⟩
  refine ⟨present.erase n, fun i => ?_, ?_⟩
  · rw [Finset.mem_erase, hmem, hQ, and_comm]
  · rw [Finset.card_erase_of_mem hn]
    omega

/-- Phases of childless evaluations can change. -/
theorem Forked.congr (h : o.Forked) (hn : o.nextId ≤ o'.nextId) (hk : o'.StemsFrom o)
    (kept : ∀ {id e}, o.evaluations.get? id = some e → ∃ e', o'.evaluations.get? id = some e')
    (joins : ∀ {id e f stack}, o.evaluations.get? id = some e → e.phase = .joining f stack →
      ¬ o.Childless id → ∃ e', o'.evaluations.get? id = some e' ∧ e'.phase = .joining f stack)
    (joined : ∀ {id e' f stack}, o'.evaluations.get? id = some e' → e'.phase = .joining f stack →
      (∃ e, o.evaluations.get? id = some e ∧ e.phase = .joining f stack) ∨
        (o.Childless id ∧ f.scope.around = e'.scope.path ∧ f.waiting.length = f.missing)) :
    o'.Forked := by
  have hchild : ∀ {id i c}, o'.Child id i c ↔ o.Child id i c := child_congr hk kept
  constructor
  · intro id e' live'
    obtain ⟨e, live, -⟩ := hk id e' live'
    exact (h.evaluation_known live).mono hn
  · intro id e' parent live' hparent
    obtain ⟨e, live, hjob, hp, hs, -⟩ := hk id e' live'
    obtain ⟨pe, f, stack, above, joining, hsame, hlt, hscope⟩ := h.above live (hp ▸ hparent)
    have busy : ¬ o.Childless parent.id := fun hc => hc parent.index id ⟨e, live, hp ▸ hparent⟩
    obtain ⟨pe', above', joining'⟩ := joins above joining busy
    obtain ⟨pe₀, above₀, hjob₀, -⟩ := hk parent.id pe' above'
    cases above₀.symm.trans above
    exact ⟨pe', f, stack, above', joining', hjob₀.trans (hsame.trans hjob.symm), hlt,
      by rw [hs, hscope]⟩
  · intro id i c₁ c₂ h₁ h₂
    exact h.sibling_unique (hchild.1 h₁) (hchild.1 h₂)
  · intro id e' f stack live' joining'
    rcases joined live' joining' with ⟨e, live, joining⟩ | ⟨-, hscope, -⟩
    · obtain ⟨e₀, live₀, -, -, hs, -⟩ := hk id e' live'
      cases live₀.symm.trans live
      rw [hs]
      exact h.fork_scope live joining
    · exact hscope
  · intro id e' f stack live' joining'
    rcases joined live' joining' with ⟨e, live, joining⟩ | ⟨hnone, -, hlen⟩
    · obtain ⟨present, hmem, hcard⟩ := h.missing live joining
      refine ⟨present, fun i => ?_, hcard⟩
      simp only [hmem, hchild]
    · refine ⟨∅, fun i => ?_, by simpa using hlen⟩
      have := hnone i
      simp [hchild, this]

theorem Forked.update (h : o.Forked) {id : EvaluationId} {e : Evaluation} {steps : Nat}
    {phase : Phase} (live : o.evaluations.get? id = some e) (childless : o.Childless id)
    (hn : o.nextId ≤ o'.nextId)
    (he : o'.evaluations = o.evaluations.insert id { e with steps, phase })
    (opened : ∀ {f stack}, phase = .joining f stack →
      f.scope.around = e.scope.path ∧ f.waiting.length = f.missing) : o'.Forked := by
  refine h.congr hn (.update live he) ?_ ?_ ?_
  · intro id' e' live'
    rw [he, Table.get?_insert]
    split
    · exact ⟨_, rfl⟩
    · exact ⟨e', live'⟩
  · intro id' e' f stack live' joining busy
    have hne : id ≠ id' := by
      rintro rfl
      exact busy childless
    exact ⟨e', by rw [he, Table.get?_insert, if_neg hne]; exact live', joining⟩
  · intro id' e' f stack live' joining
    rw [he, Table.get?_insert] at live'
    split at live'
    · next hid =>
      cases live'
      exact .inr ⟨hid ▸ childless, opened joining⟩
    · exact .inl ⟨e', live', joining⟩

theorem Forked.frame (h : o.Forked) (hn : o.nextId ≤ o'.nextId)
    (he : o'.evaluations = o.evaluations) : o'.Forked := by
  refine h.congr hn (.of_eq he) ?_ ?_ ?_
  · intro id e live
    exact ⟨e, he ▸ live⟩
  · intro id e f stack live joining _
    exact ⟨e, he ▸ live, joining⟩
  · intro id e f stack live joining
    exact .inl ⟨e, he ▸ live, joining⟩

/-- A worker that stops answers only evaluations that have not begun. -/
theorem Forked.dropAll (h : o.Forked) {worker : WorkerId} {ds : List Delivery}
    (hn : o.nextId ≤ o'.nextId) (he : o'.evaluations = dropAll worker ds o.evaluations)
    (idle : ∀ {id e}, id ∈ ds.map Delivery.evaluation → o.evaluations.get? id = some e →
      e.phase = .queued) : o'.Forked := by
  refine h.congr hn (.dropAll he) ?_ ?_ ?_
  · intro id e live
    rw [he, get?_dropAll, live]
    split
    · exact ⟨_, rfl⟩
    · exact ⟨e, rfl⟩
  · intro id e f stack live joining _
    rw [he, get?_dropAll]
    split
    · next hm => cases (idle hm live).symm.trans joining
    · exact ⟨e, live, joining⟩
  · intro id e' f stack live' joining
    rw [he, get?_dropAll] at live'
    split at live'
    · obtain ⟨e, live, rfl⟩ := Option.map_eq_some_iff.1 live'
      cases joining
    · exact .inl ⟨e', live', joining⟩

/-- A root evaluation is nobody's child. -/
theorem Dispatched.forked {job : JobId} {scope : Scope} {w : Workflow}
    (sent : o.Dispatched job none scope w o') (h : o.Forked)
    (fresh : ∀ {id e}, o.evaluations.get? id = some e → ⟨o.newId⟩ ≠ id) : o'.Forked := by
  obtain ⟨p, phase, hget, hphase⟩ := sent.get?
  obtain ⟨-, -, -, -, hnext⟩ := sent.unchanged
  have old : ∀ {id e}, o.evaluations.get? id = some e → o'.evaluations.get? id = some e := by
    intro id e live
    rw [hget, if_neg (fresh live)]
    exact live
  have idle : ∀ {f stack}, phase ≠ .joining f stack := by
    rintro f stack rfl
    rcases hphase with hq | hr
    · cases hq
    · cases hr
  have hchild : ∀ {id i c}, o'.Child id i c ↔ o.Child id i c := by
    simp [sent.child (absent_of_fresh fresh)]
  constructor
  · intro id e live
    rw [hget] at live
    split at live
    · next hid => exact hid ▸ known_newId (by omega)
    · exact (h.evaluation_known live).mono (by omega)
  · intro id e parent live hparent
    rw [hget] at live
    split at live
    · cases live
      cases hparent
    · obtain ⟨pe, f, stack, above, rest⟩ := h.above live hparent
      exact ⟨pe, f, stack, old above, rest⟩
  · intro id i c₁ c₂ h₁ h₂
    exact h.sibling_unique (hchild.1 h₁) (hchild.1 h₂)
  · intro id e f stack live joining
    rw [hget] at live
    split at live
    · cases live
      exact absurd joining idle
    · exact h.fork_scope live joining
  · intro id e f stack live joining
    rw [hget] at live
    split at live
    · cases live
      exact absurd joining idle
    · simp only [hchild]
      exact h.missing live joining

/-- The next child of a fork is one more to wait for and one less to place. -/
theorem Forked.place (h : o.Forked) {id : EvaluationId} {e : Evaluation} {f : Fork} {w : Workflow}
    {rest : List Workflow} {stack : List Frame} {scopes : ScopeTree} {scope : Scope}
    (live : o.evaluations.get? id = some e) (joining : e.phase = .joining f stack)
    (waiting : f.waiting = w :: rest)
    (sent : Dispatched
      { o with
        evaluations := o.evaluations.insert id
          { e with phase := .joining { f with placed := f.placed + 1, waiting := rest } stack }
        scopes }
      e.job (some ⟨id, f.placed⟩) scope w o')
    (around : scope.around = f.scope.path)
    (fresh : ∀ {id e}, o.evaluations.get? id = some e → ⟨o.newId⟩ ≠ id) : o'.Forked := by
  obtain ⟨p, phase, hget, hphase⟩ := sent.get?
  obtain ⟨-, -, -, -, hnext⟩ := sent.unchanged
  have hid : o'.evaluations.get? id =
      some { e with
        phase := .joining { f with placed := f.placed + 1, waiting := rest } stack } := by
    rw [hget, Table.get?_insert, if_pos rfl]
    exact if_neg (fresh live)
  have hold : ∀ {x ex}, id ≠ x → o.evaluations.get? x = some ex →
      o'.evaluations.get? x = some ex := by
    intro x ex hne hx
    rw [hget, Table.get?_insert, if_neg hne]
    exact (if_neg (fresh hx)).trans hx
  -- An evaluation is the new child, its parent, or one that was there before.
  have hcases : ∀ {x ex}, o'.evaluations.get? x = some ex →
      (x = ⟨o.newId⟩ ∧ ex = ⟨e.job, some ⟨id, f.placed⟩, some p, scope, 0, phase⟩) ∨
      (x = id ∧ ex = { e with
        phase := .joining { f with placed := f.placed + 1, waiting := rest } stack }) ∨
      (id ≠ x ∧ o.evaluations.get? x = some ex) := by
    intro x ex hx
    rw [hget, Table.get?_insert] at hx
    split at hx
    · next hne => exact .inl ⟨hne.symm, (Option.some.inj hx).symm⟩
    · split at hx
      · next heq => exact .inr (.inl ⟨heq.symm, (Option.some.inj hx).symm⟩)
      · next hne => exact .inr (.inr ⟨hne, hx⟩)
  have idle : ∀ {f' stack'}, phase ≠ .joining f' stack' := by
    rintro f' stack' rfl
    rcases hphase with hq | hr
    · cases hq
    · cases hr
  have hchild : ∀ {x c i}, o'.Child x i c ↔
      o.Child x i c ∨ (x = id ∧ i = f.placed ∧ c = ⟨o.newId⟩) :=
    sent.child_placed live (absent_of_fresh fresh)
  have hlt : ∀ {i c}, o.Child id i c → i < f.placed := h.index_lt live joining
  constructor
  · intro x ex hx
    rcases hcases hx with ⟨rfl, -⟩ | ⟨rfl, -⟩ | ⟨-, hx⟩
    · exact known_newId (by simp [hnext])
    · exact (h.evaluation_known live).mono (by simp [hnext])
    · exact (h.evaluation_known hx).mono (by simp [hnext])
  · intro x ex parent hx hparent
    rcases hcases hx with ⟨rfl, rfl⟩ | ⟨rfl, rfl⟩ | ⟨-, hx⟩
    · cases hparent
      exact ⟨_, _, _, hid, rfl, rfl, Nat.lt_succ_self _, around⟩
    · have kept := h.above_kept live joining hid rfl (Nat.le_succ _) live hparent hold
      exact kept
    · exact h.above_kept live joining hid rfl (Nat.le_succ _) hx hparent hold
  · intro x i c₁ c₂ h₁ h₂
    rcases hchild.1 h₁ with h₁ | ⟨rfl, rfl, rfl⟩ <;> rcases hchild.1 h₂ with h₂ | ⟨hx, hi, hc⟩
    · exact h.sibling_unique h₁ h₂
    · subst hx hi
      exact absurd (hlt h₁) (Nat.lt_irrefl _)
    · exact absurd (hlt h₂) (Nat.lt_irrefl _)
    · exact hc.symm
  · intro x ex f' stack' hx joining'
    rcases hcases hx with ⟨rfl, rfl⟩ | ⟨rfl, rfl⟩ | ⟨-, hx⟩
    · exact absurd joining' idle
    · cases joining'
      have hscope := h.fork_scope live joining
      exact hscope
    · exact h.fork_scope hx joining'
  · intro x ex f' stack' hx joining'
    rcases hcases hx with ⟨rfl, rfl⟩ | ⟨rfl, rfl⟩ | ⟨hne, hx⟩
    · exact absurd joining' idle
    · cases joining'
      have before := h.missing live joining
      rw [waiting] at before
      have new : ¬ ∃ c, o.Child x f.placed c := by
        rintro ⟨c, hc⟩
        exact Nat.lt_irrefl _ (hlt hc)
      refine missing_insert before (fun i => ?_) new
      simp [hchild, exists_or]
    · obtain ⟨present, hmem, hcard⟩ := h.missing hx joining'
      refine ⟨present, fun i => ?_, hcard⟩
      simp [hmem, hchild, Ne.symm hne]

/-- The root evaluation of a job can be dropped when it has responded. -/
theorem Forked.collectRoot (h : o.Forked) {id : EvaluationId} {e : Evaluation}
    (live : o.evaluations.get? id = some e) (childless : o.Childless id) (root : e.parent = none)
    (hn : o.nextId ≤ o'.nextId) (he : o'.evaluations = o.evaluations.erase id) : o'.Forked := by
  have hcases : ∀ {x ex}, o'.evaluations.get? x = some ex →
      id ≠ x ∧ o.evaluations.get? x = some ex := by
    intro x ex hx
    rw [he, Table.get?_erase] at hx
    split at hx
    · cases hx
    · next hne => exact ⟨hne, hx⟩
  have hchild : ∀ {x i c}, o'.Child x i c ↔ o.Child x i c := by
    intro x i c
    rw [child_erase id (.erase he) (by simp [he]) fun hne hx =>
        ⟨_, by simpa [he, Ne.symm hne] using hx⟩, and_iff_left_iff_imp]
    rintro ⟨ce, hc, hparent⟩ rfl
    cases hc.symm.trans live
    cases root.symm.trans hparent
  constructor
  · intro x ex hx
    exact (h.evaluation_known (hcases hx).2).mono hn
  · intro x ex parent hx hparent
    obtain ⟨pe, f, stack, above, rest⟩ := h.above (hcases hx).2 hparent
    refine ⟨pe, f, stack, ?_, rest⟩
    rw [he, Table.get?_erase, if_neg]
    · exact above
    · rintro rfl
      exact childless _ _ ⟨ex, (hcases hx).2, hparent⟩
  · intro x i c₁ c₂ h₁ h₂
    exact h.sibling_unique (hchild.1 h₁) (hchild.1 h₂)
  · intro x ex f stack hx joining
    exact h.fork_scope (hcases hx).2 joining
  · intro x ex f stack hx joining
    simp only [hchild]
    exact h.missing (hcases hx).2 joining

/-- A child whose outcome has arrived is missing no more. -/
theorem Forked.collectChild (h : o.Forked) {id : EvaluationId} {e : Evaluation} {parent : Parent}
    {pe : Evaluation} {f : Fork} {stack : List Frame} {join : Join}
    (live : o.evaluations.get? id = some e) (childless : o.Childless id)
    (child : e.parent = some parent) (above : o.evaluations.get? parent.id = some pe)
    (joining : pe.phase = .joining f stack) (hn : o.nextId ≤ o'.nextId)
    (he : o'.evaluations = (o.evaluations.erase id).insert parent.id
      { pe with phase := .joining { f with join, missing := f.missing - 1 } stack }) :
    o'.Forked := by
  have hne : id ≠ parent.id := by
    intro heq
    exact childless parent.index id ⟨e, live, by rw [child, heq]⟩
  have hpe : o'.evaluations.get? parent.id =
      some { pe with phase := .joining { f with join, missing := f.missing - 1 } stack } := by
    rw [he, Table.get?_insert, if_pos rfl]
  have hcases : ∀ {x ex}, o'.evaluations.get? x = some ex →
      (x = parent.id ∧
        ex = { pe with phase := .joining { f with join, missing := f.missing - 1 } stack }) ∨
      (parent.id ≠ x ∧ o.evaluations.get? x = some ex) := by
    intro x ex hx
    rw [he, Table.get?_insert] at hx
    split at hx
    · next heq => exact .inl ⟨heq.symm, (Option.some.inj hx).symm⟩
    · next hne =>
      rw [Table.get?_erase] at hx
      split at hx
      · cases hx
      · exact .inr ⟨hne, hx⟩
  -- The child that goes is nobody's parent.
  have keeps : ∀ {x ex parent'}, o.evaluations.get? x = some ex → ex.parent = some parent' →
      ∀ {e'}, parent.id ≠ parent'.id → o.evaluations.get? parent'.id = some e' →
        o'.evaluations.get? parent'.id = some e' := by
    intro x ex parent' hx hparent e' h₁ above'
    rw [he, Table.get?_insert, if_neg h₁, Table.get?_erase, if_neg]
    · exact above'
    · rintro rfl
      exact childless _ _ ⟨ex, hx, hparent⟩
  obtain ⟨-, hchild⟩ := child_collect hne above he
  have self : o.Child parent.id parent.index id := ⟨e, live, child⟩
  have place_of_child : ∀ {x i}, o.Child x i id → x = parent.id ∧ i = parent.index := by
    rintro x i ⟨ce, hce, hparent⟩
    cases hce.symm.trans live
    cases hparent.symm.trans child
    exact ⟨rfl, rfl⟩
  constructor
  · intro x ex hx
    rcases hcases hx with ⟨rfl, -⟩ | ⟨-, hx⟩
    · exact (h.evaluation_known above).mono hn
    · exact (h.evaluation_known hx).mono hn
  · intro x ex parent' hx hparent
    rcases hcases hx with ⟨rfl, rfl⟩ | ⟨-, hx⟩
    · have kept := h.above_kept above joining hpe rfl (Nat.le_refl _) above hparent
        (keeps above hparent)
      exact kept
    · exact h.above_kept above joining hpe rfl (Nat.le_refl _) hx hparent (keeps hx hparent)
  · intro x i c₁ c₂ h₁ h₂
    exact h.sibling_unique (hchild.1 h₁).1 (hchild.1 h₂).1
  · intro x ex f' stack' hx joining'
    rcases hcases hx with ⟨rfl, rfl⟩ | ⟨-, hx⟩
    · cases joining'
      have hscope := h.fork_scope above joining
      exact hscope
    · exact h.fork_scope hx joining'
  · intro x ex f' stack' hx joining'
    rcases hcases hx with ⟨rfl, rfl⟩ | ⟨hother, hx⟩
    · cases joining'
      refine missing_erase (h.missing above joining) (fun i => ?_) ⟨id, self⟩
      simp only [hchild]
      constructor
      · rintro ⟨c, hc, hcne⟩
        refine ⟨⟨c, hc⟩, ?_⟩
        rintro rfl
        exact hcne (h.sibling_unique hc self)
      · rintro ⟨⟨c, hc⟩, hi⟩
        refine ⟨c, hc, ?_⟩
        rintro rfl
        exact hi (place_of_child hc).2
    · obtain ⟨present, hmem, hcard⟩ := h.missing hx joining'
      refine ⟨present, fun i => ?_, hcard⟩
      simp only [hmem, hchild]
      constructor
      · rintro ⟨c, hc⟩
        refine ⟨c, hc, ?_⟩
        rintro rfl
        exact hother (place_of_child hc).1.symm
      · rintro ⟨c, hc, -⟩
        exact ⟨c, hc⟩

/-- What an evaluation does next by itself, but for placing a child, it does without children. -/
theorem Forked.childless_of_turn (h : o.Forked) {id : EvaluationId} {e : Evaluation}
    {t : Cluster.Turn} {s : Surroundings} {phase : Phase}
    (live : o.evaluations.get? id = some e) (turn : t.Follows o.scopes e)
    (leads : t.Leads s phase) : o.Childless id := by
  cases turn with
  | joined joining placed arrived => exact h.childless_of_missing live joining arrived
  | places joining waiting => cases leads
  | _ => exact h.childless live (by simp [*])

theorem Forked.step {ev : Event} (h : o.Forked) (hm : o.Mailed) (hn : o.nextId < Uuid.supply)
    (s : o.Step ev o') : o'.Forked := by
  have fresh : ∀ {id e}, o.evaluations.get? id = some e → ⟨o.newId⟩ ≠ id := by
    rintro id e live rfl
    exact (h.evaluation_known live).ne_newId hn rfl
  cases s with
  | elapse => exact h
  | arrange => exact h
  | submit now => exact h.frame (Nat.le_succ _) rfl
  | cancel => exact h.frame (Nat.le_refl _) rfl
  | forget => exact h.frame (Nat.le_refl _) rfl
  | shutdown => exact h.frame (Nat.le_refl _) rfl
  | begin thread sent => exact sent.forked (h.frame (Nat.le_refl _) rfl) fresh
  | @receive i post d rest e at_slot inbox live =>
    have queued := hm.queued_of_mem at_slot (by simp [inbox]) live
    refine h.update live (h.childless live (by simp [queued])) (Nat.le_refl _) rfl ?_
    rintro f stack ⟨⟩
  | @close i post worker at_slot stopped =>
    exact h.dropAll (Nat.le_refl _) rfl fun hd live => hm.queued_of_mem at_slot hd live
  | shift steps live turn leads later =>
    refine h.update live (h.childless_of_turn live turn leads) later.1 rfl ?_
    intro f stack joining
    exact absurd joining (leads.not_joining f stack)
  | fork steps live running free forks =>
    refine h.update live (h.childless live (by simp [running])) (Nat.le_refl _) rfl ?_
    rintro f stack ⟨⟩
    exact ⟨rfl, rfl⟩
  | place live joining waiting sent => exact h.place live joining waiting sent rfl fresh
  | collectRoot now live responded root known =>
    exact h.collectRoot live (h.childless live (by simp [responded])) root (Nat.le_refl _) rfl
  | collectChild now live responded child above joining =>
    exact h.collectChild live (h.childless live (by simp [responded])) child above joining
      (Nat.le_refl _) rfl

end Outline

end WorkflowEngine
