import WorkflowEngine.Proofs.Dues
import WorkflowEngine.Proofs.VirtualTime
/-!
What a job owes: all that its evaluations have left. What others do leaves it as it is, and each
move of the job itself takes one part of it and puts smaller ones in its place.
-/
set_option autoImplicit false

namespace WorkflowEngine

open Relation (CutExpand)

/-- One part of a debt is paid, and any number of smaller ones come in its place. -/
theorem cutExpand_of_parts {debt parts : Multiset Ordinal.{0}} {a : Ordinal.{0}}
    (less : ∀ b ∈ parts, b < a) : CutExpand (· < ·) (parts + debt) (a ::ₘ debt) := by
  refine ⟨parts, a, less, ?_⟩
  rw [Multiset.cons_add, add_comm debt, ← Multiset.singleton_add, add_comm]

theorem map_left_insert {ids : Finset EvaluationId} {id : EvaluationId}
    {left : EvaluationId → Ordinal.{0}} (new : id ∉ ids) (n : Ordinal.{0}) :
    (insert id ids).val.map (Function.update left id n) = n ::ₘ ids.val.map left := by
  rw [Finset.insert_val_of_notMem new, Multiset.map_cons, Function.update_self]
  congr 1
  refine Multiset.map_congr rfl fun id' hid => Function.update_of_ne ?_ _ _
  rintro rfl
  exact new hid

theorem map_left_erase {ids : Finset EvaluationId} {id : EvaluationId}
    (left : EvaluationId → Ordinal.{0}) (old : id ∈ ids) :
    ids.val.map left = left id ::ₘ (ids.erase id).val.map left := by
  rw [← Multiset.map_cons, ← Finset.insert_val_of_notMem (Finset.notMem_erase id ids),
    Finset.insert_erase old]

theorem map_left_update {ids : Finset EvaluationId} {id : EvaluationId}
    (left : EvaluationId → Ordinal.{0}) (old : id ∈ ids) (n : Ordinal.{0}) :
    ids.val.map (Function.update left id n) = n ::ₘ (ids.erase id).val.map left := by
  rw [← map_left_insert (Finset.notMem_erase id ids), Finset.insert_erase old]

namespace Outline

/-- What a job owes: for its workflow until it has begun, and then for each of its evaluations. -/
inductive Owes (o : Outline) (s : Surroundings) (left : EvaluationId → Ordinal.{0}) :
    Multiset Ordinal.{0} → Prop
  | submitted {w : Workflow} {scope : Scope} {n a : Ordinal.{0}}
      (thread : o.threads.get? s.job = some (.submitted w scope))
      (costs : (Stage.queued w).Costs s n) (less : n < a) : Owes o s left {a}
  | begun (ids : Finset EvaluationId)
      (begun : ∀ w scope, o.threads.get? s.job ≠ some (.submitted w scope))
      (owned : ∀ id, id ∈ ids ↔ o.Owned s.job id) : Owes o s left (ids.val.map left)

/-- A job of which each evaluation has enough left, whether it goes on or is stopped. -/
structure Budgeted (o : Outline) (s : Surroundings) (source : EvaluationId → Workflow)
    (left : EvaluationId → Ordinal.{0}) (debt : Multiset Ordinal.{0}) : Prop where
  drains : ∀ {id e}, o.evaluations.get? id = some e → e.job = s.job →
    (e.phase.toDrain : Ordinal.{0}) ≤ left id
  stands : ∀ {id e}, o.evaluations.get? id = some e → e.job = s.job →
    o.scopes.isCancelled e.scope = false →
    ∃ t, o.Stands s source id e.phase t ∧ t.Costs s (left id)
  owes : o.Owes s left debt

/-- The evaluations of a job are as they were. -/
def Unmoved (o' o : Outline) (job : JobId) : Prop :=
  ∀ id e, e.job = job → (o'.evaluations.get? id = some e ↔ o.evaluations.get? id = some e)

variable {o o' : Outline} {s : Surroundings} {source source' : EvaluationId → Workflow}
  {left left' : EvaluationId → Ordinal.{0}} {debt debt' : Multiset Ordinal.{0}} {job : JobId}
  {id : EvaluationId} {e e' : Evaluation}

theorem child_keeps (keeps : ∀ {id e}, o.evaluations.get? id = some e → source' id = source id)
    {i : Nat} {c : EvaluationId} (h : o.Child id i c) : source' c = source c := by
  obtain ⟨e, live, -⟩ := h
  exact keeps live

theorem unmoved_update {steps : Nat} {phase : Phase} (live : o.evaluations.get? id = some e)
    (other : e.job ≠ job) (he : o'.evaluations = o.evaluations.insert id { e with steps, phase }) :
    o'.Unmoved o job := by
  intro id₀ e₀ own
  rw [he, Table.get?_insert]
  split
  · next hid =>
    subst hid
    constructor
    · rintro ⟨⟩
      exact absurd own other
    · intro live₀
      cases live.symm.trans live₀
      exact absurd own other
  · exact Iff.rfl

theorem unmoved_erase (live : o.evaluations.get? id = some e) (other : e.job ≠ job)
    (he : o'.evaluations = o.evaluations.erase id) : o'.Unmoved o job := by
  intro id₀ e₀ own
  rw [he, Table.get?_erase]
  split
  · next hid =>
    subst hid
    constructor
    · rintro ⟨⟩
    · intro live₀
      cases live.symm.trans live₀
      exact absurd own other
  · exact Iff.rfl

theorem Dispatched.unmoved {job' : JobId} {parent : Option Parent} {scope : Scope} {w : Workflow}
    (sent : o.Dispatched job' parent scope w o') (fresh : o.evaluations.get? ⟨o.newId⟩ = none)
    (other : job' ≠ job) : o'.Unmoved o job := by
  intro id₀ e₀ own
  obtain ⟨p, phase, hget, -⟩ := sent.get?
  rw [hget]
  split
  · next hid =>
    subst hid
    constructor
    · rintro ⟨⟩
      exact absurd own other
    · intro live
      cases live.symm.trans fresh
  · exact Iff.rfl

theorem Unmoved.trans {o'' : Outline} (h : o''.Unmoved o' job) (h' : o'.Unmoved o job) :
    o''.Unmoved o job := fun id e own => (h id e own).trans (h' id e own)

/-- What others do leaves a job as it is, as long as the engine serves. -/
theorem Step.unmoved {ev : Event} (st : o.Step ev o') (hc : o.Consistent)
    (hn : o.nextId < Uuid.supply) (stays : o.scopes.isCancelled .root = false)
    (known : o.Known job.uuid) (foreign : ∀ m, ev = .move m → ¬ o.Owns job m) :
    o'.Unmoved o job ∧ o'.threads.get? job = o.threads.get? job := by
  have fresh := hc.fresh hn
  cases st with
  | submit now =>
    refine ⟨fun _ _ _ => Iff.rfl, (Table.get?_insert _ _ _ _).trans (if_neg ?_)⟩
    rintro rfl
    exact known.ne_newId hn rfl
  | begin thread' sent =>
    have other := foreign _ rfl
    obtain ⟨-, -, hthreads, -⟩ := sent.unchanged
    exact ⟨sent.unmoved fresh other,
      hthreads ▸ (Table.get?_insert _ _ _ _).trans (if_neg other)⟩
  | receive at_slot inbox live =>
    have other := fun own => foreign _ rfl ⟨_, _, _, at_slot, inbox, _, live, own⟩
    exact ⟨unmoved_update live other rfl, rfl⟩
  | close at_slot stopped => exact absurd (stopped.symm.trans stays) (by simp)
  | shift steps live turn leads later =>
    have other := fun own => foreign _ rfl ⟨_, live, own⟩
    exact ⟨unmoved_update live other rfl, rfl⟩
  | fork steps live running free forks =>
    have other := fun own => foreign _ rfl ⟨_, live, own⟩
    exact ⟨unmoved_update live other rfl, rfl⟩
  | @place id e f w rest stack _ live joining waiting sent =>
    have other := fun own => foreign _ rfl ⟨_, live, own⟩
    have new : id ≠ ⟨o.newId⟩ := by
      rintro rfl
      cases live.symm.trans fresh
    obtain ⟨-, -, hthreads, -⟩ := sent.unchanged
    refine ⟨(sent.unmoved ?_ other).trans (unmoved_update live other rfl),
      congrArg (Table.get? · job) hthreads⟩
    exact (Table.get?_insert _ _ _ _).trans ((if_neg new).trans fresh)
  | collectRoot now live responded root known =>
    have other := fun own => foreign _ rfl ⟨_, live, own⟩
    exact ⟨unmoved_erase live other rfl, (Table.get?_insert _ _ _ _).trans (if_neg other)⟩
  | @collectChild id e r now parent pe f stack live responded child above joining =>
    have other := fun own => foreign _ rfl ⟨_, live, own⟩
    obtain ⟨pe', -, -, above', -, family, -⟩ := hc.above live child
    cases above'.symm.trans above
    have hne : id ≠ parent.id := by
      rintro rfl
      cases live.symm.trans above
      cases responded.symm.trans joining
    have gone : Unmoved { o with evaluations := o.evaluations.erase id } o job :=
      unmoved_erase live other rfl
    have above : (o.evaluations.erase id).get? parent.id = some pe :=
      (Table.get?_erase _ _ _).trans ((if_neg hne).trans above)
    exact ⟨.trans (unmoved_update above (family ▸ other) rfl) gone, rfl⟩
  | _ => exact ⟨fun _ _ _ => Iff.rfl, rfl⟩

/-- The children of an evaluation of the job are those that it had. -/
theorem Unmoved.child (h : o'.Unmoved o job) (hf : o.Forked) (hf' : o'.Forked)
    (live : o.evaluations.get? id = some e) (own : e.job = job) {i : Nat} {c : EvaluationId} :
    o'.Child id i c ↔ o.Child id i c := by
  constructor
  · rintro ⟨ce, hce, hparent⟩
    obtain ⟨pe, -, -, above, -, family, -⟩ := hf'.above hce hparent
    cases ((h _ _ own).2 live).symm.trans above
    exact ⟨ce, (h _ _ (family.symm.trans own)).1 hce, hparent⟩
  · rintro ⟨ce, hce, hparent⟩
    obtain ⟨pe, -, -, above, -, family, -⟩ := hf.above hce hparent
    cases live.symm.trans above
    exact ⟨ce, (h _ _ (family.symm.trans own)).2 hce, hparent⟩

/-- Evaluations that are as they were have what they had left. The others are looked at one by
one. -/
theorem Budgeted.change (h : o.Budgeted s source left debt)
    (hs : ∀ {scope}, o'.scopes.isCancelled scope = false → o.scopes.isCancelled scope = false)
    (keeps : ∀ {id e}, o.evaluations.get? id = some e → source' id = source id)
    (each : ∀ {id e}, o'.evaluations.get? id = some e → e.job = s.job →
      (o.evaluations.get? id = some e ∧ left' id = left id ∧
        ∀ {i c}, o'.Child id i c ↔ o.Child id i c) ∨
      ((e.phase.toDrain : Ordinal.{0}) ≤ left' id ∧
        (o'.scopes.isCancelled e.scope = false →
          ∃ t, o'.Stands s source' id e.phase t ∧ t.Costs s (left' id))))
    (owes : o'.Owes s left' debt') : o'.Budgeted s source' left' debt' where
  drains := by
    intro id e live own
    rcases each live own with ⟨before, same, -⟩ | ⟨drains, -⟩
    · exact same ▸ h.drains before own
    · exact drains
  stands := by
    intro id e live own free
    rcases each live own with ⟨before, same, hchild⟩ | ⟨-, stands⟩
    · obtain ⟨t, stands, costs⟩ := h.stands before own (hs free)
      exact ⟨t, stands.congr (keeps before) hchild (child_keeps keeps), same ▸ costs⟩
    · exact stands free
  owes := owes

/-- What others do leaves a job what it had left. -/
theorem Budgeted.unmoved (h : o.Budgeted s source left debt) (hf : o.Forked) (hf' : o'.Forked)
    (same : o'.Unmoved o s.job) (ht : o'.threads.get? s.job = o.threads.get? s.job)
    (hs : ∀ {scope}, o'.scopes.isCancelled scope = false → o.scopes.isCancelled scope = false)
    (keeps : ∀ {id e}, o.evaluations.get? id = some e → source' id = source id) :
    o'.Budgeted s source' left debt := by
  refine h.change hs keeps (fun live own => ?_) ?_
  · have before := (same _ _ own).1 live
    exact .inl ⟨before, rfl, same.child hf hf' before own⟩
  · cases h.owes with
    | submitted thread costs less => exact .submitted (ht ▸ thread) costs less
    | begun ids begun owned =>
      refine .begun ids (fun w scope => ht ▸ begun w scope) fun id => (owned id).trans ?_
      exact exists_congr fun e => and_congr_left fun own => (same _ _ own).symm

/-- The job has less left than it owed before. -/
def Spends (o' : Outline) (s : Surroundings) (source : EvaluationId → Workflow)
    (debt : Multiset Ordinal.{0}) : Prop :=
  ∃ left debt', o'.Budgeted s source left debt' ∧ CutExpand (· < ·) debt' debt

/-- A job with an evaluation has begun. -/
theorem Budgeted.exists_ids (h : o.Budgeted s source left debt) (ht : o.Threaded)
    (live : o.evaluations.get? id = some e) (own : e.job = s.job) :
    ∃ ids : Finset EvaluationId, (∀ id, id ∈ ids ↔ o.Owned s.job id) ∧
      debt = ids.val.map left := by
  cases h.owes with
  | submitted thread => cases (own ▸ ht.thread_of_evaluation live).symm.trans thread
  | begun ids begun owned => exact ⟨ids, owned, rfl⟩

/-- A turn of one evaluation leaves less for it. -/
theorem Budgeted.update (h : o.Budgeted s source left debt) (ht : o.Threaded) {steps : Nat}
    {phase : Phase} (live : o.evaluations.get? id = some e) (own : e.job = s.job)
    (he : o'.evaluations = o.evaluations.insert id { e with steps, phase })
    (threads : o'.threads = o.threads)
    (hs : ∀ {scope}, o'.scopes.isCancelled scope = false → o.scopes.isCancelled scope = false)
    (keeps : ∀ {id e}, o.evaluations.get? id = some e → source' id = source id)
    (stopped : o.scopes.isCancelled e.scope = true → phase.toDrain < e.phase.toDrain)
    (on : o.scopes.isCancelled e.scope = false → ∀ {t}, o.Stands s source id e.phase t →
      ∃ t', o.Stands s source id phase t' ∧ Relation.TransGen (Stage.Leads s) t t') :
    o'.Spends s source' debt := by
  obtain ⟨k, less, drains, stands⟩ : ∃ k < left id, (phase.toDrain : Ordinal.{0}) ≤ k ∧
      (o.scopes.isCancelled e.scope = false →
        ∃ t, o.Stands s source id phase t ∧ t.Costs s k) := by
    cases free : o.scopes.isCancelled e.scope with
    | false =>
      obtain ⟨t, stands, costs⟩ := h.stands live own free
      obtain ⟨t', stands', path⟩ := on free stands
      obtain ⟨k, less, costs'⟩ := costs.of_path path
      exact ⟨k, less, costs'.le _, fun _ => ⟨t', stands', costs'⟩⟩
    | true =>
      refine ⟨phase.toDrain, ?_, le_rfl, by simp⟩
      exact lt_of_lt_of_le (Nat.cast_lt.2 (stopped free)) (h.drains live own)
  obtain ⟨ids, owned, rfl⟩ := h.exists_ids ht live own
  have hid : id ∈ ids := (owned id).2 ⟨e, live, own⟩
  refine ⟨Function.update left id k, _, h.change hs keeps (fun {id' e'} live' own' => ?_)
    (.begun ids (fun w scope => ?_) fun id' =>
      (owned id').trans (owned_update live he id').symm), ?_⟩
  · rw [he, Table.get?_insert] at live'
    split at live'
    · next same =>
      subst same
      cases live'
      rw [Function.update_self]
      refine .inr ⟨drains, fun free => ?_⟩
      obtain ⟨t, stands, costs⟩ := stands (hs free)
      have stands' := stands.congr (keeps live) (child_update live he) (child_keeps keeps)
      exact ⟨t, stands', costs⟩
    · next other =>
      exact .inl ⟨live', Function.update_of_ne (Ne.symm other) _ _, child_update live he⟩
  · rw [threads, ← own, ht.thread_of_evaluation live]
    rintro ⟨⟩
  · rw [map_left_update left hid, map_left_erase left hid]
    have below : ∀ b ∈ ({k} : Multiset Ordinal.{0}), b < left id := by simpa using less
    exact cutExpand_of_parts below

/-- A job begins with its root evaluation. -/
theorem Budgeted.begin (h : o.Budgeted s source left debt) (hc : o.Consistent)
    (fresh : o.evaluations.get? ⟨o.newId⟩ = none) (stays : o.scopes.isCancelled .root = false)
    {v : Workflow} {scope : Scope} (thread : o.threads.get? s.job = some (.submitted v scope))
    (sent : Dispatched { o with threads := o.threads.insert s.job .waiting } s.job none scope v o')
    (new : source' ⟨o.newId⟩ = v) : o'.Spends s source' debt := by
  have none : ∀ {id e}, o.evaluations.get? id = some e → e.job ≠ s.job := by
    intro id e live own
    cases (own ▸ hc.thread_of_evaluation live).symm.trans thread
  have mailed : Mailed { o with threads := o.threads.insert s.job .waiting } :=
    hc.toMailed.frame rfl rfl rfl fun h => h
  obtain ⟨-, -, hthreads, -⟩ := sent.unchanged
  cases h.owes with
  | begun ids begun => exact absurd thread (begun v scope)
  | @submitted w scope' n a thread' costs less =>
    cases thread.symm.trans thread'
    refine ⟨fun _ => n, _, ⟨fun {id e} live own => ?_, fun {id e} live own _ => ?_,
      .begun {⟨o.newId⟩} (fun w scope => ?_) fun id => ?_⟩, ?_⟩
    · rcases sent.cases mailed live with before | ⟨rfl, p, phase, rfl, rfl | ⟨f, -, stopped⟩⟩
      · exact absurd own (none before)
      · exact costs.le _
      · exact absurd (stopped.symm.trans stays) (by simp)
    · rcases sent.cases mailed live with before | ⟨rfl, p, phase, rfl, rfl | ⟨f, -, stopped⟩⟩
      · exact absurd own (none before)
      · exact ⟨_, .queued, new.symm ▸ costs⟩
      · exact absurd (stopped.symm.trans stays) (by simp)
    · rw [hthreads, Table.get?_insert, if_pos rfl]
      rintro ⟨⟩
    · rw [sent.owned fresh, Finset.mem_singleton]
      refine (or_iff_right ?_).symm.trans (or_congr_right (and_iff_left rfl).symm)
      rintro ⟨e, live, own⟩
      exact none live own
    · exact Relation.cutExpand_singleton_singleton less

/-- What is left for a fork that places a child, and for the child. -/
theorem Budgeted.exists_shares (h : o.Budgeted s source left debt) (hf : o.Forked) {f : Fork}
    {v : Workflow} {rest : List Workflow} {stack : List Frame}
    (live : o.evaluations.get? id = some e) (own : e.job = s.job)
    (joining : e.phase = .joining f stack) (waiting : f.waiting = v :: rest)
    (keeps : ∀ {id e}, o.evaluations.get? id = some e → source' id = source id)
    (new : source' ⟨o.newId⟩ = v)
    (hchild : ∀ {i c}, o'.Child id i c ↔ o.Child id i c ∨ (i = f.placed ∧ c = ⟨o.newId⟩)) :
    ∃ k < left id, ∃ n < left id,
      ((Phase.joining { f with placed := f.placed + 1, waiting := rest } stack).toDrain :
        Ordinal.{0}) ≤ k ∧
      (Phase.queued.toDrain : Ordinal.{0}) ≤ n ∧
      (o.scopes.isCancelled e.scope = false → ∃ t, o'.Stands s source' id
        (.joining { f with placed := f.placed + 1, waiting := rest } stack) t ∧ t.Costs s k) ∧
      (o.scopes.isCancelled (o.scopes.child f.scope).1 = false →
        (Stage.queued v).Costs s n) := by
  cases free : o.scopes.isCancelled e.scope with
  | false =>
    obtain ⟨t, stands, costs⟩ := h.stands live own free
    rw [joining] at stands
    cases stands with
    | joining _ joins =>
      rw [waiting] at costs
      obtain ⟨k, less, costs₁⟩ := costs.next (.place _ _ _ _ _)
      obtain ⟨n, less', costs₂⟩ := costs.next (.child _ _ _ _ _)
      exact ⟨k, less, n, less', costs₁.le _, costs₂.le _,
        fun _ => ⟨_, .joining stack (joins.placed waiting keeps new hchild), costs₁⟩,
        fun _ => costs₂⟩
  | true =>
    have drains := h.drains live own
    simp only [joining, Phase.toDrain, waiting, List.length_cons] at drains
    have enough : ∀ {m : Nat}, m < 3 + 5 * (rest.length + 1) → (m : Ordinal.{0}) < left id :=
      fun hm => lt_of_lt_of_le (Nat.cast_lt.2 hm) drains
    refine ⟨(3 + 5 * rest.length : Nat), enough (by omega), (4 : Nat), enough (by omega), le_rfl,
      le_rfl, by simp, fun inner => ?_⟩
    have inside : e.scope.path <:+ (o.scopes.child f.scope).1.path := by
      have hf := hf.fork_scope live joining
      exact ⟨[o.scopes.next, f.scope.number], by simp [ScopeTree.child, Scope.path, hf]⟩
    exact absurd (ScopeTree.isCancelled_of_suffix inside free) (by simp [inner])

/-- A fork places a child. -/
theorem Budgeted.place (h : o.Budgeted s source left debt) (hc : o.Consistent)
    (fresh : o.evaluations.get? ⟨o.newId⟩ = none) (stays : o.scopes.isCancelled .root = false)
    {f : Fork} {v : Workflow} {rest : List Workflow} {stack : List Frame}
    (live : o.evaluations.get? id = some e) (own : e.job = s.job)
    (joining : e.phase = .joining f stack) (waiting : f.waiting = v :: rest)
    (sent : Dispatched
      { o with
        evaluations := o.evaluations.insert id
          { e with phase := .joining { f with placed := f.placed + 1, waiting := rest } stack }
        scopes := (o.scopes.child f.scope).2 }
      e.job (some ⟨id, f.placed⟩) (o.scopes.child f.scope).1 v o')
    (keeps : ∀ {id e}, o.evaluations.get? id = some e → source' id = source id)
    (new : source' ⟨o.newId⟩ = v) : o'.Spends s source' debt := by
  have mailed := hc.toMailed.places live joining rest
  have old : ∀ {id' e'}, o.evaluations.get? id' = some e' → id' ≠ ⟨o.newId⟩ := by
    rintro id' e' live' rfl
    cases live'.symm.trans fresh
  have absent : (o.evaluations.insert id
      { e with
        phase := .joining { f with placed := f.placed + 1, waiting := rest } stack }).get?
          ⟨o.newId⟩ = none := fresh_insert live fresh
  have hchild : ∀ {x c i}, o'.Child x i c ↔
      o.Child x i c ∨ (x = id ∧ i = f.placed ∧ c = ⟨o.newId⟩) := sent.child_placed live fresh
  obtain ⟨-, -, hthreads, hscopes, -⟩ := sent.unchanged
  have hfree : ∀ {scope : Scope}, o'.scopes.isCancelled scope = false →
      o.scopes.isCancelled scope = false := fun free => by
    rw [hscopes] at free
    exact free
  have hown : ∀ {i c}, o'.Child id i c ↔ o.Child id i c ∨ (i = f.placed ∧ c = ⟨o.newId⟩) := by
    simp [hchild]
  obtain ⟨k, less, n, less', drains, drains', stands, costs⟩ :=
    h.exists_shares hc.toForked live own joining waiting keeps new hown
  obtain ⟨ids, owned, rfl⟩ := h.exists_ids hc.toThreaded live own
  have hid : id ∈ ids := (owned id).2 ⟨e, live, own⟩
  have unused : ⟨o.newId⟩ ∉ ids := fun hmem => by
    obtain ⟨e', live', -⟩ := (owned _).1 hmem
    exact old live' rfl
  have share : Function.update (Function.update left id k) ⟨o.newId⟩ n ⟨o.newId⟩ = n :=
    Function.update_self _ _ _
  have costs' : o.scopes.isCancelled (o.scopes.child f.scope).1 = false →
      (Stage.queued (source' ⟨o.newId⟩)).Costs s
        (Function.update (Function.update left id k) ⟨o.newId⟩ n ⟨o.newId⟩) := by
    rw [new, share]
    exact costs
  refine ⟨Function.update (Function.update left id k) ⟨o.newId⟩ n, _,
    h.change hfree keeps (fun {id' e'} live' own' => ?_)
      (.begun (insert ⟨o.newId⟩ ids) (fun w scope => ?_) fun id' => ?_), ?_⟩
  · rcases sent.cases mailed live' with before | ⟨rfl, p, phase, rfl, rfl | ⟨_, -, stopped⟩⟩
    · rw [Table.get?_insert] at before
      split at before
      · next same =>
        subst same
        cases before
        rw [Function.update_of_ne (old live), Function.update_self]
        exact .inr ⟨drains, fun free => stands (hfree free)⟩
      · next other =>
        refine .inl ⟨before, ?_, by simp [hchild, Ne.symm other]⟩
        rw [Function.update_of_ne (old before), Function.update_of_ne (Ne.symm other)]
    · exact .inr ⟨drains'.trans_eq share.symm, fun free => ⟨_, .queued, costs' (hfree free)⟩⟩
    · exact absurd (stopped.symm.trans stays) (by simp)
  · rw [hthreads, ← own]
    exact fun thread => by cases (hc.thread_of_evaluation live).symm.trans thread
  · rw [sent.owned absent, owned_update live rfl, Finset.mem_insert, owned, or_comm]
    exact or_congr_right (and_iff_left own).symm
  · rw [map_left_insert unused, map_left_update left hid, map_left_erase left hid]
    rw [← Multiset.singleton_add, ← Multiset.singleton_add, ← add_assoc]
    exact cutExpand_of_parts (by simp [less, less'])

/-- The evaluations of a job without one of them. -/
theorem Budgeted.spends_erase (h : o.Budgeted s source left debt) (ht : o.Threaded)
    (live : o.evaluations.get? id = some e) (own : e.job = s.job)
    (owned : ∀ id', o'.Owned s.job id' ↔ o.Owned s.job id' ∧ id' ≠ id)
    (begun : ∀ w scope, o'.threads.get? s.job ≠ some (.submitted w scope))
    (budgeted : ∀ {debt'}, o'.Owes s left debt' → o'.Budgeted s source' left debt') :
    o'.Spends s source' debt := by
  obtain ⟨ids, hids, rfl⟩ := h.exists_ids ht live own
  refine ⟨left, _, budgeted (.begun (ids.erase id) begun fun id' => ?_), ?_⟩
  · rw [Finset.mem_erase, hids, owned, and_comm]
  · rw [map_left_erase left ((hids id).2 ⟨e, live, own⟩)]
    have none : CutExpand (· < ·) (0 + (ids.erase id).val.map left)
        (left id ::ₘ (ids.erase id).val.map left) := cutExpand_of_parts (by simp)
    rwa [zero_add] at none

/-- A job ends with its root evaluation. -/
theorem Budgeted.collectRoot (h : o.Budgeted s source left debt) (ht : o.Threaded)
    (live : o.evaluations.get? id = some e) (own : e.job = s.job) (root : e.parent = none)
    (he : o'.evaluations = o.evaluations.erase id)
    (begun : ∀ w scope, o'.threads.get? s.job ≠ some (.submitted w scope))
    (hs : ∀ {scope}, o'.scopes.isCancelled scope = false → o.scopes.isCancelled scope = false)
    (keeps : ∀ {id e}, o.evaluations.get? id = some e → source' id = source id) :
    o'.Spends s source' debt := by
  have before : ∀ {id' e'}, o'.evaluations.get? id' = some e' ↔
      o.evaluations.get? id' = some e' ∧ id' ≠ id := by
    intro id' e'
    rw [he, Table.get?_erase]
    by_cases gone : id = id'
    · simp [gone]
    · simp [gone, Ne.symm gone]
  have hchild : ∀ {x i c}, o'.Child x i c ↔ o.Child x i c := by
    intro x i c
    constructor
    · rintro ⟨ce, hce, hp⟩
      exact ⟨ce, (before.1 hce).1, hp⟩
    · rintro ⟨ce, hce, hp⟩
      refine ⟨ce, before.2 ⟨hce, ?_⟩, hp⟩
      rintro rfl
      cases hce.symm.trans live
      cases hp.symm.trans root
  refine h.spends_erase ht live own (fun id' => ?_) begun fun owes =>
    h.change hs keeps (fun live' own' => .inl ⟨(before.1 live').1, rfl, hchild⟩) owes
  constructor
  · rintro ⟨e', live', own'⟩
    exact ⟨⟨e', (before.1 live').1, own'⟩, (before.1 live').2⟩
  · rintro ⟨⟨e', live', own'⟩, hne⟩
    exact ⟨e', before.2 ⟨live', hne⟩, own'⟩

variable {role : Nat → ScopeRole} {w : Workflow}

/-- The outcome of a child arrives. -/
theorem Budgeted.collectChild (h : o.Budgeted s source left debt) (sound : o.Sound s w source)
    (hc : o.Consistent) (hr : o.Numbered (some s.job) role) {r : Response} {parent : Parent}
    {pe : Evaluation} {f : Fork} {stack : List Frame} (live : o.evaluations.get? id = some e)
    (own : e.job = s.job) (responded : e.phase = .responded r) (child : e.parent = some parent)
    (above : o.evaluations.get? parent.id = some pe) (joining : pe.phase = .joining f stack)
    (he : o'.evaluations = (o.evaluations.erase id).insert parent.id
      { pe with
        phase := .joining
          { f with
            join := (f.join.receive parent.index r.outcome).2
            missing := f.missing - 1 } stack })
    (ht : o'.threads = o.threads)
    (hs : ∀ {scope}, o'.scopes.isCancelled scope = false → o.scopes.isCancelled scope = false)
    (keeps : ∀ {id e}, o.evaluations.get? id = some e → source' id = source id) :
    o'.Spends s source' debt := by
  have hne : id ≠ parent.id := by
    rintro rfl
    cases live.symm.trans above
    cases responded.symm.trans joining
  obtain ⟨pe', -, -, above', -, family, -⟩ := hc.above live child
  cases above'.symm.trans above
  obtain ⟨stems, hchild⟩ := child_collect hne above he
  refine h.spends_erase hc.toThreaded live own (owned_collect hne above he) (fun w scope => ?_)
    fun owes => h.change hs keeps (fun {id' e'} live' own' => ?_) owes
  · rw [ht, ← own, hc.thread_of_evaluation live]
    rintro ⟨⟩
  rw [he, Table.get?_insert] at live'
  split at live'
  · next here =>
    subst here
    cases live'
    have drains := h.drains above own'
    rw [joining] at drains
    refine .inr ⟨drains, fun free => ?_⟩
    obtain ⟨t, stands, costs⟩ := h.stands above own' (hs free)
    rw [joining] at stands
    cases stands with
    | joining _ joins =>
      refine ⟨_, .joining stack (joins.received ⟨e, live, child⟩ hchild ?_
        (child_keeps keeps) ?_), costs⟩
      · rintro k ⟨e₀, live₀, hparent⟩
        cases live.symm.trans live₀
        exact congrArg Parent.index (Option.some.inj (hparent.symm.trans child))
      · by_cases stopped : f.scope.number ∈ o.scopes.cancelled
        · exact .inl (hr.decided above joining stopped)
        · have explains := responded ▸ sound.explained live own
            (hr.free_child hc.toForked live child above joining (hs free) stopped)
          cases explains with
          | @responded _ result permits outcome => exact .inr ⟨result, permits, outcome⟩
  · next there =>
    rw [Table.get?_erase] at live'
    split at live'
    · cases live'
    · refine .inl ⟨live', rfl, hchild.trans (and_iff_left_of_imp ?_)⟩
      rintro ⟨ce, hce, hparent⟩ rfl
      cases hce.symm.trans live
      cases hparent.symm.trans child
      exact there rfl

/-- What the job does itself leaves it less to do, if it is not disturbed. -/
theorem Budgeted.move {m : Move} {now : Nat} (h : o.Budgeted s source left debt)
    (sound : o.Sound s w source) (hr : o.Numbered (some s.job) role) (hc : o.Consistent)
    (hn : o.nextId < Uuid.supply) (owns : o.Owns s.job m)
    (clocked : o.ByClock now (.move m) o')
    (keeps : ∀ {id e}, o.evaluations.get? id = some e → source' id = source id)
    (sends : ∀ {v}, o.Sends s.job (.move m) v → source' ⟨o.newId⟩ = v)
    (st : o.Step (.move m) o') : o'.Spends s source' debt := by
  have fresh := hc.fresh hn
  have stays := hr.free_engine
  have hs : ∀ {scope}, o'.scopes.isCancelled scope = false →
      o.scopes.isCancelled scope = false := st.free
  have own : ∀ {id e}, o.Owned s.job id → o.evaluations.get? id = some e → e.job = s.job :=
    fun owned live => (owned_of_live live).1 owned
  cases st with
  | begin thread sent =>
    cases owns
    exact h.begin hc fresh stays thread sent (sends (.root thread))
  | @receive i post d rest e at_slot inbox live =>
    obtain ⟨post', d', rest', at_slot', inbox', owned⟩ := owns
    cases at_slot'.symm.trans at_slot
    cases inbox'.symm.trans inbox
    have hd : d ∈ post.inbox := inbox ▸ List.mem_cons_self
    have queued := hc.queued_of_mem at_slot (List.mem_map_of_mem hd) live
    have own := own owned live
    refine h.update hc.toThreaded live own rfl rfl hs keeps (fun _ => ?_) fun _ {t} stands => ?_
    · rw [queued]
      exact Nat.lt_succ_self 3
    · rw [queued] at stands
      cases stands
      exact ⟨_, .accepted (sound.mail at_slot hd live own), .single (.accept _)⟩
  | close at_slot stopped => exact absurd (stopped.symm.trans stays) (by simp)
  | @shift id e t steps n phase live turn leads later =>
    have own := own owns live
    obtain ⟨worker, hb⟩ := sound.base own
    have here : t.Clocked now phase :=
      clocked.turns rfl live turn ((Table.get?_insert _ _ _ _).trans (if_pos rfl))
    exact h.update hc.toThreaded live own rfl rfl hs keeps
      (fun cancelled => Phase.toDrain_turn cancelled turn leads) fun free _ stands =>
        stands.turn (sound.explained live own free) free turn (hb ▸ leads) here
          (hc.childless_of_turn live turn leads)
  | @fork id e m kind first rest stack steps live running free forks =>
    have own := own owns live
    have childless := hc.childless live (by simp [running])
    refine h.update hc.toThreaded live own rfl rfl hs keeps
      (fun cancelled => absurd cancelled (by simp [free])) fun _ {t} stands => ?_
    rw [running] at stands
    cases stands
    have joins : o.Joins s source id ⟨Join.start kind (rest.length + 1), (o.scopes.child e.scope).1,
        0, first :: rest, rest.length + 1⟩ kind (first :: rest) :=
      ⟨rfl, fun hc => absurd hc (childless _ _),
        (Join.explained_start s kind _).mono fun i hi => absurd hi.1 (Nat.not_lt_zero i)⟩
    exact ⟨_, .joining stack joins, .single (.fork (sound.registry own ▸ forks))⟩
  | place live joining waiting sent =>
    have own := own owns live
    exact h.place hc fresh stays live own joining waiting sent keeps
      (sends (.child live own joining waiting))
  | collectRoot now live responded root known =>
    have own := own owns live
    refine h.collectRoot hc.toThreaded live own root rfl (fun w scope => ?_) hs keeps
    rw [Table.get?_insert, if_pos own]
    rintro ⟨⟩
  | collectChild now live responded child above joining =>
    exact h.collectChild sound hc hr live (own owns live) responded child above joining rfl rfl hs
      keeps

end Outline

end WorkflowEngine
