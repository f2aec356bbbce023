import WorkflowEngine.Proofs.Origins
import Mathlib.Data.List.Perm.Basic
/-!
What a fork is given while it waits. The outcomes of the children arrive in any order, each once,
and the join is what it makes of them in this order. The fork does not go on before the last one
has arrived.
-/
set_option autoImplicit false

namespace WorkflowEngine

/-- The outcomes of children with their indices, in the order in which they arrive. -/
abbrev Arrivals := List (Nat × Outcome)

namespace Join

/-- Takes outcomes one after the other. -/
def receiveAll (j : Join) (arrivals : Arrivals) : Join :=
  arrivals.foldl (fun j a => (j.receive a.1 a.2).2) j

theorem receiveAll_append (j : Join) (arrivals : Arrivals) (i : Nat) (o : Outcome) :
    j.receiveAll (arrivals ++ [(i, o)]) = ((j.receiveAll arrivals).receive i o).2 := by
  simp [receiveAll]

end Join

namespace Fork

/-- What is known of a fork from what has arrived. -/
structure Received (f : Fork) (kind : ForkKind) (children : List Workflow) (arrivals : Arrivals)
    (present : Nat → Prop) : Prop where
  join : f.join = (Join.start kind children.length).receiveAll arrivals
  waiting : f.waiting = children.drop f.placed
  placed : f.placed ≤ children.length
  once : (arrivals.map Prod.fst).Nodup
  arrived : ∀ i, i ∈ arrivals.map Prod.fst ↔ i < f.placed ∧ ¬ present i

variable {f : Fork} {kind : ForkKind} {children : List Workflow} {arrivals : Arrivals}
  {present present' : Nat → Prop}

theorem received_start (kind : ForkKind) (scope : Scope) (children : List Workflow) :
    Received ⟨Join.start kind children.length, scope, 0, children, children.length⟩ kind children
      [] present where
  join := rfl
  waiting := rfl
  placed := Nat.zero_le _
  once := List.nodup_nil
  arrived := by simp

namespace Received

theorem congr (h : f.Received kind children arrivals present)
    (same : ∀ i, present' i ↔ present i) : f.Received kind children arrivals present' :=
  { h with arrived := fun i => by rw [same, h.arrived] }

theorem place (h : f.Received kind children arrivals present) {w : Workflow}
    {rest : List Workflow} (waiting : f.waiting = w :: rest)
    (new : ∀ i, present' i ↔ present i ∨ i = f.placed) :
    Received { f with placed := f.placed + 1, waiting := rest } kind children arrivals
      present' := by
  have hw := h.waiting
  have hlt : f.placed < children.length := by
    by_contra hle
    rw [List.drop_eq_nil_of_le (Nat.le_of_not_lt hle), waiting] at hw
    cases hw
  rw [List.drop_eq_getElem_cons hlt, waiting] at hw
  refine ⟨h.join, (List.cons.inj hw).2, hlt, h.once, fun i => ?_⟩
  rw [h.arrived, new]
  simp only
  constructor
  · rintro ⟨hi, absent⟩
    exact ⟨by omega, by rintro (hp | rfl) <;> [exact absent hp; omega]⟩
  · rintro ⟨hi, absent⟩
    push Not at absent
    exact ⟨by omega, absent.1⟩

theorem receive (h : f.Received kind children arrivals present) {i : Nat} {o : Outcome}
    (missing : Nat) (was : present i) (hi : i < f.placed)
    (left : ∀ k, present' k ↔ present k ∧ k ≠ i) :
    Received { f with join := (f.join.receive i o).2, missing } kind children
      (arrivals ++ [(i, o)]) present' where
  join := by rw [Join.receiveAll_append, ← h.join]
  waiting := h.waiting
  placed := h.placed
  once := by
    rw [List.map_append, List.nodup_append]
    refine ⟨h.once, by simp, ?_⟩
    rintro k hk _ hi' rfl
    cases List.mem_singleton.1 hi'
    exact ((h.arrived _).1 hk).2 was
  arrived := by
    intro k
    rw [List.map_append, List.mem_append, h.arrived, left]
    simp only [List.map_cons, List.map_nil, List.mem_singleton]
    constructor
    · rintro (⟨hk, absent⟩ | rfl)
      · exact ⟨hk, fun hp => absent hp.1⟩
      · exact ⟨hi, fun hp => hp.2 rfl⟩
    · rintro ⟨hk, absent⟩
      by_cases hki : k = i
      · exact .inr hki
      · exact .inl ⟨hk, fun hp => absent ⟨hp, hki⟩⟩

/-- When no child is left, every one has arrived once. -/
theorem complete (h : f.Received kind children arrivals present) (placed : f.waiting = [])
    (all : ∀ i, ¬ present i) : (arrivals.map Prod.fst).Perm (List.range children.length) := by
  have hp : f.placed = children.length := by
    have hd := h.waiting
    rw [placed] at hd
    have := List.drop_eq_nil_iff.1 hd.symm
    have := h.placed
    omega
  refine (List.perm_ext_iff_of_nodup h.once List.nodup_range).2 fun i => ?_
  rw [h.arrived, hp, List.mem_range]
  exact and_iff_left (all i)

end Received

end Fork

namespace Outline

/-- What the fork of an evaluation is given by an event. -/
def given (o : Outline) (id : EvaluationId) : Event → Arrivals
  | .move (.collect child) =>
    match o.evaluations.get? child with
    | some e =>
      match e.parent, e.phase with
      | some parent, .responded r => if parent.id = id then [(parent.index, r.outcome)] else []
      | _, _ => []
    | none => []
  | _ => []

/-- What happens in a step to an evaluation that waits in a fork. -/
inductive Attends (o : Outline) (ev : Event) (o' : Outline) (id : EvaluationId) (e : Evaluation)
    (f : Fork) (stack : List Frame) : Prop
  | rests (nothing : o.given id ev = []) (same : o'.evaluations.get? id = some e)
      (present : ∀ i, o'.Present id i ↔ o.Present id i)
  | places {w : Workflow} {rest : List Workflow} (nothing : o.given id ev = [])
      (waiting : f.waiting = w :: rest)
      (now : o'.evaluations.get? id = some
        { e with phase := .joining { f with placed := f.placed + 1, waiting := rest } stack })
      (present : ∀ i, o'.Present id i ↔ o.Present id i ∨ i = f.placed)
  | receives {i : Nat} {outcome : Outcome} (given : o.given id ev = [(i, outcome)])
      (was : o.Present id i)
      (now : o'.evaluations.get? id = some
        { e with
          phase := .joining
            { f with join := (f.join.receive i outcome).2, missing := f.missing - 1 } stack })
      (present : ∀ k, o'.Present id k ↔ o.Present id k ∧ k ≠ i)
      (cancels : (f.join.receive i outcome).1 = true → f.scope.number ∈ o'.scopes.cancelled)
  | returns {e' : Evaluation} (placed : f.waiting = []) (arrived : f.missing = 0)
      (now : o'.evaluations.get? id = some e')
      (running : e'.phase =
        .running ⟨stack, .resume (f.join.outcome (o.scopes.isCancelled e.scope))⟩)

variable {o o' : Outline} {id : EvaluationId} {e : Evaluation} {f : Fork} {stack : List Frame}

theorem gives_of_given {ev : Event} {i : Nat} {outcome : Outcome}
    (h : (i, outcome) ∈ o.given id ev) : o.Gives ev id outcome := by
  unfold given at h
  split at h
  · next child =>
    split at h
    · next e live =>
      split at h
      · next parent r hparent responded =>
        split at h
        · next hid =>
          subst hid
          cases List.mem_singleton.1 h
          exact ⟨child, e, r, parent.index, rfl, live, responded, hparent, rfl⟩
        · cases h
      · cases h
    · cases h
  · cases h

theorem present_congr (h : ∀ i c, o'.Child id i c ↔ o.Child id i c) (i : Nat) :
    o'.Present id i ↔ o.Present id i :=
  exists_congr fun c => h i c

theorem Attends.of_place (hc : o.Consistent) (hn : o.nextId < Uuid.supply)
    {x : EvaluationId} {ex : Evaluation} {g : Fork} {below : List Frame} {w : Workflow}
    {rest : List Workflow} (live : o.evaluations.get? id = some e)
    (joining : e.phase = .joining f stack) (hx : o.evaluations.get? x = some ex)
    (hjoining : ex.phase = .joining g below) (waiting : g.waiting = w :: rest)
    (sent : Dispatched
      { o with
        evaluations := o.evaluations.insert x
          { ex with phase := .joining { g with placed := g.placed + 1, waiting := rest } below }
        scopes := (o.scopes.child g.scope).2 }
      ex.job (some ⟨x, g.placed⟩) (o.scopes.child g.scope).1 w o') :
    o.Attends (.move (.advance x)) o' id e f stack := by
  have new : ⟨o.newId⟩ ≠ id := by
    rintro rfl
    cases live.symm.trans (hc.fresh hn)
  obtain ⟨p, phase, hget, -⟩ := sent.get?
  have hchild : ∀ {y c i}, o'.Child y i c ↔
      o.Child y i c ∨ (y = x ∧ i = g.placed ∧ c = ⟨o.newId⟩) :=
    sent.child_placed hx (hc.fresh hn)
  have now := (hget id).trans (if_neg new)
  simp only [Table.get?_insert] at now
  by_cases hid : x = id
  · subst hid
    cases hx.symm.trans live
    cases hjoining.symm.trans joining
    refine .places rfl waiting (now.trans (if_pos rfl)) fun i => ?_
    constructor
    · rintro ⟨c, h⟩
      exact (hchild.1 h).imp (⟨c, ·⟩) (·.2.1)
    · rintro (⟨c, h⟩ | rfl)
      · exact ⟨c, hchild.2 (.inl h)⟩
      · exact ⟨_, hchild.2 (.inr ⟨rfl, rfl, rfl⟩)⟩
  · refine .rests rfl ((now.trans (if_neg hid)).trans live) (present_congr fun i c => ?_)
    exact hchild.trans (or_iff_left fun h => hid h.1.symm)

theorem Attends.of_collectChild (hc : o.Consistent) {x : EvaluationId} {ex : Evaluation}
    {r : Response} {parent : Parent} {pe : Evaluation} {g : Fork} {below : List Frame}
    (live : o.evaluations.get? id = some e) (joining : e.phase = .joining f stack)
    (hx : o.evaluations.get? x = some ex) (responded : ex.phase = .responded r)
    (child : ex.parent = some parent) (above : o.evaluations.get? parent.id = some pe)
    (hjoining : pe.phase = .joining g below)
    (he : o'.evaluations = (o.evaluations.erase x).insert parent.id
      { pe with
        phase := .joining
          { g with
            join := (g.join.receive parent.index r.outcome).2
            missing := g.missing - 1 } below })
    (hs : (g.join.receive parent.index r.outcome).1 = true → g.scope.number ∈ o'.scopes.cancelled) :
    o.Attends (.move (.collect x)) o' id e f stack := by
  have hne : x ≠ id := by
    rintro rfl
    cases hx.symm.trans live
    cases responded.symm.trans joining
  have hne' : x ≠ parent.id := by
    rintro rfl
    cases hx.symm.trans above
    cases responded.symm.trans hjoining
  obtain ⟨-, hchild⟩ := child_collect hne' above he
  have hgiven : o.given id (.move (.collect x)) =
      if parent.id = id then [(parent.index, r.outcome)] else [] := by
    simp only [given, hx, child, responded]
  by_cases hid : parent.id = id
  · subst hid
    cases above.symm.trans live
    cases hjoining.symm.trans joining
    have now : o'.evaluations.get? parent.id = _ :=
      (congrArg (·.get? parent.id) he).trans ((Table.get?_insert _ _ _ _).trans (if_pos rfl))
    refine .receives (hgiven.trans (if_pos rfl)) ⟨x, ex, hx, child⟩ now (fun k => ?_) hs
    constructor
    · rintro ⟨c, h⟩
      obtain ⟨hold, hcx⟩ := hchild.1 h
      refine ⟨⟨c, hold⟩, ?_⟩
      rintro rfl
      exact hcx (hc.sibling_unique hold ⟨ex, hx, child⟩)
    · rintro ⟨⟨c, h⟩, hk⟩
      refine ⟨c, hchild.2 ⟨h, ?_⟩⟩
      rintro rfl
      obtain ⟨ce, hce, hparent⟩ := h
      cases hce.symm.trans hx
      exact hk (congrArg Parent.index (Option.some.inj (hparent.symm.trans child)))
  · have now : o'.evaluations.get? id = some e := by
      rw [he, Table.get?_insert, if_neg hid, Table.get?_erase, if_neg hne]
      exact live
    refine .rests (hgiven.trans (if_neg hid)) now (present_congr fun i c => ?_)
    refine hchild.trans (and_iff_left_of_imp ?_)
    rintro ⟨ce, hce, hparent⟩ rfl
    cases hce.symm.trans hx
    exact hid (congrArg Parent.id (Option.some.inj (child.symm.trans hparent)))

theorem Step.attends {ev : Event} (s : o.Step ev o') (hc : o.Consistent)
    (hn : o.nextId < Uuid.supply) (live : o.evaluations.get? id = some e)
    (joining : e.phase = .joining f stack) : o.Attends ev o' id e f stack := by
  have other : ∀ {id' e'}, o.evaluations.get? id' = some e' →
      (∀ f stack, e'.phase ≠ .joining f stack) → id' ≠ id := by
    rintro id' e' live' hne rfl
    cases live'.symm.trans live
    exact hne f stack joining
  have updates : ∀ {x ex steps phase}, o.evaluations.get? x = some ex → x ≠ id →
      o'.evaluations = o.evaluations.insert x { ex with steps, phase } →
      o'.evaluations.get? id = some e ∧ ∀ i, o'.Present id i ↔ o.Present id i := by
    intro x ex steps phase hx hne he
    refine ⟨?_, present_congr fun i c => child_update hx he⟩
    rw [he, Table.get?_insert, if_neg hne]
    exact live
  cases s with
  | begin thread sent =>
    have new : ⟨o.newId⟩ ≠ id := by
      rintro rfl
      cases live.symm.trans (hc.fresh hn)
    obtain ⟨p, phase, hget, -⟩ := sent.get?
    refine .rests rfl (((hget id).trans (if_neg new)).trans live) (present_congr fun i c => ?_)
    refine (sent.child (hc.fresh hn)).trans (or_iff_left ?_)
    rintro ⟨-, ⟨⟩⟩
  | @receive i post d rest ex at_slot inbox hx =>
    have queued := hc.queued_of_mem at_slot (by simp [inbox]) hx
    obtain ⟨same, present⟩ := updates hx (other hx (by simp [queued])) rfl
    exact .rests rfl same present
  | @close i post worker at_slot stopped =>
    have idle : id ∉ post.inbox.map Delivery.evaluation := by
      intro hm
      have queued := hc.queued_of_mem at_slot hm live
      exact other live (by simp [queued]) rfl
    have kept : o.StemsFrom
        { o with
          posts := o.posts.modify i fun _ => ⟨false, []⟩
          evaluations := dropAll worker post.inbox o.evaluations } := stemsFrom_dropAll rfl
    refine .rests rfl ?_ (present_congr fun i c => child_congr (.dropAll rfl) fun {y ey} hy => ?_)
    · rw [get?_dropAll, if_neg idle]
      exact live
    · obtain ⟨ey', hy', -⟩ := kept y ey hy
      exact ⟨ey', hy'⟩
  | @shift x ex t steps n phase hx turn leads later =>
    by_cases hid : x = id
    · subst hid
      cases hx.symm.trans live
      cases turn with
      | joined joining' placed arrived =>
        cases joining'.symm.trans joining
        cases leads
        exact .returns placed arrived ((Table.get?_insert _ _ _ _).trans (if_pos rfl)) rfl
      | places joining' waiting => cases leads
      | _ => simp_all
    · obtain ⟨same, present⟩ := updates hx hid rfl
      exact .rests rfl same present
  | @fork x ex m kind first rest below steps hx running free forks =>
    obtain ⟨same, present⟩ := updates hx (other hx (by simp [running])) rfl
    exact .rests rfl same present
  | place hx hjoining waiting sent => exact .of_place hc hn live joining hx hjoining waiting sent
  | @collectRoot x ex r entry now hx responded root known =>
    have hne : x ≠ id := other hx (by simp [responded])
    refine .rests (by simp [given, hx, root]) ?_ (present_congr fun i c => ?_)
    · rw [Table.get?_erase, if_neg hne]
      exact live
    · refine (child_erase x (.erase rfl) (by simp) fun {y ey} hy live => ⟨ey, ?_⟩).trans
        (and_iff_left_of_imp ?_)
      · rw [Table.get?_erase, if_neg (Ne.symm hy)]
        exact live
      · rintro ⟨ce, hce, hparent⟩ rfl
        cases hce.symm.trans hx
        cases root.symm.trans hparent
  | collectChild now hx responded child above hjoining =>
    refine .of_collectChild hc live joining hx responded child above hjoining rfl fun decides => ?_
    simp only [decides, if_true]
    exact ScopeTree.mem_cancel.2 (.inl rfl)
  | _ => exact .rests rfl live fun _ => Iff.rfl

/-- The fork of an evaluation, with all that it has been given. -/
def Collects (o : Outline) (id : EvaluationId) (outer inner : Scope) (stack : List Frame)
    (kind : ForkKind) (children : List Workflow) (arrivals : Arrivals) : Prop :=
  ∃ e f, o.evaluations.get? id = some e ∧ e.phase = .joining f stack ∧ e.scope = outer ∧
    f.scope = inner ∧ f.Received kind children arrivals (o.Present id) ∧
    (f.join.Decided → inner.number ∈ o.scopes.cancelled)

variable {outer inner : Scope} {kind : ForkKind} {children : List Workflow} {arrivals : Arrivals}

theorem Collects.joining (h : o.Collects id outer inner stack kind children arrivals) :
    o.Joining id := by
  obtain ⟨e, f, live, joining, -⟩ := h
  exact ⟨e, f, stack, live, joining⟩

theorem Step.collects {m : Machine} {first : Workflow} {rest : List Workflow}
    (s : o.Step (.move (.advance id)) o')
    (live : o.evaluations.get? id = some e) (running : e.phase = .running m)
    (free : o.scopes.isCancelled e.scope = false)
    (forks : m.step o.registry = .fork kind (first :: rest) stack) :
    o'.Collects id e.scope (o.scopes.child e.scope).1 stack kind (first :: rest) [] := by
  cases s with
  | shift steps live' turn leads later =>
    cases live'.symm.trans live
    cases turn with
    | stopped running' cancelled => simp [free] at cancelled
    | @steps m' running' free' =>
      cases running'.symm.trans running
      cases leads with
      | next h | finished h | aborted h | childless h | immediate h | guarded h =>
        cases h.symm.trans forks
    | _ => simp_all
  | @fork _ _ _ kind' _ _ _ steps live' running' free' forks' =>
    cases live'.symm.trans live
    cases running'.symm.trans running
    cases forks'.symm.trans forks
    refine ⟨_, _, (Table.get?_insert _ _ _ _).trans (if_pos rfl), rfl, rfl, rfl,
      Fork.received_start kind _ (first :: rest), fun decided => ?_⟩
    cases kind <;> cases decided
  | place live' joining waiting sent =>
    cases live'.symm.trans live
    cases joining.symm.trans running

theorem Collects.step {ev : Event} (h : o.Collects id outer inner stack kind children arrivals)
    (hc : o.Consistent) (hn : o.nextId < Uuid.supply) (s : o.Step ev o') (waits : o'.Joining id) :
    o'.Collects id outer inner stack kind children (arrivals ++ o.given id ev) := by
  obtain ⟨e, f, live, joining, hscope, hinner, received, cancels⟩ := h
  have stays (hd : f.join.Decided) : inner.number ∈ o'.scopes.cancelled :=
    s.mem_cancelled _ (cancels hd)
  cases s.attends hc hn live joining with
  | rests nothing same present =>
    rw [nothing, List.append_nil]
    exact ⟨e, f, same, joining, hscope, hinner, received.congr present, stays⟩
  | places nothing waiting now present =>
    rw [nothing, List.append_nil]
    exact ⟨_, _, now, rfl, hscope, hinner, received.place waiting present, stays⟩
  | receives given was now present decides =>
    rw [given]
    obtain ⟨c, hchild⟩ := was
    refine ⟨_, _, now, rfl, hscope, hinner, received.receive _ ⟨c, hchild⟩
      (hc.index_lt live joining hchild) present, fun decided => ?_⟩
    exact ((Join.decided_receive _ _ _).1 decided).elim stays (hinner ▸ decides)
  | returns placed arrived now running =>
    obtain ⟨e', f', stack', live', joining'⟩ := waits
    cases now.symm.trans live'
    cases running.symm.trans joining'

/-- A fork goes on with what its join gives when every child has arrived once, and not before. -/
theorem Collects.returns {ev : Event} (h : o.Collects id outer inner stack kind children arrivals)
    (hc : o.Consistent) (hn : o.nextId < Uuid.supply) (s : o.Step ev o') (ends : ¬ o'.Joining id) :
    (arrivals.map Prod.fst).Perm (List.range children.length) ∧
      o.Reports o' id (((Join.start kind children.length).receiveAll arrivals).outcome
        (o.scopes.isCancelled outer)) := by
  obtain ⟨e, f, live, joining, rfl, hinner, received, -⟩ := h
  cases s.attends hc hn live joining with
  | rests nothing same present => exact absurd ⟨e, f, stack, same, joining⟩ ends
  | places nothing waiting now present => exact absurd ⟨_, _, stack, now, rfl⟩ ends
  | receives given was now present decides => exact absurd ⟨_, _, stack, now, rfl⟩ ends
  | returns placed arrived now running =>
    have childless := hc.childless_of_missing live joining arrived
    refine ⟨received.complete placed fun i => not_exists.2 (childless i), ?_⟩
    rw [← received.join]
    exact ⟨e, f, stack, _, live, joining, now, running⟩

/-- When every child has arrived, nothing is waited for. -/
theorem Collects.arrived (h : o.Collects id outer inner stack kind children arrivals)
    (hc : o.Forked) (all : (arrivals.map Prod.fst).Perm (List.range children.length)) :
    ∃ e f, o.evaluations.get? id = some e ∧ e.phase = .joining f stack ∧ f.waiting = [] ∧
      f.missing = 0 := by
  obtain ⟨e, f, live, joining, -, -, received, -⟩ := h
  have gone : ∀ i < children.length, i < f.placed ∧ ¬ o.Present id i := fun i hi =>
    (received.arrived i).1 (all.mem_iff.2 (List.mem_range.2 hi))
  have waiting : f.waiting = [] := by
    rw [received.waiting]
    refine List.drop_eq_nil_of_le (Nat.le_of_not_lt fun hlt => ?_)
    exact absurd (gone f.placed hlt).1 (Nat.lt_irrefl _)
  obtain ⟨present, hmem, hcard⟩ := hc.missing live joining
  have none : present = ∅ := by
    refine Finset.eq_empty_of_forall_notMem fun i hi => ?_
    obtain ⟨child, hchild⟩ := (hmem i).1 hi
    have hlt := Nat.lt_of_lt_of_le (hc.index_lt live joining hchild) received.placed
    exact (gone i hlt).2 ⟨child, hchild⟩
  refine ⟨e, f, live, joining, waiting, ?_⟩
  simpa [none, waiting] using hcard.symm

end Outline

namespace Cluster

/-- One state follows another as long as an evaluation waits in a fork, which is given outcomes on
the way. -/
inductive Gathers (id : EvaluationId) (a : Cluster) : Arrivals → Cluster → Prop
  | opened : Gathers id a [] a
  | step {b c : Cluster} {ev : Event} {arrivals : Arrivals} (run : Gathers id a arrivals b)
      (waits : b.outline.Joining id) (next : b.after ev = some c) :
      Gathers id a (arrivals ++ b.outline.given id ev) c

variable {id : EvaluationId} {a c : Cluster} {outer inner : Scope} {stack : List Frame}
  {kind : ForkKind} {children : List Workflow} {arrivals : Arrivals}

theorem Gathers.run (h : Gathers id a arrivals c) : Run (fun b _ => b.outline.Joining id) a c := by
  induction h with
  | opened => exact .refl a
  | step _ waits next ih => exact .step ih waits next

theorem Run.gathers (run : Run (fun b _ => b.outline.Joining id) a c) :
    ∃ arrivals, Gathers id a arrivals c := by
  induction run with
  | refl => exact ⟨_, .opened⟩
  | step _ waits next ih =>
    obtain ⟨_, h⟩ := ih
    exact ⟨_, h.step waits next⟩

/-- An event that gives nothing to the fork. -/
theorem Gathers.idle {b : Cluster} {ev : Event} (run : Gathers id a arrivals b)
    (waits : b.outline.Joining id) (next : b.after ev = some c)
    (nothing : b.outline.given id ev = []) : Gathers id a arrivals c := by
  have h := run.step waits next
  rwa [nothing, List.append_nil] at h

theorem Gathers.arrival {b : Cluster} {ev : Event} {given : Arrivals}
    (run : Gathers id a arrivals b) (waits : b.outline.Joining id) (next : b.after ev = some c)
    (gives : b.outline.given id ev = given) : Gathers id a (arrivals ++ given) c :=
  gives ▸ run.step waits next

theorem Gathers.collects (h : Gathers id a arrivals c) (hc : a.outline.Consistent)
    (hn : c.nextId < Uuid.supply)
    (opened : a.outline.Collects id outer inner stack kind children [])
    (waits : c.outline.Joining id) :
    c.outline.Collects id outer inner stack kind children arrivals := by
  induction h with
  | opened => exact opened
  | step run waits' next ih =>
    have hn' := Nat.lt_of_le_of_lt (nextId_after next) hn
    have hc' := run.run.consistent hc hn'
    exact (ih hn' waits').step hc' hn' (step_of_after hc' next) waits

/-- What a fork does in any state that follows its opening. `decisive` tells whether the outcomes
so far decide it, `result` what it ends with, also by whether the scope around it is cancelled. -/
structure JoinsAll (c₀ : Cluster) (id : EvaluationId) (outer inner : Scope) (stack : List Frame)
    (children : List Workflow) (decisive : Arrivals → Prop)
    (result : Bool → Arrivals → Outcome → Prop) : Prop where
  /-- The children are placed in their order. The scope of the fork is cancelled as soon as it is
  decided, and not before. -/
  waits : ∀ arrivals c e f below, Gathers id c₀ arrivals c → c.nextId < Uuid.supply →
    c.evaluations.get? id = some e → e.phase = .joining f below →
    below = stack ∧ f.scope = inner ∧ f.waiting = children.drop f.placed ∧
      (inner.number ∈ c.scopes.cancelled ↔ decisive arrivals)
  /-- The fork goes on when every child has arrived once. -/
  goesOn : ∀ arrivals c, Gathers id c₀ arrivals c → c.nextId < Uuid.supply →
    c.outline.Joining id → (arrivals.map Prod.fst).Perm (List.range children.length) →
    ∃ c', c.after (.move (.advance id)) = some c' ∧ ¬ c'.outline.Joining id
  /-- It does not go on before. -/
  returns : ∀ arrivals c ev c', Gathers id c₀ arrivals c → c.nextId < Uuid.supply →
    c.outline.Joining id → c.after ev = some c' → ¬ c'.outline.Joining id →
    (arrivals.map Prod.fst).Perm (List.range children.length) ∧
      ∃ outcome, c.outline.Reports c'.outline id outcome ∧
        result (c.scopes.isCancelled outer) arrivals outcome

theorem JoinsAll.opened {c₀ : Cluster} {decisive : Arrivals → Prop}
    {result : Bool → Arrivals → Outcome → Prop}
    (_ : JoinsAll c₀ id outer inner stack children decisive result) : Gathers id c₀ [] c₀ := .opened

theorem exists_resumed {c : Cluster} {e : Evaluation} {f : Fork}
    (live : c.evaluations.get? id = some e) (joining : e.phase = .joining f stack)
    (placed : f.waiting = []) (arrived : f.missing = 0) :
    ∃ c', c.after (.move (.advance id)) = some c' ∧ ¬ c'.outline.Joining id := by
  have turn : turn c.scopes e = some _ := turn_of_follows (.joined joining placed arrived)
  refine ⟨_, (advance_eq live).trans (by rw [turn]; rfl), ?_⟩
  rintro ⟨e', f', stack', live', joining'⟩
  cases (get?_setPhase _ _ _ _).symm.trans live'
  cases joining'

theorem joinsAll {registry : Registry} {config : EngineConfig} {backend : Backend}
    {sink : LogSink} {c c₀ : Cluster} (run : Reaches (start registry config backend sink) c)
    (ids : c.nextId < Uuid.supply) {e : Evaluation} {m : Machine} {first : Workflow}
    {rest : List Workflow} (live : c.evaluations.get? id = some e) (running : e.phase = .running m)
    (free : c.scopes.isCancelled e.scope = false)
    (forks : m.step c.registry = .fork kind (first :: rest) stack)
    (next : c.step (.advance id) = some c₀) {decisive : Arrivals → Prop}
    {result : Bool → Arrivals → Outcome → Prop}
    (decides : ∀ arrivals, ((Join.start kind (rest.length + 1)).receiveAll arrivals).Decided ↔
      decisive arrivals)
    (gives : ∀ cancelled arrivals,
      (arrivals.map Prod.fst).Perm (List.range (rest.length + 1)) → result cancelled arrivals
        (((Join.start kind (rest.length + 1)).receiveAll arrivals).outcome cancelled)) :
    JoinsAll c₀ id e.scope (c.scopes.child e.scope).1 stack (first :: rest) decisive result := by
  have hstart := consistent_start registry config backend sink
  have hc := run.consistent hstart ids
  have s : c.outline.Step (.move (.advance id)) c₀.outline := step_of_advance hc next
  have hc₀ := hc.step ids s
  have opened := s.collects live running free forks
  have next' : c.after (.move (.advance id)) = some c₀ := next
  constructor
  · intro arrivals c₁ e₁ f below gathers ids₁ live₁ joining₁
    have reached := (Run.step run trivial next').trans gathers.run.reaches
    obtain ⟨role, hr⟩ := reached.numbered hstart ids₁ (numbered_start registry config backend sink)
    obtain ⟨e', f', live', joining', hscope, hinner, received, cancels⟩ :=
      gathers.collects hc₀ ids₁ opened ⟨e₁, f, below, live₁, joining₁⟩
    cases live'.symm.trans live₁
    cases joining'.symm.trans joining₁
    refine ⟨rfl, hinner, received.waiting, Iff.trans ⟨fun h => ?_, cancels⟩ ?_⟩
    · exact hr.decided live₁ joining₁ (hinner.symm ▸ h)
    · rw [received.join]
      exact decides arrivals
  · intro arrivals c₁ gathers ids₁ waits all
    have hc₁ := gathers.run.consistent hc₀ ids₁
    obtain ⟨e₁, f, live₁, joining₁, placed, arrived⟩ :=
      (gathers.collects hc₀ ids₁ opened waits).arrived hc₁.toForked all
    exact exists_resumed live₁ joining₁ placed arrived
  · intro arrivals c₁ ev c₂ gathers ids₁ waits after ends
    have hc₁ := gathers.run.consistent hc₀ ids₁
    obtain ⟨all, reports⟩ := (gathers.collects hc₀ ids₁ opened waits).returns hc₁ ids₁
      (step_of_after hc₁ after) ends
    exact ⟨all, _, reports, gives _ _ all⟩

/-- Without children a fork is never opened, and nothing is placed. -/
theorem step_childless {c : Cluster} {e : Evaluation} {m : Machine}
    (live : c.evaluations.get? id = some e) (running : e.phase = .running m)
    (free : c.scopes.isCancelled e.scope = false)
    (forks : m.step c.registry = .fork kind [] stack) :
    c.step (.advance id) = some (c.setPhase id { e with steps := e.steps + 1 }
      (.running ⟨stack, .resume ((Join.start kind 0).outcome false)⟩)) := by
  have turn : turn c.scopes e = some (.step m) := turn_of_follows (.steps running free)
  refine (advance_eq live).trans ?_
  rw [turn]
  simp only [Option.bind_some, take, runMachine, forks]
  rfl

end Cluster

end WorkflowEngine
