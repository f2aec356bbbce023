import WorkflowEngine.Proofs.Clock
import WorkflowEngine.Proofs.ForkPlans
/-!
Evaluations in time. Each knows what it is to end with and when, and in each phase the clock has
come as far as the part that is left allows. What may still happen to an evaluation is bounded,
whether it goes on in time or is cancelled.
-/
set_option autoImplicit false

namespace WorkflowEngine

/-- What an evaluation is to evaluate, and what it is to end with at which moment. -/
structure Plan where
  workflow : Workflow
  result : Except WorkflowError Value
  time : Nat
  travels : Travels workflow result

/-- Whether a plan is that of a child of a fork. -/
structure ForkPlan.Assigns {r : Registry} (p : ForkPlan r) (i : Nat) (q : Plan) : Prop where
  workflow : p.children[i]? = some q.workflow
  timing : ∃ t, p.timings[i]? = some ⟨q.result, t⟩ ∧ q.time = p.began + t

/-- What is enough for a cancelled evaluation to come to its end, with the children that it still
has to place. -/
def Phase.toDrain : Phase → Nat
  | .queued => 4
  | .accepted _ => 3
  | .running _ => 2
  | .operating _ _ _ => 3
  | .joining f _ => 3 + 5 * f.waiting.length
  | .responded _ => 1

/-- A cancelled evaluation that goes on has less left to do. -/
theorem Phase.toDrain_turn {scopes : ScopeTree} {e : Evaluation} {t : Cluster.Turn}
    {s : Surroundings} {phase : Phase} (cancelled : scopes.isCancelled e.scope = true)
    (turn : t.Follows scopes e) (leads : t.Leads s phase) : phase.toDrain < e.phase.toDrain := by
  cases turn with
  | started accepted decoded =>
    cases leads
    simp [accepted, toDrain]
  | undecoded accepted decoded =>
    cases leads
    simp [accepted, toDrain]
  | stopped running cancelled =>
    cases leads
    simp [running, toDrain]
  | interrupted operating cancelled =>
    cases leads
    simp [operating, toDrain]
  | joined joining placed arrived =>
    cases leads
    simp [joining, placed, toDrain]
  | places joining waiting => cases leads
  | steps running free => simp [free] at cancelled
  | returned operating free => simp [free] at cancelled
  | failed operating free => simp [free] at cancelled
  | aborted operating free => simp [free] at cancelled
  | asks operating free => simp [free] at cancelled

namespace Outline

/-- The phases of an evaluation that comes to the end of its plan in time if it is not cancelled.
The number bounds what may still happen to it. -/
inductive OnTime (o : Outline) (r : Registry) (now : Nat) (plan : EvaluationId → Plan)
    (id : EvaluationId) : Phase → Nat → Prop
  | queued {t n : Nat}
      (finishes : Machine.Finishes r (.start (plan id).workflow) (plan id).result t n)
      (time : (plan id).time = now + t) : OnTime o r now plan id .queued (n + 3)
  | accepted {payload : String} {t n : Nat}
      (decoded : Workflow.decode payload = .ok (plan id).workflow)
      (finishes : Machine.Finishes r (.start (plan id).workflow) (plan id).result t n)
      (time : (plan id).time = now + t) : OnTime o r now plan id (.accepted payload) (n + 2)
  | running {m : Machine} {t n : Nat} (finishes : m.Finishes r (plan id).result t n)
      (time : (plan id).time = now + t) : OnTime o r now plan id (.running m) (n + 1)
  | sleeps {k : UInt64} {stack : List Frame} {t n : Nat} (inRange : k.toNat ≤ longestWait)
      (rest : Machine.Finishes r ⟨stack, .resume (.ok .null)⟩ (plan id).result t n)
      (time : (plan id).time = now + (k.toNat + t)) :
      OnTime o r now plan id (.operating (.sleeping k) none stack) (n + 4)
  | waits {k : UInt64} {due : Nat} {stack : List Frame} {t n : Nat} (soon : now ≤ due)
      (rest : Machine.Finishes r ⟨stack, .resume (.ok .null)⟩ (plan id).result t n)
      (time : (plan id).time = due + t) :
      OnTime o r now plan id (.operating (.sleeping k) (some due) stack) (n + 3)
  | wakes {stack : List Frame} {t n : Nat}
      (rest : Machine.Finishes r ⟨stack, .resume (.ok .null)⟩ (plan id).result t n)
      (time : (plan id).time = now + t) :
      OnTime o r now plan id (.operating (.done (.ok .null)) none stack) (n + 2)
  | joining {f : Fork} {stack : List Frame} {t n : Nat} (p : ForkPlan r)
      (rest : Machine.Finishes r ⟨stack, .resume (p.result.mapError .error)⟩ (plan id).result t n)
      (time : (plan id).time = p.began + p.time + t) (began : p.began ≤ now)
      (waiting : f.waiting = p.children.drop f.placed)
      (placing : f.placed < p.children.length → now = p.began)
      (child : ∀ {i c}, o.Child id i c → p.Assigns i (plan c))
      (keeps : p.Keeps now (fun i => i < f.placed ∧ ∀ c, ¬ o.Child id i c)
        (f.scope.number ∈ o.scopes.cancelled) f.join) :
      OnTime o r now plan id (.joining f stack) (n + 2 + f.waiting.length * (p.bound + 5))
  | responded {response : Response} (n : Nat)
      (outcome : response.outcome = (plan id).result.mapError .error)
      (time : (plan id).time = now) : OnTime o r now plan id (.responded response) (n + 1)

variable {o o' : Outline} {r : Registry} {now : Nat} {plan plan' : EvaluationId → Plan}
  {id : EvaluationId} {e : Evaluation} {phase : Phase} {n : Nat}

/-- An evaluation in time is not over before it ends. -/
theorem OnTime.le_time (h : o.OnTime r now plan id phase n) : now ≤ (plan id).time := by
  cases h with
  | queued finishes time => omega
  | accepted decoded finishes time => omega
  | running finishes time => omega
  | sleeps inRange rest time => omega
  | waits soon rest time => omega
  | wakes rest time => omega
  | joining p rest time began waiting placing child keeps =>
    cases keeps with
    | gathering gathers past ahead => omega
    | decided decided outcome now_eq stop => omega
  | responded n outcome time => omega

/-- Nobody waits beyond the end of the plan. -/
theorem OnTime.due_le {p : Program (Reply Value)} {due : Nat} {stack : List Frame}
    (h : o.OnTime r now plan id (.operating p (some due) stack) n) : due ≤ (plan id).time := by
  cases h with
  | waits soon rest time => omega

/-- An evaluation that responds in time does so at the end of its plan. -/
theorem OnTime.of_responded {response : Response}
    (h : o.OnTime r now plan id (.responded response) n) :
    response.outcome = (plan id).result.mapError .error ∧ (plan id).time = now := by
  cases h with
  | responded n outcome time => exact ⟨outcome, time⟩

/-- An evaluation in time has enough left to be stopped instead. -/
theorem OnTime.toDrain_le (h : o.OnTime r now plan id phase n) : phase.toDrain ≤ n := by
  cases h with
  | queued finishes time =>
    have := finishes.pos
    simp only [Phase.toDrain]
    omega
  | accepted decoded finishes time =>
    have := finishes.pos
    simp only [Phase.toDrain]
    omega
  | running finishes time =>
    have := finishes.pos
    simp only [Phase.toDrain]
    omega
  | sleeps inRange rest time =>
    simp only [Phase.toDrain]
    omega
  | waits soon rest time =>
    simp only [Phase.toDrain]
    omega
  | wakes rest time =>
    have := rest.pos
    simp only [Phase.toDrain]
    omega
  | joining p rest time began waiting placing child keeps =>
    have := rest.pos
    simp only [Phase.toDrain]
    rw [Nat.mul_add]
    omega
  | responded n outcome time =>
    simp only [Phase.toDrain]
    omega

/-- Only the evaluation itself, its children and the scopes that are cancelled count. -/
theorem OnTime.congr (h : o.OnTime r now plan id phase n) (hid : plan' id = plan id)
    (hc : ∀ {i c}, o'.Child id i c ↔ o.Child id i c)
    (hp : ∀ {i c}, o.Child id i c → plan' c = plan c)
    (hs : ∀ m ∈ o.scopes.cancelled, m ∈ o'.scopes.cancelled) :
    o'.OnTime r now plan' id phase n := by
  cases h with
  | queued finishes time => exact .queued (hid ▸ finishes) (hid ▸ time)
  | accepted decoded finishes time =>
    exact .accepted (hid ▸ decoded) (hid ▸ finishes) (hid ▸ time)
  | running finishes time => exact .running (hid ▸ finishes) (hid ▸ time)
  | sleeps inRange rest time => exact .sleeps inRange (hid ▸ rest) (hid ▸ time)
  | waits soon rest time => exact .waits soon (hid ▸ rest) (hid ▸ time)
  | wakes rest time => exact .wakes (hid ▸ rest) (hid ▸ time)
  | joining p rest time began waiting placing child keeps =>
    refine .joining p (hid ▸ rest) (hid ▸ time) began waiting placing (fun hchild => ?_)
      (keeps.mono (fun i hi => ?_) (hs _))
    · rw [hp (hc.1 hchild)]
      exact child (hc.1 hchild)
    · exact ⟨hi.1, fun c hchild => hi.2 c (hc.2 hchild)⟩
  | responded n outcome time => exact .responded n (hid ▸ outcome) (hid ▸ time)

/-- A worker accepts the workflow of the plan. -/
theorem OnTime.accepts {payload : String} (h : o.OnTime r now plan id .queued n)
    (decoded : Workflow.decode payload = .ok (plan id).workflow) :
    ∃ k, n = k + 1 ∧ o.OnTime r now plan id (.accepted payload) k := by
  cases h with
  | queued finishes time => exact ⟨_, rfl, .accepted decoded finishes time⟩

/-- A step of the machine, whatever it leads to within this evaluation. -/
theorem OnTime.machine {m : Machine} {s : Surroundings} (registry : s.registry = r)
    (h : o.OnTime r now plan id (.running m) n) (leads : (Cluster.Turn.step m).Leads s phase) :
    ∃ k, n = k + 1 ∧ o.OnTime r now plan id phase k := by
  subst registry
  cases h with
  | @running _ t n finishes time =>
    refine ⟨n, rfl, ?_⟩
    cases finishes with
    | @finished _ y k step =>
      cases leads with
      | finished done =>
        cases step.symm.trans done
        exact .responded k (plan id).travels.back (time.trans (Nat.add_zero now))
      | _ => cases step.symm.trans ‹m.step s.registry = _›
    | next step rest =>
      cases leads with
      | next done =>
        cases step.symm.trans done
        exact .running rest time
      | _ => cases step.symm.trans ‹m.step s.registry = _›
    | sleep step inRange rest =>
      cases leads with
      | guarded done effect =>
        cases step.symm.trans done
        cases effect
        exact .sleeps inRange rest time
      | immediate other effect =>
        cases step.symm.trans other
        cases effect
      | _ => cases step.symm.trans ‹m.step s.registry = _›
    | @fork _ kind ws stack τs y₀ _ t₀ t n b step size each travels settles rest =>
      cases leads with
      | childless done =>
        cases step.symm.trans done
        let p : ForkPlan s.registry :=
          ⟨kind, [], τs, y₀, now, t₀, b, size, each, travels, settles⟩
        obtain ⟨outcome, ends⟩ := (p.keeps_start True).outcome (Nat.le_refl now)
          fun i hi => absurd hi (Nat.not_lt_zero i)
        have instant : t₀ = 0 := Nat.left_eq_add.1 ends
        have later := rest.mono (Nat.le_succ n)
        rw [← outcome] at later
        subst instant
        rw [Nat.zero_add] at time
        rw [List.length_nil, Nat.zero_mul]
        exact .running later time
      | _ => cases step.symm.trans ‹m.step s.registry = _›

/-- A turn by the clock leads from one phase in time to another one. -/
theorem OnTime.turn {s : Surroundings} {t : Cluster.Turn} (h : o.OnTime r now plan id e.phase n)
    (registry : s.registry = r) (free : o.scopes.isCancelled e.scope = false)
    (turn : t.Follows o.scopes e) (leads : t.Leads s phase) (clocked : t.Clocked now phase)
    (childless : o.Childless id) : ∃ k, n = k + 1 ∧ o.OnTime r now plan id phase k := by
  cases turn with
  | started accepted decoded =>
    cases leads
    rw [accepted] at h
    cases h with
    | accepted hd finishes time =>
      cases decoded.symm.trans hd
      exact ⟨_, rfl, .running finishes time⟩
  | undecoded accepted decoded =>
    rw [accepted] at h
    cases h with
    | accepted hd => cases decoded.symm.trans hd
  | stopped running cancelled => simp [free] at cancelled
  | steps running => exact (running ▸ h).machine registry leads
  | interrupted operating cancelled => simp [free] at cancelled
  | returned operating =>
    cases leads
    rw [operating] at h
    cases h with
    | wakes rest time => exact ⟨_, rfl, .running rest time⟩
  | failed operating =>
    rw [operating] at h
    cases h
  | aborted operating =>
    rw [operating] at h
    cases h
  | asks operating =>
    rw [operating] at h
    cases h with
    | @sleeps k stack t n inRange rest time =>
      cases clocked
      refine ⟨n + 3, rfl, .waits (Nat.le_add_right _ _) rest ?_⟩
      rw [millisOf_sleep inRange, Nat.add_assoc]
      exact time
    | waits soon rest time =>
      obtain ⟨come, rfl⟩ := clocked
      cases Nat.le_antisymm soon come
      exact ⟨_, rfl, .wakes rest time⟩
  | places joining waiting => cases leads
  | @joined f stack joining placed arrived =>
    cases leads
    rw [joining] at h
    cases h with
    | @joining _ _ t n p rest time began waiting placing child keeps =>
      have all : ∀ i < p.children.length, i < f.placed ∧ ∀ c, ¬ o.Child id i c := by
        have hlen := List.drop_eq_nil_iff.1 (waiting.symm.trans placed)
        exact fun i hi => ⟨by omega, childless i⟩
      obtain ⟨outcome, ends⟩ := keeps.outcome began all
      rw [free, outcome, placed, List.length_nil, Nat.zero_mul]
      exact ⟨n + 1, rfl, .running rest (ends ▸ time)⟩

/-- A fork that is opened begins now. -/
theorem OnTime.fork {m : Machine} {kind : ForkKind} {ws : List Workflow} {stack : List Frame}
    (h : o.OnTime r now plan id (.running m) n) (forks : m.step r = .fork kind ws stack)
    (childless : o.Childless id) (scope : Scope) :
    ∃ k, n = k + 1 ∧
      o.OnTime r now plan id (.joining ⟨Join.start kind ws.length, scope, 0, ws, ws.length⟩ stack) k := by
  cases h with
  | @running _ t n finishes time =>
    refine ⟨n, rfl, ?_⟩
    cases finishes with
    | @fork _ _ _ _ τs y₀ _ t₀ t n b step size each travels settles rest =>
      cases step.symm.trans forks
      let p : ForkPlan r := ⟨kind, ws, τs, y₀, now, t₀, b, size, each, travels, settles⟩
      refine .joining p rest (time.trans (Nat.add_assoc now t₀ t).symm) (Nat.le_refl now) rfl
        (fun _ => rfl) (fun hc => absurd hc (childless _ _)) ?_
      exact (p.keeps_start _).mono (fun i hi => absurd hi.1 (Nat.not_lt_zero i)) fun h => h
    | _ => cases ‹m.step r = _›.symm.trans forks

/-- One of the children that wait is placed, with the plan that the fork has for it. -/
theorem OnTime.placed {f : Fork} {v : Workflow} {waiting : List Workflow} {stack : List Frame}
    (h : o.OnTime r now plan id (.joining f stack) n) (next : f.waiting = v :: waiting)
    (fresh : o.evaluations.get? ⟨o.newId⟩ = none) (hid : id ≠ ⟨o.newId⟩)
    (hchild : ∀ {i c}, o'.Child id i c ↔ o.Child id i c ∨ (i = f.placed ∧ c = ⟨o.newId⟩))
    (hs : o'.scopes.cancelled = o.scopes.cancelled) :
    ∃ (q : Plan) (t b k : Nat), q.workflow = v ∧ Machine.Finishes r (.start v) q.result t b ∧
      q.time = now + t ∧ k + (b + 3) < n ∧
      o'.OnTime r now (Function.update plan ⟨o.newId⟩ q) id
        (.joining { f with placed := f.placed + 1, waiting } stack) k := by
  cases h with
  | @joining _ _ t n p rest time began left placing child keeps =>
    have hdrop : p.children.drop f.placed = v :: waiting := left ▸ next
    have hlt : f.placed < p.children.length := by
      refine Nat.lt_of_not_le fun hle => ?_
      rw [List.drop_eq_nil_of_le hle] at hdrop
      cases hdrop
    have hv : p.children[f.placed]? = some v := by
      rw [← List.head?_drop, hdrop, List.head?_cons]
    obtain ⟨τ, hτ⟩ : ∃ τ, p.timings[f.placed]? = some τ :=
      ⟨_, List.getElem?_eq_getElem (p.size ▸ hlt)⟩
    have at_once := placing hlt
    refine ⟨⟨v, τ.result, p.began + τ.time, p.travels hv hτ⟩, τ.time, p.bound,
      n + 2 + waiting.length * (p.bound + 5), rfl, p.each hv hτ, by rw [at_once], ?_, ?_⟩
    · rw [next, List.length_cons, Nat.succ_mul]
      omega
    refine .joining (t := t) p ?_ ?_ began ?_ (fun h => placing (Nat.lt_of_succ_lt h)) ?_
      (keeps.mono (fun i hi => absent_of_placed hchild hi.1 hi.2) fun h => hs ▸ h)
    · rw [Function.update_of_ne hid]
      exact rest
    · rw [Function.update_of_ne hid]
      exact time
    · rw [← List.tail_drop, hdrop, List.tail_cons]
    · intro i c hc
      rcases hchild.1 hc with ⟨ce, hce, hparent⟩ | ⟨rfl, rfl⟩
      · rw [Function.update_of_ne]
        · exact child ⟨ce, hce, hparent⟩
        · rintro rfl
          cases hce.symm.trans fresh
      · rw [Function.update_self]
        exact ⟨hv, τ.time, hτ, rfl⟩

/-- The outcome of a child arrives. Unless the fork is stopped, the child has kept its plan, and no
other child should have ended before. -/
theorem OnTime.received {c : EvaluationId} {i : Nat} {f : Fork} {stack : List Frame}
    {outcome : Outcome} (h : o.OnTime r now plan id (.joining f stack) n) (hc : o.Child id i c)
    (hchild : ∀ {k c'}, o'.Child id k c' ↔ o.Child id k c' ∧ c' ≠ c)
    (unique : ∀ {k}, o.Child id k c → k = i)
    (hs : ∀ m ∈ o.scopes.cancelled, m ∈ o'.scopes.cancelled)
    (stops : (f.join.receive i outcome).1 = true → f.scope.number ∈ o'.scopes.cancelled)
    (settled : f.scope.number ∈ o.scopes.cancelled ∧ f.join.Decided ∨
      f.scope.number ∉ o.scopes.cancelled ∧ outcome = (plan c).result.mapError .error ∧
        (plan c).time = now ∧ ∀ k c', o.Child id k c' → now ≤ (plan c').time) :
    o'.OnTime r now plan id
      (.joining
        { f with
          join := (f.join.receive i outcome).2
          missing := f.missing - 1 } stack) n := by
  cases h with
  | joining p rest time began waiting placing child keeps =>
    refine .joining p rest time began waiting placing (fun hk => child (hchild.1 hk).1) ?_
    rcases settled with ⟨-, decided⟩ | ⟨unstopped, rfl, punctual, others⟩
    · exact keeps.receive_decided decided (hs _) i outcome
    · obtain ⟨-, t, hτ, ht⟩ := child hc
      have future : ∀ {k : Nat} {σ : Timing}, p.timings[k]? = some σ →
          ¬ (k < f.placed ∧ ∀ c, ¬ o.Child id k c) → now ≤ p.began + σ.time := by
        intro k σ hσ absent
        by_cases hk : k < f.placed
        · obtain ⟨c', hc'⟩ : ∃ c', o.Child id k c' := by
            simpa [hk] using absent
          obtain ⟨-, t', hτ', ht'⟩ := child hc'
          cases hσ.symm.trans hτ'
          exact ht' ▸ others k c' hc'
        · have hsize := (List.getElem?_eq_some_iff.1 hσ).1
          have := placing (by rw [p.size] at hsize; omega)
          omega
      have received := keeps.receive unstopped hτ (punctual.symm.trans ht) future stops
      refine received.mono (fun k hk => ?_) fun h => h
      exact (absent_of_received hchild unique hk.2).imp_right (⟨hk.1, ·⟩)

/-- A fork that waits for children waits for one that should not end after it. -/
theorem exists_pending {p : ForkPlan r} {f : Fork} (waiting : f.waiting = p.children.drop f.placed)
    (child : ∀ {i c}, o.Child id i c → p.Assigns i (plan c))
    (keeps : p.Keeps now (fun i => i < f.placed ∧ ∀ c, ¬ o.Child id i c)
      (f.scope.number ∈ o.scopes.cancelled) f.join)
    (placed : f.waiting = []) (unstopped : f.scope.number ∉ o.scopes.cancelled)
    (waits : ¬ o.Childless id) : ∃ i c, o.Child id i c ∧ (plan c).time ≤ p.began + p.time := by
  have hlen := List.drop_eq_nil_iff.1 (waiting.symm.trans placed)
  have absent : ∃ i < p.children.length, ¬ (i < f.placed ∧ ∀ c, ¬ o.Child id i c) := by
    simp only [Childless, not_forall, not_not] at waits
    obtain ⟨i, c, hc⟩ := waits
    exact ⟨i, (List.getElem?_eq_some_iff.1 (child hc).workflow).1, fun here => here.2 c hc⟩
  obtain ⟨i, τ, hτ, late, hle⟩ := keeps.pending unstopped absent
  have hlt : i < f.placed := by
    have := (List.getElem?_eq_some_iff.1 hτ).1
    rw [p.size] at this
    omega
  obtain ⟨c, hc⟩ : ∃ c, o.Child id i c := by simpa [hlt] using late
  obtain ⟨-, t, hτ', ht⟩ := child hc
  cases hτ.symm.trans hτ'
  exact ⟨i, c, hc, ht ▸ Nat.add_le_add_left hle _⟩

theorem OnTime.exists_child {f : Fork} {stack : List Frame}
    (h : o.OnTime r now plan id (.joining f stack) n) (placed : f.waiting = [])
    (unstopped : f.scope.number ∉ o.scopes.cancelled) (waits : ¬ o.Childless id) :
    ∃ i c, o.Child id i c ∧ (plan c).time ≤ (plan id).time := by
  cases h with
  | joining p rest time began waiting placing child keeps =>
    obtain ⟨i, c, hc, hle⟩ := exists_pending waiting child keeps placed unstopped waits
    exact ⟨i, c, hc, by omega⟩

/-- Time passes while an evaluation waits, but not beyond the moment that it waits for or that its
children should end at. -/
theorem OnTime.elapse {later : Nat} (h : o.OnTime r now plan id phase n)
    (idle : Cluster.Idles now phase) (on : now ≤ later)
    (pausing : ∀ {p due stack}, phase = .operating p (some due) stack → later ≤ due)
    (unstopped : ∀ {f stack}, phase = .joining f stack → f.scope.number ∉ o.scopes.cancelled)
    (waits : ∀ {f stack}, phase = .joining f stack → ¬ o.Childless id)
    (children : ∀ {i c}, o.Child id i c → later ≤ (plan c).time) :
    o.OnTime r later plan id phase n := by
  cases h with
  | waits soon rest time => exact .waits (pausing rfl) rest time
  | joining p rest time began waiting placing child keeps =>
    cases idle with
    | joining placed missing =>
      have none := List.drop_eq_nil_iff.1 (waiting.symm.trans placed)
      obtain ⟨i, c, hc, hle⟩ :=
        exists_pending waiting child keeps placed (unstopped rfl) (waits rfl)
      exact .joining p rest time (began.trans on) waiting
        (fun hlt => absurd hlt (Nat.not_lt_of_le none)) child
        (keeps.elapse (unstopped rfl) on ((children hc).trans hle))
  | _ => cases idle

end Outline

end WorkflowEngine
