import WorkflowEngine.Proofs.Semantics
/-!
How long workflows take that only wait, fail, fork and join, without machines, workers and queues.
The machine that evaluates such a workflow comes to its result after as long, in a bounded number
of steps.
-/
set_option autoImplicit false

namespace WorkflowEngine

/-- How a child of a fork ends, and how long after the fork was opened. -/
structure Timing where
  result : Except WorkflowError Value
  time : Nat

/-- When the last of several children ends. -/
def latest : List Timing → Nat
  | [] => 0
  | τ :: rest => max τ.time (latest rest)

theorem le_latest {τ : Timing} {τs : List Timing} (h : τ ∈ τs) : τ.time ≤ latest τs := by
  induction τs with
  | nil => cases h
  | cons σ rest ih =>
    rcases List.mem_cons.1 h with rfl | h
    · exact Nat.le_max_left _ _
    · exact Nat.le_trans (ih h) (Nat.le_max_right _ _)

theorem latest_le {τs : List Timing} {t : Nat} (h : ∀ τ ∈ τs, τ.time ≤ t) : latest τs ≤ t := by
  induction τs with
  | nil => exact Nat.zero_le t
  | cons σ rest ih =>
    exact Nat.max_le.2 ⟨h σ List.mem_cons_self, ih fun τ hτ => h τ (List.mem_cons_of_mem σ hτ)⟩

/-- Whether the result of one child decides a fork: any error, and in a choice any value that is
found. -/
def ForkKind.DecidedBy : ForkKind → Except WorkflowError Value → Prop
  | _, .error _ => True
  | .parallel, .ok _ => False
  | .choice, .ok v => v.isNull = false

/-- How a fork ends, and when. Of the children that decide it one is the first; without any the
last child counts. -/
inductive ForkKind.Settles : ForkKind → List Timing → Except WorkflowError Value → Nat → Prop
  | decided {kind : ForkKind} {τs : List Timing} {i : Nat} {τ : Timing} (child : τs[i]? = some τ)
      (decides : kind.DecidedBy τ.result)
      (first : ∀ {j : Nat} {σ : Timing}, τs[j]? = some σ → kind.DecidedBy σ.result → j ≠ i →
        τ.time < σ.time) : Settles kind τs τ.result τ.time
  | values {τs : List Timing} {vs : List Value} (all : τs.map Timing.result = vs.map .ok) :
      Settles .parallel τs (.ok (.array vs)) (latest τs)
  | nulls {τs : List Timing} (all : ∀ τ ∈ τs, τ.result = .ok .null) :
      Settles .choice τs (.ok .null) (latest τs)

theorem ForkKind.not_decidedBy_null (kind : ForkKind) : ¬ kind.DecidedBy (.ok .null) := by
  cases kind with
  | parallel => exact id
  | choice => rintro ⟨⟩

namespace ForkKind.Settles

variable {kind : ForkKind} {τs : List Timing} {y : Except WorkflowError Value} {t : Nat}

/-- Of two children that decide a fork the one that settles it is the first. -/
theorem first (h : kind.Settles τs y t) {i : Nat} {τ : Timing} (child : τs[i]? = some τ)
    (decides : kind.DecidedBy τ.result)
    (earliest : ∀ {k : Nat} {σ : Timing}, τs[k]? = some σ → kind.DecidedBy σ.result →
      τ.time ≤ σ.time) : y = τ.result ∧ t = τ.time := by
  cases h with
  | @decided _ _ w σ winner wins first =>
    by_cases hi : i = w
    · subst hi
      cases winner.symm.trans child
      exact ⟨rfl, rfl⟩
    · exact absurd (earliest winner wins) (Nat.not_le_of_lt (first child decides hi))
  | @values _ vs all =>
    have hv : (τs.map Timing.result)[i]? = some τ.result := by simp [child]
    rw [all, List.getElem?_map] at hv
    obtain ⟨v, -, hv⟩ := Option.map_eq_some_iff.1 hv
    rw [← hv] at decides
    exact decides.elim
  | nulls all =>
    rw [all τ (List.mem_of_getElem? child)] at decides
    exact absurd decides (not_decidedBy_null .choice)

/-- Either one child that decides a fork ends with it, or no child ends after it. -/
theorem ends (h : kind.Settles τs y t) :
    (∃ (i : Nat) (τ : Timing), τs[i]? = some τ ∧ kind.DecidedBy τ.result ∧ τ.time ≤ t) ∨
      ∀ τ ∈ τs, τ.time ≤ t := by
  cases h with
  | decided child decides first => exact .inl ⟨_, _, child, decides, Nat.le_refl _⟩
  | values all => exact .inr fun _ hτ => le_latest hτ
  | nulls all => exact .inr fun _ hτ => le_latest hτ

end ForkKind.Settles

/-- A workflow within the limits of the transport, and its result. -/
structure Travels (w : Workflow) (y : Except WorkflowError Value) : Prop where
  there : Workflow.decode w.encode = .ok w
  back : Outcome.decode (Outcome.encode (y.mapError .error)) = y.mapError .error

/-- The result of a workflow and the milliseconds it takes. Only waiting takes time: a
continuation or handler goes on when the body has ended, and children start together. -/
inductive Takes (r : Registry) : Workflow → Except WorkflowError Value → Nat → Prop
  | ret (v : Value) : Takes r (.ret v) (.ok v) 0
  | raise (e : WorkflowError) : Takes r (.raise e) (.error e) 0
  | sleep {k : UInt64} (inRange : k.toNat ≤ longestWait) :
      Takes r (.perform (.sleep k)) (.ok .null) k.toNat
  | bind {w next : Workflow} {f : FunctionRef} {v : Value} {y : Except WorkflowError Value}
      {t t' : Nat} (body : Takes r w (.ok v) t) (call : r.continueWith f v = .ok next)
      (rest : Takes r next y t') : Takes r (.bind w f) y (t + t')
  | bindFailed {w : Workflow} {f : FunctionRef} {v : Value} {e : WorkflowError} {t : Nat}
      (body : Takes r w (.ok v) t) (call : r.continueWith f v = .failed e) :
      Takes r (.bind w f) (.error e) t
  | bindError {w : Workflow} {f : FunctionRef} {e : WorkflowError} {t : Nat}
      (body : Takes r w (.error e) t) : Takes r (.bind w f) (.error e) t
  | tryValue {w : Workflow} {f : FunctionRef} {v : Value} {t : Nat} (body : Takes r w (.ok v) t) :
      Takes r (.tryWith w f) (.ok v) t
  | handled {w next : Workflow} {f : FunctionRef} {e : WorkflowError}
      {y : Except WorkflowError Value} {t t' : Nat} (body : Takes r w (.error e) t)
      (call : r.handle f e = .ok next) (rest : Takes r next y t') :
      Takes r (.tryWith w f) y (t + t')
  | handlerFailed {w : Workflow} {f : FunctionRef} {d e : WorkflowError} {t : Nat}
      (body : Takes r w (.error d) t) (call : r.handle f d = .failed e) :
      Takes r (.tryWith w f) (.error e) t
  | fork (kind : ForkKind) {ws : List Workflow} {τs : List Timing}
      {y : Except WorkflowError Value} {t : Nat} (size : τs.length = ws.length)
      (each : ∀ {i : Nat} {w : Workflow} {τ : Timing}, ws[i]? = some w → τs[i]? = some τ →
        Takes r w τ.result τ.time)
      (travels : ∀ {i : Nat} {w : Workflow} {τ : Timing}, ws[i]? = some w → τs[i]? = some τ →
        Travels w τ.result)
      (settles : kind.Settles τs y t) : Takes r (kind.workflow ws) y t

/-- What a sleeping operation asks for. -/
def Program.sleeping (k : UInt64) : Program (Reply Value) :=
  .ask (.pause (k.toNat * 1000)) fun _ => .done (.ok .null)

theorem millisOf_sleep {k : UInt64} (inRange : k.toNat ≤ longestWait) :
    millisOf (k.toNat * 1000) = k.toNat := by
  unfold millisOf waitMillis
  omega

namespace Machine

/-- The result of a machine, the milliseconds until then, and a number that bounds the steps that
are left, those of its children included. A child takes five besides those of its own machine: it
is placed, received, started and collected, and it may have to be stopped. -/
inductive Finishes (r : Registry) : Machine → Except WorkflowError Value → Nat → Nat → Prop
  | finished {m : Machine} {y : Except WorkflowError Value} (n : Nat)
      (step : m.step r = .finished (y.mapError .error)) : Finishes r m y 0 (n + 1)
  | next {m m' : Machine} {y : Except WorkflowError Value} {t n : Nat} (step : m.step r = .next m')
      (rest : Finishes r m' y t n) : Finishes r m y t (n + 1)
  | sleep {m : Machine} {k : UInt64} {stack : List Frame} {y : Except WorkflowError Value}
      {t n : Nat} (step : m.step r = .operate (.sleep k) stack) (inRange : k.toNat ≤ longestWait)
      (rest : Finishes r ⟨stack, .resume (.ok .null)⟩ y t n) : Finishes r m y (k.toNat + t) (n + 4)
  | fork {m : Machine} {kind : ForkKind} {ws : List Workflow} {stack : List Frame}
      {τs : List Timing} {y₀ y : Except WorkflowError Value} {t₀ t n : Nat} (b : Nat)
      (step : m.step r = .fork kind ws stack) (size : τs.length = ws.length)
      (each : ∀ {i : Nat} {w : Workflow} {τ : Timing}, ws[i]? = some w → τs[i]? = some τ →
        Finishes r (.start w) τ.result τ.time b)
      (travels : ∀ {i : Nat} {w : Workflow} {τ : Timing}, ws[i]? = some w → τs[i]? = some τ →
        Travels w τ.result)
      (settles : kind.Settles τs y₀ t₀)
      (rest : Finishes r ⟨stack, .resume (y₀.mapError .error)⟩ y t n) :
      Finishes r m y (t₀ + t) (n + 2 + ws.length * (b + 5))

variable {r : Registry} {m m' : Machine} {stack : List Frame} {f : FunctionRef}
  {y z : Except WorkflowError Value} {t t' n : Nat}

/-- Only what a machine does next counts, not how it is written. -/
theorem Finishes.of_step_eq (same : m.step r = m'.step r) (h : Finishes r m' y t n) :
    Finishes r m y t n := by
  cases h with
  | finished n step => exact .finished n (same.trans step)
  | next step rest => exact .next (same.trans step) rest
  | sleep step inRange rest => exact .sleep (same.trans step) inRange rest
  | fork b step size each travels settles rest =>
    exact .fork b (same.trans step) size each travels settles rest

theorem Finishes.pos (h : Finishes r m y t n) : 0 < n := by
  cases h <;> omega

theorem Finishes.mono (h : Finishes r m y t n) {n' : Nat} (hn : n ≤ n') : Finishes r m y t n' := by
  induction h generalizing n' with
  | finished n step =>
    obtain ⟨k, rfl⟩ := Nat.exists_eq_add_of_le' (Nat.le_trans (Nat.le_add_left 1 n) hn)
    exact .finished k step
  | next step rest ih =>
    obtain ⟨k, rfl⟩ := Nat.exists_eq_add_of_le' (Nat.le_trans (Nat.le_add_left 1 _) hn)
    exact .next step (ih (Nat.le_of_succ_le_succ hn))
  | sleep step inRange rest ih =>
    obtain ⟨k, rfl⟩ := Nat.exists_eq_add_of_le' (Nat.le_trans (Nat.le_add_left 4 _) hn)
    exact .sleep step inRange (ih (Nat.le_of_add_le_add_right hn))
  | @fork _ kind ws stack τs y₀ y t₀ t n b step size each travels settles rest _ ih =>
    obtain ⟨k, rfl⟩ := Nat.exists_eq_add_of_le hn
    have h := Finishes.fork b step size each travels settles (ih (Nat.le_add_right n k))
    rw [show n + k + 2 + ws.length * (b + 5) = n + 2 + ws.length * (b + 5) + k by omega] at h
    exact h

/-- The continuation or the failure that a function replied. -/
theorem finishes_reply {reply : Reply Workflow} (step : m.step r = .ofReply stack reply)
    (h : (∃ next, reply = .ok next ∧ ∃ n, Finishes r ⟨stack, .eval next⟩ y t n) ∨
      ∃ e, reply = .failed e ∧ ∃ n, Finishes r ⟨stack, .resume (.error (.error e))⟩ y t n) :
    ∃ n, Finishes r m y t n := by
  obtain ⟨next, rfl, n, h⟩ | ⟨e, rfl, n, h⟩ := h
  · exact ⟨n + 1, .next step h⟩
  · exact ⟨n + 1, .next step h⟩

theorem step_value_bind (v : Value) : step r ⟨.bind f :: stack, .resume (.ok v)⟩ =
    .ofReply stack (r.continueWith f v) := rfl

theorem step_error_bind (e : WorkflowError) :
    step r ⟨.bind f :: stack, .resume (.error (.error e))⟩ =
      step r ⟨stack, .resume (.error (.error e))⟩ := rfl

theorem step_value_tryWith (v : Value) : step r ⟨.tryWith f :: stack, .resume (.ok v)⟩ =
    step r ⟨stack, .resume (.ok v)⟩ := rfl

theorem step_error_tryWith (e : WorkflowError) :
    step r ⟨.tryWith f :: stack, .resume (.error (.error e))⟩ =
      .ofReply stack (r.handle f e) := rfl

/-- With nothing around it a result is the last one. -/
theorem finishes_result (y : Except WorkflowError Value) :
    Finishes r ⟨[], .resume (y.mapError .error)⟩ y 0 1 := by
  refine .finished 0 ?_
  cases y <;> rfl

end Machine

theorem exists_bound {P : Nat → Nat → Prop} (mono : ∀ {i n n'}, P i n → n ≤ n' → P i n') {k : Nat}
    (h : ∀ i < k, ∃ n, P i n) : ∃ b, ∀ i < k, P i b := by
  induction k with
  | zero => exact ⟨0, fun i hi => absurd hi (Nat.not_lt_zero i)⟩
  | succ k ih =>
    obtain ⟨b, hb⟩ := ih fun i hi => h i (Nat.lt_succ_of_lt hi)
    obtain ⟨n, hn⟩ := h k (Nat.lt_succ_self k)
    refine ⟨max b n, fun i hi => ?_⟩
    rcases Nat.lt_succ_iff_lt_or_eq.1 hi with hi | rfl
    · exact mono (hb i hi) (Nat.le_max_left b n)
    · exact mono hn (Nat.le_max_right b n)

open Machine in
/-- A workflow takes its time wherever it stands: the machine that evaluates it goes on from there
with the result. -/
theorem Takes.finishes {r : Registry} {w : Workflow} {y : Except WorkflowError Value} {t : Nat}
    (h : Takes r w y t) {stack : List Frame} {z : Except WorkflowError Value} {t' n : Nat}
    (rest : Finishes r ⟨stack, .resume (y.mapError .error)⟩ z t' n) :
    ∃ n', Finishes r ⟨stack, .eval w⟩ z (t + t') n' := by
  induction h generalizing stack z t' n with
  | ret v =>
    rw [Nat.zero_add]
    exact ⟨n + 1, .next rfl rest⟩
  | raise e =>
    rw [Nat.zero_add]
    exact ⟨n + 1, .next rfl rest⟩
  | sleep inRange => exact ⟨n + 4, .sleep rfl inRange rest⟩
  | @bind w next f v y t₁ t₂ _ call _ body next_ih =>
    obtain ⟨n₂, h₂⟩ := finishes_reply (step_value_bind v) (.inl ⟨next, call, next_ih rest⟩)
    obtain ⟨n₁, h₁⟩ := body h₂
    rw [Nat.add_assoc]
    exact ⟨n₁ + 1, .next rfl h₁⟩
  | @bindFailed w f v e t _ call body =>
    obtain ⟨n₂, h₂⟩ := finishes_reply (step_value_bind v) (.inr ⟨e, call, n, rest⟩)
    obtain ⟨n₁, h₁⟩ := body h₂
    exact ⟨n₁ + 1, .next rfl h₁⟩
  | @bindError w f e t _ body =>
    obtain ⟨n₁, h₁⟩ := body (rest.of_step_eq (step_error_bind e))
    exact ⟨n₁ + 1, .next rfl h₁⟩
  | @tryValue w f v t _ body =>
    obtain ⟨n₁, h₁⟩ := body (rest.of_step_eq (step_value_tryWith v))
    exact ⟨n₁ + 1, .next rfl h₁⟩
  | @handled w next f e y t₁ t₂ _ call _ body next_ih =>
    obtain ⟨n₂, h₂⟩ := finishes_reply (step_error_tryWith e) (.inl ⟨next, call, next_ih rest⟩)
    obtain ⟨n₁, h₁⟩ := body h₂
    rw [Nat.add_assoc]
    exact ⟨n₁ + 1, .next rfl h₁⟩
  | @handlerFailed w f d e t _ call body =>
    obtain ⟨n₂, h₂⟩ := finishes_reply (step_error_tryWith d) (.inr ⟨e, call, n, rest⟩)
    obtain ⟨n₁, h₁⟩ := body h₂
    exact ⟨n₁ + 1, .next rfl h₁⟩
  | @fork kind ws τs y t size _ travels settles ih =>
    have alone : ∀ i < ws.length, ∃ n, ∀ {w : Workflow} {τ : Timing}, ws[i]? = some w →
        τs[i]? = some τ → Finishes r (.start w) τ.result τ.time n := by
      intro i hi
      have hτ : τs[i]? = some τs[i] := List.getElem?_eq_getElem (size ▸ hi)
      have hw : ws[i]? = some ws[i] := List.getElem?_eq_getElem hi
      obtain ⟨n, hn⟩ := ih hw hτ (finishes_result τs[i].result)
      refine ⟨n, fun hw' hτ' => ?_⟩
      cases hw.symm.trans hw'
      cases hτ.symm.trans hτ'
      exact hn
    obtain ⟨b, hb⟩ := exists_bound (fun h hn _ _ hw hτ => (h hw hτ).mono hn) alone
    have each : ∀ {i : Nat} {w : Workflow} {τ : Timing}, ws[i]? = some w → τs[i]? = some τ →
        Finishes r (.start w) τ.result τ.time b :=
      fun hw hτ => hb _ (List.getElem?_eq_some_iff.1 hw).1 hw hτ
    refine ⟨_, .fork b ?_ size each travels settles rest⟩
    cases kind <;> rfl

/-- The machine of a whole workflow comes to the result of the workflow in its time. -/
theorem Takes.finishes_start {r : Registry} {w : Workflow} {y : Except WorkflowError Value}
    {t : Nat} (h : Takes r w y t) : ∃ n, Machine.Finishes r (.start w) y t n :=
  h.finishes (Machine.finishes_result y)

end WorkflowEngine
