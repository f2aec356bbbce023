import WorkflowEngine.Proofs.Chains
import WorkflowEngine.Proofs.Completion
/-!
Chains of workflows on the engine. A chain that fits into a text is performed in order by its root
evaluation, in every run, and gives what its workflows give one after another. A longer chain is
refused when its text is read, before anything of it is performed.
-/
set_option autoImplicit false

namespace WorkflowEngine

/-- The programs that are left of an operation while it is performed. -/
inductive Operation.Underway (op : Operation) : Program (Reply Value) → Prop
  | starts {s : Surroundings} {p : Program (Reply Value)} (effect : op.effect s = .guarded p) :
      Underway op p
  | answered {r : Request} {next : r.Answer → Program (Reply Value)}
      (asks : Underway op (.ask r next)) (a : r.Answer) : Underway op (next a)

/-- Where an evaluation is that performs the workflows of a chain in order: its operations and the
children of its forks are those that the machine comes to in its place. -/
inductive Phase.InOrder (r : Registry) (ws : List Workflow) : Phase → Prop
  | queued : InOrder r ws .queued
  | accepted {payload : String} (decoded : Workflow.decode payload = .ok (.sequential ws)) :
      InOrder r ws (.accepted payload)
  | running {m : Machine} (place : m.InOrder r ws) : InOrder r ws (.running m)
  | operating {m : Machine} {op : Operation} {p : Program (Reply Value)} {due : Option Nat}
      {stack : List Frame} (place : m.InOrder r ws) (waits : m.step r = .operate op stack)
      (underway : op.Underway p) : InOrder r ws (.operating p due stack)
  | joining {m : Machine} {kind : ForkKind} {children : List Workflow} {f : Fork}
      {stack : List Frame} (place : m.InOrder r ws) (waits : m.step r = .fork kind children stack)
      (left : f.waiting <:+ children) : InOrder r ws (.joining f stack)
  | responded (response : Response) : InOrder r ws (.responded response)

/-- The phases of an evaluation of which nothing is performed, as its text cannot be read. -/
inductive Phase.Refused (err : WorkflowError) : Phase → Prop
  | queued : Refused err .queued
  | accepted (payload : String) : Refused err (.accepted payload)
  | responded {response : Response} (outcome : response.outcome = .error (.error err)) :
      Refused err (.responded response)

namespace Outline

open Workflow

variable {o o' : Outline} {ws : List Workflow} {e : Evaluation} {phase : Phase} {job : JobId}
  {id : EvaluationId} {w : Workflow}

section

variable (builtins : o.registry.Includes .standard) (kept : ∀ w ∈ ws.tail, ¬ w.RaisesNull)

include builtins kept

theorem inOrder_machine {m : Machine} (place : m.InOrder o.registry ws)
    (leads : (Cluster.Turn.step m).Leads (o.surroundings e) phase) :
    phase.InOrder o.registry ws := by
  cases leads with
  | next h => exact .running (place.moves builtins kept (.next h))
  | finished h => exact .responded _
  | aborted h => exact .responded _
  | childless h => exact .running (place.moves builtins kept (.joined h _))
  | immediate h => exact .running (place.moves builtins kept (.operated h _))
  | guarded h effect => exact .operating place h (.starts effect)

theorem inOrder_turn {turn : Cluster.Turn} (before : e.phase.InOrder o.registry ws)
    (follows : turn.Follows o.scopes e) (leads : turn.Leads (o.surroundings e) phase) :
    phase.InOrder o.registry ws := by
  have resumed {due : Option Nat} {p : Program (Reply Value)} {stack : List Frame}
      (operating : e.phase = .operating p due stack) (outcome : Outcome) :
      Phase.InOrder o.registry ws (.running ⟨stack, .resume outcome⟩) := by
    rw [operating] at before
    cases before with
    | operating place waits => exact .running (place.moves builtins kept (.operated waits _))
  cases follows with
  | started accepted decoded =>
    rw [accepted] at before
    cases before with
    | accepted decoded' =>
      cases decoded'.symm.trans decoded
      cases leads
      exact .running (Machine.inOrder_start _ ws)
  | steps running =>
    rw [running] at before
    cases before with
    | running place => exact inOrder_machine builtins kept place leads
  | interrupted operating | returned operating | failed operating =>
    cases leads
    exact resumed operating _
  | asks operating =>
    rw [operating] at before
    cases before with
    | operating place waits underway =>
      cases leads with
      | paused => exact .operating place waits underway
      | answered answer => exact .operating place waits (underway.answered answer)
  | joined joining =>
    rw [joining] at before
    cases before with
    | joining place waits =>
      cases leads
      exact .running (place.moves builtins kept (.joined waits _))
  | places joining waiting => cases leads
  | undecoded | stopped | aborted =>
    cases leads
    exact .responded _

/-- In each step an evaluation of a chain goes on in order. -/
theorem Passes.inOrder (h : o.Passes e phase) (before : e.phase.InOrder o.registry ws)
    (sent : ∀ payload, phase = .accepted payload → decode payload = .ok (sequential ws)) :
    phase.InOrder o.registry ws := by
  cases h with
  | rests => exact before
  | received queued => exact .accepted (sent _ rfl)
  | dropped queued stopped => exact .responded _
  | shifts turn leads => exact inOrder_turn builtins kept before turn leads
  | forks running free forks =>
    rw [running] at before
    cases before with
    | running place => exact .joining place forks (List.suffix_refl _)
  | places joining waiting =>
    rw [joining] at before
    cases before with
    | joining place waits left =>
      rw [waiting] at left
      exact .joining place waits ((List.suffix_cons _ _).trans left)
  | arrives i outcome joining =>
    rw [joining] at before
    cases before with
    | joining place waits left => exact .joining place waits left

end

/-- A job that starts from one text. -/
structure FromText (o : Outline) (job : JobId) (payload : String) : Prop where
  thread : ∃ t, o.threads.get? job = some t
  text : ∀ {payload'}, o.RootText job payload' → payload' = payload

theorem FromText.step {ev : Event} {payload : String} (h : o.FromText job payload)
    (s : o.Step ev o') (hc : o.Consistent) (hn : o.nextId < Uuid.supply) :
    o'.FromText job payload := by
  obtain ⟨t, thread⟩ := h.thread
  exact ⟨s.exists_thread h.thread, fun text => h.text (s.rootText hc hn thread text)⟩

/-- A job whose root evaluation performs a chain in order. -/
structure Ordered (o : Outline) (r : Registry) (ws : List Workflow) (job : JobId) : Prop where
  registry : o.registry = r
  inOrder : ∀ {id e}, o.evaluations.get? id = some e → e.job = job → e.parent = none →
    e.phase.InOrder r ws

theorem Ordered.step {ev : Event} {r : Registry} (h : o.Ordered r ws job) (s : o.Step ev o')
    (hc : o.Consistent) (builtins : r.Includes .standard) (kept : ∀ w ∈ ws.tail, ¬ w.RaisesNull)
    (sent : ∀ {payload}, o'.RootText job payload → decode payload = .ok (sequential ws)) :
    o'.Ordered r ws job where
  registry := s.registry.trans h.registry
  inOrder := by
    intro id e' live' own' root'
    obtain ⟨e, live, hjob, hparent, -, passes⟩ | ⟨-, queued | ⟨f, failed, -⟩⟩ :=
      s.evaluation hc live'
    · have before := h.inOrder live (hjob.symm.trans own') (hparent.symm.trans root')
      have registry := h.registry
      subst registry
      exact passes.inOrder builtins kept before fun payload accepted =>
        sent (.accepted live' own' root' accepted)
    · exact queued ▸ .queued
    · exact failed ▸ .responded _

/-! ## What cannot be read -/

/-- A job whose text cannot be read. -/
structure Refusing (o : Outline) (job : JobId) (payload : String) (err : WorkflowError) : Prop
    extends FromText o job payload where
  refused : ∀ {id e}, o.evaluations.get? id = some e → e.job = job → e.phase.Refused err
  ended : ∀ {outcome}, o.threads.get? job = some (.ended outcome) → outcome = .error (.error err)

variable {err : WorkflowError}

/-- A job of which nothing is performed has no children, as nothing waits for them. -/
theorem refused_top (hc : o.Forked)
    (refused : ∀ {id e}, o.evaluations.get? id = some e → e.job = job → e.phase.Refused err)
    (live : o.evaluations.get? id = some e) (own : e.job = job) : e.parent = none := by
  cases child : e.parent with
  | none => rfl
  | some parent =>
    obtain ⟨pe, f, stack, above, joining, family, -⟩ := hc.above live child
    have phase := refused above (family.trans own)
    rw [joining] at phase
    cases phase

theorem Passes.refused (h : o.Passes e phase) (before : e.phase.Refused err)
    (stays : o.scopes.isCancelled .root = false)
    (garbled : ∀ payload, e.phase = .accepted payload → decode payload = .error err) :
    phase.Refused err := by
  cases h with
  | rests => exact before
  | received queued => exact .accepted _
  | dropped queued stopped => cases stays.symm.trans stopped
  | shifts follows leads =>
    -- Only an accepted text takes a turn by itself, and its turn is to be read.
    cases follows with
    | started accepted decoded => cases decoded.symm.trans (garbled _ accepted)
    | undecoded accepted decoded =>
      cases decoded.symm.trans (garbled _ accepted)
      cases leads
      exact .responded (Outcome.decode_undecodable decoded)
    | stopped h | steps h | interrupted h | returned h | failed h | aborted h | asks h
    | places h | joined h =>
      rw [h] at before
      cases before
  | forks h | places h | arrives _ _ h =>
    rw [h] at before
    cases before

/-- A job whose text cannot be read stays so as long as the engine serves. -/
theorem Refusing.step {ev : Event} {payload : String} (h : o.Refusing job payload err)
    (s : o.Step ev o') (hc : o.Consistent) (hn : o.nextId < Uuid.supply)
    (stays : o.scopes.isCancelled .root = false) (garbled : decode payload = .error err) :
    o'.Refusing job payload err where
  toFromText := h.toFromText.step s hc hn
  refused := by
    intro id e' live' own'
    obtain ⟨e, live, hjob, -, -, passes⟩ | ⟨-, queued | ⟨f, -, stopped⟩⟩ := s.evaluation hc live'
    · have own := hjob.symm.trans own'
      have root := refused_top hc.toForked h.refused live own
      refine passes.refused (h.refused live own) stays fun payload' accepted => ?_
      rw [h.text (.accepted live own root accepted)]
      exact garbled
    · exact queued ▸ .queued
    · cases stays.symm.trans stopped
  ended := by
    intro outcome ended
    obtain before | ⟨id, e, r, live, own, -, responded, rfl⟩ := s.ended ended
    · exact h.ended before
    · have refused := h.refused live own
      rw [responded] at refused
      cases refused with
      | responded outcome => exact outcome

end Outline

namespace Cluster

open Workflow

variable {c₀ c : Cluster} {name : String} {w : Workflow} {ws : List Workflow} {job : JobId}
  {err : WorkflowError} {payload : String}

theorem fromText_submit (hc : c₀.outline.Consistent) (hn : c₀.nextId < Uuid.supply) :
    (c₀.submit name w).2.outline.FromText (c₀.submit name w).1 w.encode where
  thread := ⟨_, thread_submit c₀ name w⟩
  text := by
    intro payload text
    have absent : ∀ {id e}, (c₀.submit name w).2.outline.evaluations.get? id = some e →
        e.job ≠ (c₀.submit name w).1 := absent_submit hc hn name w
    cases text with
    | outgoing waits =>
      cases waits with
      | unsent thread =>
        cases thread.symm.trans (thread_submit c₀ name w)
        rfl
      | sent at_slot mem live own root => exact absurd own (absent live)
    | accepted live own root accepted => exact absurd own (absent live)

/-- Whatever happens, the root evaluation of a chain that fits performs the chain in order. -/
theorem Run.ordered {P : Cluster → Event → Prop} (run : Run P (c₀.submit name (sequential ws)).2 c)
    (hc : c₀.outline.Consistent) (ids : c.nextId < Uuid.supply)
    (builtins : c₀.registry.Includes .standard) (alone : ∀ w ∈ ws, w.Carried) (fits : Fits ws) :
    c.outline.Ordered c₀.registry ws (c₀.submit name (sequential ws)).1 := by
  have ids₀ := run.ids_submit ids
  have st := outline_submit c₀ name (sequential ws)
  have kept : ∀ w ∈ ws.tail, ¬ w.RaisesNull := fun w hw =>
    (alone w (List.mem_of_mem_tail hw)).not_raisesNull
  have begins : (c₀.submit name (sequential ws)).2.outline.Ordered c₀.registry ws
      (c₀.submit name (sequential ws)).1 :=
    ⟨st.registry, fun live own => absurd own (absent_submit hc ids₀ name _ live)⟩
  refine (run.invariant (I := fun c => c.outline.FromText (c₀.submit name (sequential ws)).1
      (sequential ws).encode ∧ c.outline.Ordered c₀.registry ws (c₀.submit name (sequential ws)).1)
    (hc.step ids₀ st) ids ⟨fromText_submit hc ids₀, begins⟩ ?_).2
  rintro b ev b' hb idsb - s ⟨fromText, ordered⟩
  have fromText' := fromText.step s hb idsb
  refine ⟨fromText', ordered.step s hb builtins kept fun text => ?_⟩
  rw [fromText'.text text]
  exact decode_sequential alone fits

/-- What holds of a job whose text cannot be read, while nobody cancels it or shuts the engine
down. -/
structure Declining (c : Cluster) (job : JobId) (payload : String) (err : WorkflowError) :
    Prop where
  consistent : c.outline.Consistent
  attended : c.outline.Attended
  numbered : ∃ role, c.outline.Numbered (some job) role
  refusing : c.outline.Refusing job payload err

theorem Declining.run {P : Cluster → Event → Prop} {b : Cluster} {payload : String}
    (h : c.Declining job payload err) (garbled : decode payload = .error err) (run : Run P c b)
    (spares : ∀ c ev, P c ev → ev.Spares (some job)) (ids : b.nextId < Uuid.supply) :
    b.Declining job payload err := by
  refine run.invariant (I := fun b => b.Declining job payload err) h.consistent ids h ?_
  rintro a ev b ha idsa may s ⟨-, attended, ⟨role, numbered⟩, refusing⟩
  exact
    { consistent := ha.step idsa s
      attended := attended.step ha idsa s
      numbered := numbered.step s (spares _ _ may)
      refusing := refusing.step s ha idsa numbered.free_engine garbled }

theorem Declining.outcome (h : c.Declining job payload err) {o : Outcome}
    (ended : c.outcome? job = some o) : o = .error (.error err) :=
  h.refusing.ended (outcome?_eq_some.1 ended)

/-- Nothing but the reading of its text keeps the job from its end. -/
theorem Declining.ended_of_pauses (h : c.Declining job payload err) (ids : c.nextId < Uuid.supply)
    (rest : c.Pauses job) : c.outcome? job = some (.error (.error err)) := by
  obtain ⟨t, thread⟩ := h.refusing.thread
  cases t with
  | submitted w scope => exact absurd thread (rest.begun w scope)
  | waiting =>
    obtain ⟨id, e, live, own, -⟩ := h.attended job thread
    have idle := rest.idles h.consistent ids live own
    have refused := h.refusing.refused live own
    generalize e.phase = phase at idle refused
    cases refused <;> cases idle
  | ended o =>
    obtain rfl := h.refusing.ended thread
    exact outcome?_eq_some.2 thread

/-- What is known of a job whose text cannot be read: it performs nothing, ends with an error only,
and ends as soon as nothing gets it on any more. -/
structure Refuses (c : Cluster) (job : JobId) (err : WorkflowError) : Prop where
  outcome : ∀ {o}, c.outcome? job = some o → o = .error (.error err)
  unperformed : ∀ {id e}, c.evaluations.get? id = some e → e.job = job →
    e.parent = none ∧ e.phase.Refused err
  goes_on : c.Pauses job → c.outcome? job = some (.error (.error err))
  exists_end : c.Calms job →
    ∃ c', Run (fun b ev => b.ByItself job ev) c c' ∧ c'.outcome? job = some (.error (.error err))

theorem Declining.refuses (h : c.Declining job payload err)
    (garbled : decode payload = .error err) (ids : c.nextId < Uuid.supply) :
    c.Refuses job err where
  outcome := h.outcome
  unperformed live own :=
    ⟨Outline.refused_top h.consistent.toForked h.refusing.refused live own,
      h.refusing.refused live own⟩
  goes_on := h.ended_of_pauses ids
  exists_end := by
    intro calms
    obtain ⟨b, run, ids', rest⟩ := calms.exists_rest ids
    have there := h.run garbled run (fun _ _ may => may.1.spares) ids'
    exact ⟨b, run, there.ended_of_pauses ids' (rest.pauses job)⟩

/-- A job whose text cannot be read is refused. -/
theorem refuses_of_garbled {registry : Registry} {config : EngineConfig} {backend : Backend}
    {sink : LogSink} (before : Reaches (start registry config backend sink) c₀)
    (serving : c₀.scopes.isCancelled .root = false) (garbled : decode w.encode = .error err)
    (run : Run (fun _ ev => ev.Spares (some (c₀.submit name w).1)) (c₀.submit name w).2 c)
    (ids : c.nextId < Uuid.supply) : c.Refuses (c₀.submit name w).1 err := by
  have ids₀ := run.ids_submit ids
  have hstart := consistent_start registry config backend sink
  have hc := before.consistent hstart ids₀
  have st := outline_submit c₀ name w
  have thread := thread_submit c₀ name w
  have declining : (c₀.submit name w).2.Declining (c₀.submit name w).1 w.encode err :=
    { consistent := hc.step ids₀ st
      attended := (attended_of_reaches before ids₀).step hc ids₀ st
      numbered := numbered_submit before ids₀ serving name w
      refusing :=
        { toFromText := fromText_submit hc ids₀
          refused := fun live own => absurd own (absent_submit hc ids₀ name w live)
          ended := fun ended => by cases thread.symm.trans ended } }
  exact (declining.run garbled run (fun _ _ may => may) ids).refuses garbled ids

theorem ofOutcome_result (job : JobId) (r : Except WorkflowError Value) :
    EngineError.ofOutcome job (r.mapError .error) = r.mapError .workflow := by
  cases r <;> rfl

/-- What becomes of a chain of workflows each of which is carried by itself. The chain is carried if
a text has room for it. Then its root evaluation performs the workflows in order, whatever happens;
unless somebody disturbs the job, it ends only as the workflows do one after another, and it does
end if each of them terminates. If a text has no room for the chain, and it never has for more than
64 workflows, then the job is refused: it performs nothing and fails. -/
theorem sequential_runs {registry : Registry} {config : EngineConfig} {backend : Backend}
    {sink : LogSink} (calm : registry.Calm) (builtins : registry.Includes .standard)
    {c₀ c : Cluster} (before : Reaches (start registry config backend sink) c₀)
    (serving : c₀.scopes.isCancelled .root = false) (name : String) {ws : List Workflow}
    (alone : ∀ w ∈ ws, w.Carried) (ids : c.nextId < Uuid.supply) :
    let job := (c₀.submit name (sequential ws)).1
    let s := c₀.surroundingsOf job
    let given := fun o => ∃ r, Chained s ws r ∧ EngineError.ofOutcome job o = r.mapError .workflow
    (Fits ws ↔ decode (sequential ws).encode = .ok (sequential ws)) ∧
    (64 < ws.length → ¬ Fits ws) ∧
    (Fits ws →
      (Reaches (c₀.submit name (sequential ws)).2 c → c.outline.Ordered registry ws job) ∧
      (Run (fun b ev => b.outline.Undisturbed job ev) (c₀.submit name (sequential ws)).2 c →
        (∀ o, c.outcome? job = some o → given o) ∧
        ((∀ w ∈ ws, w.Terminates s) → c.Completes job given))) ∧
    (¬ Fits ws →
      Run (fun _ ev => ev.Spares (some job)) (c₀.submit name (sequential ws)).2 c →
        c.Refuses job (.ofDecode (.malformed .tooDeep))) := by
  intro job s given
  have hstart := consistent_start registry config backend sink
  have kept : ∀ w ∈ ws.tail, ¬ w.RaisesNull := fun w hw =>
    (alone w (List.mem_of_mem_tail hw)).not_raisesNull
  have same {P : Cluster → Event → Prop} (run : Run P (c₀.submit name (sequential ws)).2 c) :
      c₀.registry = registry := before.registry hstart (run.ids_submit ids)
  have chained (builtins₀ : c₀.registry.Includes .standard) (r : Except WorkflowError Value)
      (permits : Permits s (sequential ws) r) : given (r.mapError .error) :=
    ⟨r, (permits_sequential builtins₀ kept).1 permits, ofOutcome_result job r⟩
  refine ⟨⟨decode_sequential alone, fun sent => ?_⟩,
    fun long fits => absurd fits.length_le (Nat.not_le.2 long), fun fits => ⟨fun run => ?_,
      fun run => ⟨fun o ended => ?_, fun terminates => ?_⟩⟩, fun deep run => ?_⟩
  · by_contra deep
    cases sent.symm.trans (decode_sequential_refused alone deep)
  · have ordered := run.ordered (before.consistent hstart (run.ids_submit ids)) ids
      (same run ▸ builtins) alone fits
    exact same run ▸ ordered
  · obtain ⟨source, sound⟩ := exists_sound calm before serving run ids
    obtain ⟨r, permits, rfl⟩ := sound.ended (outcome?_eq_some.1 ended)
    exact chained (same run ▸ builtins) r permits
  · have builtins₀ : c₀.registry.Includes .standard := same run ▸ builtins
    exact completes_of_terminates calm before serving
      (terminates_sequential builtins₀ kept terminates) run ids (chained builtins₀)
  · exact refuses_of_garbled before serving (decode_sequential_refused alone deep) run ids

set_option maxRecDepth 4096 in
/-- A chain of two workflows gives the value of the second one. -/
theorem sequential_runs_two :
    ∃ c, Run (fun b ev => b.outline.Undisturbed ⟨Uuid.fresh 0⟩ ev)
        ((start .standard { workers := 1 } (.memory .empty) (.memory .empty)).submit "job"
          (sequential [.ret (.bool true), .ret (.bool false)])).2 c ∧
      c.outcome? ⟨Uuid.fresh 0⟩ = some (.ok (.bool false)) ∧
      c.Completes ⟨Uuid.fresh 0⟩ fun o => ∃ r,
        Chained ((start .standard { workers := 1 } (.memory .empty)
          (.memory .empty)).surroundingsOf ⟨Uuid.fresh 0⟩)
          [.ret (.bool true), .ret (.bool false)] r ∧
        EngineError.ofOutcome ⟨Uuid.fresh 0⟩ o = r.mapError .workflow := by
  have alone : ∀ w ∈ [Workflow.ret (.bool true), .ret (.bool false)], w.Carried := by
    simp only [List.forall_mem_cons]
    exact ⟨⟨⟨trivial, trivial, trivial⟩, by cbv⟩, ⟨⟨trivial, trivial, trivial⟩, by cbv⟩,
      fun _ none => absurd none List.not_mem_nil⟩
  have fits : Fits [.ret (.bool true), .ret (.bool false)] := by
    have depth := depth_andThen (.ret (.bool true)) (.ret (.bool false))
    exact fits_iff.2 (depth.le.trans (by decide))
  have sent := decode_sequential alone fits
  have returned : Outcome.decode (Outcome.encode (.ok (.bool false))) = .ok (.bool false) := by cbv
  have second := Machine.resume_following (.refl .standard) (.ret (.bool false)) [] id
    (.bool true)
  have begun := Run.step (P := fun b ev => b.outline.Undisturbed ⟨Uuid.fresh 0⟩ ev)
    (.refl ((start .standard { workers := 1 } (.memory .empty) (.memory .empty)).submit "job"
      (sequential [.ret (.bool true), .ret (.bool false)])).2)
    (Outline.undisturbed_begin rfl sent)
    (rfl : Cluster.after _ (.move (.begin ⟨Uuid.fresh 0⟩)) = some _)
  have received := begun.step
    (Outline.undisturbed_of_quiet (.move (.receive 0)) trivial (by simp) (by simp)) rfl
  have started := received.starts ⟨Uuid.fresh 1⟩ rfl rfl sent
  have framed := started.moves ⟨Uuid.fresh 1⟩ rfl rfl rfl rfl
  have first := framed.moves ⟨Uuid.fresh 1⟩ rfl rfl rfl rfl
  have followed := first.moves ⟨Uuid.fresh 1⟩ rfl rfl rfl second
  have given := followed.moves ⟨Uuid.fresh 1⟩ rfl rfl rfl rfl
  have replied := given.replies ⟨Uuid.fresh 1⟩ rfl rfl rfl rfl returned
  have collected := replied.step
    (Outline.undisturbed_of_quiet (.move (.collect ⟨Uuid.fresh 1⟩)) trivial (by simp) (by simp)) rfl
  have terminates : ∀ w ∈ [Workflow.ret (.bool true), .ret (.bool false)], w.Terminates
      ((start .standard { workers := 1 } (.memory .empty)
        (.memory .empty)).surroundingsOf ⟨Uuid.fresh 0⟩) := by
    simp only [List.forall_mem_cons]
    exact ⟨.ret _, .ret _, fun _ none => absurd none List.not_mem_nil⟩
  refine ⟨_, collected, congrArg some returned, ?_⟩
  exact (((sequential_runs Registry.calm_standard (.refl _) (.refl _) rfl "job" alone
    (by decide)).2.2.1 fits).2 collected).2 terminates

/-! ## A chain that is too long -/

/-- A worker that cannot decode a payload responds with the error. -/
theorem after_undecoded {c : Cluster} (id : EvaluationId) {e : Evaluation}
    (live : c.evaluations.get? id = some e) (accepted : e.phase = .accepted payload)
    (garbled : decode payload = .error err) :
    c.after (.move (.advance id)) = some (c.finish id e (.error (.error err))) := by
  have ht : turn c.scopes e = some (.reply (.error (.error err))) := by
    unfold turn
    rw [accepted]
    simp only [garbled]
  simp only [after, step, advance, live, ht, Option.bind_eq_bind, Option.bind_some]
  rfl

/-- A chain of copies of one value gives that value. -/
theorem chained_replicate {s : Surroundings} {v : Value} {r : Except WorkflowError Value}
    (n : Nat) : Chained s (List.replicate (n + 1) (.ret v)) r ↔ r = .ok v := by
  induction n with
  | zero =>
    constructor
    · rintro (_ | gives)
      cases gives
      rfl
    · rintro rfl
      exact .last (.ret v)
  | succ n ih =>
    constructor
    · intro h
      cases h with
      | next gives others => exact ih.1 others
      | stop fails => cases fails
    · rintro rfl
      exact .next (.ret v) (ih.2 rfl)

/-- Each of 65 workflows is carried by itself, and one after another they give 1. The job of the
chain fails. -/
theorem sequential_refused :
    let ws := List.replicate 65 (Workflow.ret (.ofUInt64 1))
    (∀ w ∈ ws, w.Carried) ∧ (∀ s r, Chained s ws r ↔ r = .ok (.ofUInt64 1)) ∧
      ∃ c err, Run (fun _ ev => ev.Spares (some ⟨Uuid.fresh 0⟩))
          ((start .standard { workers := 1 } (.memory .empty) (.memory .empty)).submit "job"
            (sequential ws)).2 c ∧
        c.outcome? ⟨Uuid.fresh 0⟩ = some (.error (.error err)) ∧ err.kind = .serialization := by
  intro ws
  have exact : (Workflow.ret (.ofUInt64 1)).toJson.Exact := ⟨trivial, trivial, trivial⟩
  have alone : ∀ w ∈ ws, w.Carried := by
    intro w hw
    obtain rfl := List.eq_of_mem_replicate hw
    exact ⟨exact, (decode_text _ exact).trans (if_pos (by decide))⟩
  have deep : ¬ Fits ws := fun fits => absurd fits.length_le (by simp [ws])
  have garbled := decode_sequential_refused alone deep
  have returned := Outcome.decode_undecodable garbled
  have spares (m : Move) : Event.Spares (some ⟨Uuid.fresh 0⟩) (.move m) := trivial
  have begun := Run.step (P := fun _ ev => ev.Spares (some ⟨Uuid.fresh 0⟩))
    (.refl ((start .standard { workers := 1 } (.memory .empty) (.memory .empty)).submit "job"
      (sequential (List.replicate 65 (Workflow.ret (.ofUInt64 1))))).2)
    (spares _) (rfl : Cluster.after _ (.move (.begin ⟨Uuid.fresh 0⟩)) = some _)
  have received := begun.step (spares _) (rfl : Cluster.after _ (.move (.receive 0)) = some _)
  have refused := received.step (spares _) (after_undecoded ⟨Uuid.fresh 1⟩ rfl rfl garbled)
  have collected := refused.step (spares _)
    (rfl : Cluster.after _ (.move (.collect ⟨Uuid.fresh 1⟩)) = some _)
  exact ⟨alone, fun s r => chained_replicate 64, _, _, collected, congrArg some returned, rfl⟩

end Cluster

end WorkflowEngine
