import WorkflowEngine.Proofs.Journal
import WorkflowEngine.Proofs.Shutdown
import WorkflowEngine.Proofs.Soundness
import WorkflowEngine.Proofs.Utterances
/-!
The logs of jobs. Whatever jobs run at the same time, what is in the log of a job are the messages
of its own evaluations, each in the order in which it performed them. A job that opens no fork has
one evaluation, and its log is in the order of its workflow.
-/
set_option autoImplicit false

namespace WorkflowEngine

/-- The workflow that a worker evaluates for a text. One that cannot be decoded fails. -/
def Workflow.received (text : String) : Workflow :=
  match decode text with
  | .ok w => w
  | .error e => .raise e

theorem Effect.message_of_immediate {op : Operation} {s : Surroundings}
    {r : Except WorkflowError Value} (h : op.effect s = .immediate r) : op.message? = none := by
  cases logs : op.message? with
  | none => rfl
  | some message =>
    rw [Operation.effect_of_message logs] at h
    cases h

/-- How far the evaluation of a job without forks has come, in each phase, when some messages have
been logged. -/
inductive Phase.Recites (s : Surroundings) (w : Workflow) (cancelled : Bool)
    (said : List String) : Phase → Prop
  | queued (mute : said = []) : Recites s w cancelled said .queued
  | accepted {payload : String} (mute : said = []) (received : Workflow.received payload = w) :
      Recites s w cancelled said (.accepted payload)
  | running {m : Machine} (recites : m.Recites s w said) : Recites s w cancelled said (.running m)
  | silent {p : Program (Reply Value)} {due : Option Nat} {stack : List Frame}
      {before : List String} {op : Operation} {worker : WorkerId}
      (rest : Leaves s before (Machine.plug stack (.perform op)) w)
      (all : said = before ++ op.message?.toList)
      (replies : ∀ r, p.Gives r → (op.effect { s with worker }).Replies r) (silent : p.Silent) :
      Recites s w cancelled said (.operating p due stack)
  | telling {p : Program (Reply Value)} {due : Option Nat} {stack : List Frame} {op : Operation}
      {message : String} {worker : WorkerId}
      (rest : Leaves s said (Machine.plug stack (.perform op)) w)
      (logs : op.message? = some message)
      (replies : ∀ r, p.Gives r → (op.effect { s with worker }).Replies r)
      (delivers : p.Delivers s.job message) : Recites s w cancelled said (.operating p due stack)
  | replied (reply : Reply Value) (utters : Utters s w said (some reply)) :
      Recites s w cancelled said (.responded (.reply (Machine.outcomeOf reply).encode))
  | ceased {phase : Phase} (stops : (∃ m, phase = .running m ∧ cancelled = true) ∨
      phase = .responded (.reply (Outcome.encode (.error .cancelled)))) :
      Recites s w cancelled said phase
  | failed (f : TransportError) (mute : said = []) :
      Recites s w cancelled said (.responded (.failed f))

/-- How a job without forks ends that has logged some messages: with the reply of its workflow, all
of whose messages are these, unless it was cancelled or no worker has accepted it. -/
inductive EndsAfter (s : Surroundings) (w : Workflow) (said : List String) : Outcome → Prop
  | replied {reply : Reply Value} {o : Outcome} (utters : Utters s w said (some reply))
      (decoded : Outcome.decode (Machine.outcomeOf reply).encode = o) : EndsAfter s w said o
  | cancelled : EndsAfter s w said (.error .cancelled)
  | failed (f : TransportError) (mute : said = []) :
      EndsAfter s w said (.error (.error (.transport f.message)))

namespace EndsAfter

variable {s : Surroundings} {w : Workflow} {said : List String}

theorem of_reply {text : String} {o : Outcome} (decoded : Outcome.decode text = o)
    (h : EndsAfter s w said o) : EndsAfter s w said (Response.outcome (.reply text)) := by
  subst decoded
  exact h

theorem of_responded {cancelled : Bool} {phase : Phase} {r : Response}
    (h : phase.Recites s w cancelled said) (responded : phase = .responded r) :
    EndsAfter s w said r.outcome := by
  cases h with
  | replied reply utters =>
    cases responded
    exact of_reply rfl (.replied utters rfl)
  | ceased stops =>
    rcases stops with ⟨m, running, -⟩ | replied
    · cases running.symm.trans responded
    · cases replied.symm.trans responded
      exact of_reply Cluster.decode_cancelled .cancelled
  | failed f mute =>
    cases responded
    exact .failed f mute
  | queued | accepted | running | silent | telling => cases responded

end EndsAfter

namespace Phase.Recites

variable {s : Surroundings} {w : Workflow} {cancelled cancelled' : Bool} {said : List String}
  {phase : Phase}

theorem mono (h : phase.Recites s w cancelled said) (stays : cancelled = true → cancelled' = true) :
    phase.Recites s w cancelled' said := by
  cases h with
  | queued mute => exact .queued mute
  | accepted mute received => exact .accepted mute received
  | running recites => exact .running recites
  | silent rest all replies silent => exact .silent rest all replies silent
  | telling rest logs replies delivers => exact .telling rest logs replies delivers
  | replied reply utters => exact .replied reply utters
  | ceased stops =>
    refine .ceased (stops.imp_left ?_)
    rintro ⟨m, running, hc⟩
    exact ⟨m, running, stays hc⟩
  | failed f mute => exact .failed f mute

theorem not_joining {f : Fork} {stack : List Frame} :
    ¬ (Phase.joining f stack).Recites s w cancelled said := by
  rintro (_ | _ | _ | _ | _ | _ | stops)
  simp at stops

/-- A program that has come to its end has logged its message, and its reply is that of the
operation. -/
theorem ends {r : Reply Value} {due : Option Nat} {stack : List Frame}
    (h : (Phase.operating (.done r) due stack).Recites s w cancelled said) :
    ∃ before op worker, Leaves s before (Machine.plug stack (.perform op)) w ∧
      said = before ++ op.message?.toList ∧ (op.effect { s with worker }).Replies r := by
  cases h with
  | silent rest all replies silent => exact ⟨_, _, _, rest, all, replies r (.done r)⟩
  | telling rest logs replies delivers => cases delivers
  | ceased stops => simp at stops

/-- A step of the machine that opens no fork. -/
theorem machine {m : Machine} {worker : WorkerId} (h : m.Recites s w said)
    (leads : (Cluster.Turn.step m).Leads { s with worker } phase)
    (straight : ∀ kind children stack, m.step s.registry ≠ .fork kind children stack) :
    phase.Recites s w cancelled said := by
  have goes := h.step
  cases leads with
  | next hm =>
    rw [hm] at goes
    exact .running goes
  | finished hm =>
    rw [hm] at goes
    obtain ⟨r, utters, rfl⟩ := goes
    exact .replied r utters
  | aborted hm =>
    rw [hm] at goes
    exact .replied (.aborted _) goes
  | childless hm => exact absurd hm (straight _ _ _)
  | @immediate _ op stack r hm he =>
    rw [hm] at goes
    have mute : said ++ op.message?.toList = said := by
      rw [Effect.message_of_immediate he]
      exact List.append_nil said
    refine .running ?_
    rw [← mute]
    cases r with
    | ok v =>
      have replies : (op.effect { s with worker }).Replies (.ok v) := he ▸ .value v
      exact Machine.recites_value goes replies
    | error e =>
      have replies : (op.effect { s with worker }).Replies (.failed e) := he ▸ .error e
      exact Machine.recites_error goes replies
  | @guarded _ op stack p hm he =>
    rw [hm] at goes
    have replies : ∀ r, p.Gives r → (op.effect { s with worker }).Replies r :=
      fun r gives => he ▸ .guarded gives
    cases logs : op.message? with
    | none =>
      have mute : said = said ++ op.message?.toList := by
        rw [logs]
        exact (List.append_nil said).symm
      exact .silent goes mute replies ((Operation.quiet_effect _ logs).silent he)
    | some message =>
      rw [Operation.effect_of_message logs] at he
      exact .telling goes logs replies (Effect.delivers_ofMessage (s := { s with worker }) he)

/-- A turn of the evaluation that neither appends an entry nor opens a fork. -/
theorem turn {scopes : ScopeTree} {e : Evaluation} {t : Cluster.Turn} {worker : WorkerId}
    (h : e.phase.Recites s w (scopes.isCancelled e.scope) said) (turn : t.Follows scopes e)
    (leads : t.Leads { s with worker } phase)
    (quiet : ∀ entry limit next due stack, t ≠ .ask (.append entry limit) next due stack)
    (straight : ∀ m kind children stack, e.phase = .running m →
      scopes.isCancelled e.scope = false → m.step s.registry ≠ .fork kind children stack) :
    phase.Recites s w (scopes.isCancelled e.scope) said := by
  cases turn with
  | started accepted decoded =>
    cases leads
    rw [accepted] at h
    cases h with
    | accepted mute received =>
      subst mute received
      simp only [Workflow.received, decoded]
      exact .running (Machine.recites_start s _)
    | ceased stops => simp at stops
  | @undecoded payload err accepted decoded =>
    cases leads
    rw [accepted] at h
    cases h with
    | accepted mute received =>
      subst mute received
      simp only [Workflow.received, decoded]
      exact .replied (.failed err) (.raise err)
    | ceased stops => simp at stops
  | stopped running cancelled =>
    cases leads
    exact .ceased (.inr rfl)
  | @steps m running free =>
    have straight := fun kind children stack => straight m kind children stack running free
    rw [running, free] at h
    cases h with
    | running recites => exact machine recites leads straight
    | ceased stops => simp at stops
  | interrupted operating cancelled =>
    cases leads
    exact .ceased (.inl ⟨_, rfl, cancelled⟩)
  | returned operating free =>
    cases leads
    rw [operating] at h
    obtain ⟨before, op, worker, rest, rfl, replies⟩ := h.ends
    exact .running (Machine.recites_value rest replies)
  | failed operating free =>
    cases leads
    rw [operating] at h
    obtain ⟨before, op, worker, rest, rfl, replies⟩ := h.ends
    exact .running (Machine.recites_error rest replies)
  | aborted operating free =>
    cases leads
    rw [operating] at h
    obtain ⟨before, op, worker, rest, rfl, replies⟩ := h.ends
    exact .replied _ (Machine.utters_abort rest replies)
  | asks operating free =>
    rw [operating] at h
    cases leads with
    | paused =>
      cases h with
      | silent rest all replies silent => exact .silent rest all replies silent
      | telling rest logs replies delivers => exact .telling rest logs replies delivers
      | ceased stops => simp at stops
    | answered answer =>
      cases h with
      | silent rest all replies silent =>
        exact .silent rest all (fun r gives => replies r (.ask answer gives)) (silent.2 answer)
      | telling rest logs replies delivers =>
        cases delivers with
        | clock delivers =>
          exact .telling rest logs (fun r gives => replies r (.ask answer gives))
            (delivers answer)
        | entry => exact absurd rfl (quiet _ _ _ _ _)
      | ceased stops => simp at stops
  | places joining waiting => exact (not_joining (joining ▸ h)).elim
  | joined joining placed arrived => exact (not_joining (joining ▸ h)).elim

/-- An append of the evaluation is its next message. -/
theorem appends {entry : LogEntry} {limit : Nat} {next : Bool → Program (Reply Value)}
    {due : Option Nat} {stack : List Frame}
    (h : (Phase.operating (.ask (.append entry limit) next) due stack).Recites s w cancelled said) :
    (Phase.operating (next true) none stack).Recites s w cancelled (said ++ [entry.message]) ∧
      Utters s w (said ++ [entry.message]) none := by
  cases h with
  | silent rest all replies silent => exact silent.1.elim
  | @telling _ _ _ op message worker rest logs replies delivers =>
    cases delivers with
    | entry own same ends =>
      have all : said ++ [entry.message] = said ++ op.message?.toList := by
        rw [logs, same]
        rfl
      refine ⟨.silent rest all (fun r gives => replies r (.ask true gives)) ?_, ?_⟩
      · rw [ends]
        trivial
      · rw [all]
        exact Machine.utters_performing rest
  | ceased stops => simp at stops

end Phase.Recites

namespace Cluster

/-- Whether an event opens a fork in an evaluation of a job. -/
def Forks (c : Cluster) (job : JobId) : Event → Prop
  | .move (.advance id) => ∃ e m kind children stack, c.evaluations.get? id = some e ∧
    e.job = job ∧ e.phase = .running m ∧ c.scopes.isCancelled e.scope = false ∧
    m.step c.registry = .fork kind children stack
  | _ => False

/-- What is known of a job without forks when some messages have been logged for it. -/
structure Recited (c : Cluster) (s : Surroundings) (w : Workflow) (said : List String) : Prop where
  stream : ∃ log, c.sink = .memory log ∧ (log.read s.job).map LogEntry.message = said
  base : ∀ {e : Evaluation}, e.job = s.job →
    ∃ worker, c.outline.surroundings e = { s with worker }
  thread : ∃ t, c.outline.threads.get? s.job = some t
  begun : Utters s w said none
  text : ∀ {payload}, c.outline.RootText s.job payload → Workflow.received payload = w
  unsent : ∀ {payload}, c.outline.Outgoing s.job payload → said = []
  root : ∀ {id e}, c.evaluations.get? id = some e → e.job = s.job → e.parent = none
  recites : ∀ {id e}, c.evaluations.get? id = some e → e.job = s.job →
    e.phase.Recites s w (c.scopes.isCancelled e.scope) said
  ended : ∀ {o}, c.outline.threads.get? s.job = some (.ended o) → EndsAfter s w said o

namespace Recited

variable {c c' : Cluster} {s : Surroundings} {w : Workflow} {said : List String} {ev : Event}
  {id : EvaluationId} {e e' : Evaluation} {j : Journal} {lines : List Line}

/-- The evaluation of a job is at the same message when something else happens. -/
theorem bystander (h : c.Recited s w said) (hc : c.outline.Consistent)
    (hn : c.nextId < Uuid.supply) (st : c.outline.Step ev c'.outline)
    (other : ev ≠ .move (.advance id)) (live' : c'.evaluations.get? id = some e')
    (own : e'.job = s.job) :
    e'.parent = none ∧ e'.phase.Recites s w (c'.scopes.isCancelled e'.scope) said := by
  obtain ⟨t, thread⟩ := h.thread
  cases st.bystander hc live' other with
  | rests live => exact ⟨h.root live own, (h.recites live own).mono st.isCancelled⟩
  | @received e payload live queued same =>
    have root := h.root live (by rw [← own, same])
    have before := queued ▸ h.recites live (by rw [← own, same])
    have received := h.text (st.rootText hc hn thread
      (.accepted live' own (by rw [same]; exact root) (by rw [same])))
    subst same
    refine ⟨root, ?_⟩
    cases before with
    | queued mute => exact .accepted mute received
    | ceased stops => simp at stops
  | @dropped e f live queued same =>
    subst same
    have root := h.root live own
    have before := queued ▸ h.recites live own
    refine ⟨root, ?_⟩
    cases before with
    | queued mute => exact .failed f mute
    | ceased stops => simp at stops
  | @arrived e f f' stack live joining same =>
    subst same
    exact (Phase.Recites.not_joining (joining ▸ h.recites live own)).elim
  | @begun v scope new thread root sent =>
    have mute := h.unsent (.unsent (own ▸ thread))
    refine ⟨root, ?_⟩
    rcases sent with hp | ⟨f, hp⟩
    · exact hp ▸ .queued mute
    · exact hp ▸ .failed f mute
  | placed new live same joining sent =>
    exact (Phase.Recites.not_joining (joining ▸ h.recites live (same ▸ own))).elim

/-- A turn of the evaluation of a job that neither appends an entry nor opens a fork. -/
theorem acting (h : c.Recited s w said)
    (st : c.outline.Step (.move (.advance id)) c'.outline) (live : c.evaluations.get? id = some e)
    (own : e.job = s.job) (quiet : ¬ c.Appends (.move (.advance id)))
    (straight : ¬ c.Forks s.job (.move (.advance id)))
    (live' : c'.evaluations.get? id = some e') :
    e'.parent = none ∧ e'.phase.Recites s w (c'.scopes.isCancelled e'.scope) said := by
  have root := h.root live own
  have recites := h.recites live own
  obtain ⟨worker, base⟩ := h.base own
  have registry : c.registry = s.registry := congrArg Surroundings.registry base
  generalize heq : c'.outline = o' at st
  have live₁ : o'.evaluations.get? id = some e' := heq ▸ live'
  have stays : ∀ {scope}, c.outline.scopes.isCancelled scope = true →
      c'.scopes.isCancelled scope = true := by
    intro scope cancelled
    have after := st.isCancelled cancelled
    rw [← heq] at after
    exact after
  cases st with
  | @shift _ e₀ t steps n phase live₀ turn leads later =>
    cases live₀.symm.trans live
    cases ((Table.get?_insert _ _ _ _).trans (if_pos rfl)).symm.trans live₁
    refine ⟨root, ?_⟩
    refine (recites.turn turn (base ▸ leads) (fun entry limit next due stack same => ?_)
      fun m kind children stack running free forks => ?_).mono stays
    · subst same
      exact quiet ⟨e, entry, limit, next, due, stack, live, turn_of_follows turn⟩
    · rw [← registry] at forks
      exact straight ⟨e, m, kind, children, stack, live, own, running, free, forks⟩
  | @fork _ e₀ m kind first rest stack steps live₀ running free forks =>
    cases live₀.symm.trans live
    exact absurd ⟨e, m, kind, _, stack, live, own, running, free, forks⟩ straight
  | place live₀ joining waiting sent =>
    cases live₀.symm.trans live
    exact (Phase.Recites.not_joining (joining ▸ recites)).elim

/-- An event that appends no entry to the log of the job. -/
theorem next (h : c.Recited s w said) (hc : c.outline.Consistent) (hn : c.nextId < Uuid.supply)
    (st : c.outline.Step ev c'.outline)
    (stream : ∃ log, c'.sink = .memory log ∧ (log.read s.job).map LogEntry.message = said)
    (evaluations : ∀ {id e'}, c'.evaluations.get? id = some e' → e'.job = s.job →
      e'.parent = none ∧ e'.phase.Recites s w (c'.scopes.isCancelled e'.scope) said) :
    c'.Recited s w said where
  stream := stream
  base := by
    rw [st.surroundings]
    exact h.base
  thread := st.exists_thread h.thread
  begun := h.begun
  text text := by
    obtain ⟨t, thread⟩ := h.thread
    exact h.text (st.rootText hc hn thread text)
  unsent waits := by
    obtain ⟨t, thread⟩ := h.thread
    exact h.unsent (st.outgoing hc hn thread waits)
  root live' own := (evaluations live' own).1
  recites live' own := (evaluations live' own).2
  ended ended := by
    rcases st.ended ended with before | ⟨id, e, r, live, own, root, responded, rfl⟩
    · exact h.ended before
    · exact .of_responded (h.recites live own) responded

/-- The evaluation of the job appends its next message. -/
theorem append (h : c.Recited s w said) (hc : c.outline.Consistent) (hn : c.nextId < Uuid.supply)
    (hc' : c'.outline.Consistent) {entry : LogEntry} {limit : Nat}
    {next : Bool → Program (Reply Value)} {due : Option Nat} {stack : List Frame}
    (st : c.outline.Step (.move (.advance id)) c'.outline) (live : c.evaluations.get? id = some e)
    (own : e.job = s.job) (job : entry.job = s.job)
    (ht : turn c.scopes e = some (.ask (.append entry limit) next due stack))
    (after : c.after (.move (.advance id)) = some c') :
    c'.Recited s w (said ++ [entry.message]) := by
  obtain ⟨log, hsink, stream⟩ := h.stream
  obtain ⟨t, thread⟩ := h.thread
  have operating : e.phase = .operating (.ask (.append entry limit) next) due stack := by
    cases follows_of_turn ht
    assumption
  have root := h.root live own
  obtain ⟨recites, begun⟩ := (operating ▸ h.recites live own).appends
  have eq := after_append live ht after
  rw [hsink] at eq
  have live₁ : c'.evaluations.get? id =
      some { e with phase := .operating (next true) none stack } := by
    rw [eq]
    exact get?_setPhase _ _ _ _
  have only : ∀ {id' e'}, c'.evaluations.get? id' = some e' → e'.job = s.job →
      e' = { e with phase := .operating (next true) none stack } := by
    intro id' e' live' own'
    by_cases hid : id' = id
    · subst hid
      exact Option.some.inj (live'.symm.trans live₁)
    · have root' := (h.bystander hc hn st
        (fun same => hid (Move.advance.inj (Event.move.inj same)).symm) live' own').1
      exact absurd (hc'.root_unique live' live₁ root' root (own'.trans own.symm)) hid
  refine
    { stream := ⟨log.append entry, by rw [eq]; rfl, ?_⟩
      base := ?_
      thread := st.exists_thread h.thread
      begun := begun
      text := fun text => h.text (st.rootText hc hn thread text)
      unsent := fun waits => ?_
      root := fun live' own' => ?_
      recites := fun live' own' => ?_
      ended := fun ended => ?_ }
  · rw [MemoryLog.read_append, if_pos job, List.map_append, stream]
    rfl
  · rw [st.surroundings]
    exact h.base
  · exact absurd (st.outgoing hc hn thread waits)
      (hc.not_outgoing live own root (by simp [operating]))
  · rw [only live' own']
    exact root
  · rw [only live' own']
    exact recites.mono st.isCancelled
  · have waiting := hc'.thread_of_evaluation live₁
    cases (own ▸ waiting : _).symm.trans ended

/-- Every event that opens no fork of the job leaves its log in the order of its workflow. -/
theorem step (h : c.Recited s w said) (heard : c.Heard j lines) (hc : c.outline.Consistent)
    (hn : c.nextId < Uuid.supply) (straight : ¬ c.Forks s.job ev) (after : c.after ev = some c') :
    ∃ said', c'.Recited s w said' := by
  have st := step_of_after hc after
  by_cases appends : c.Appends ev
  · cases ev with
    | move m =>
      cases m with
      | advance id =>
        obtain ⟨e, entry, limit, next, due, stack, live, ht⟩ := appends
        have operating : e.phase = .operating (.ask (.append entry limit) next) due stack := by
          cases follows_of_turn ht
          assumption
        obtain ⟨job, -⟩ := (operating ▸ heard.tells live).appends
        by_cases own : e.job = s.job
        · exact ⟨_, h.append hc hn (hc.step hn st) st live own (job.trans own) ht after⟩
        · refine ⟨said, h.next hc hn st ?_ fun {id' e'} live' own' => ?_⟩
          · obtain ⟨log, hsink, stream⟩ := h.stream
            have eq := after_append live ht after
            rw [hsink] at eq
            refine ⟨log.append entry, by rw [eq]; rfl, ?_⟩
            rw [MemoryLog.read_append, if_neg (job ▸ own)]
            exact stream
          · refine h.bystander hc hn st (fun same => own ?_) live' own'
            obtain rfl := Move.advance.inj (Event.move.inj same)
            have eq := after_append live ht after
            rw [eq] at live'
            cases (get?_setPhase _ _ _ _).symm.trans live'
            exact own'
      | begin | receive | close | collect => exact appends.elim
    | submit | cancel | forget | shutdown | elapse | arrange => exact appends.elim
  · refine ⟨said, h.next hc hn st ?_ fun {id e'} live' own => ?_⟩
    · rw [sink_after appends after]
      exact h.stream
    · by_cases turn : ev = .move (.advance id)
      · subst turn
        rcases st.evaluation hc live' with ⟨e, live, same, -⟩ | ⟨rfl, -⟩
        · exact h.acting st live (same ▸ own) appends straight live'
        · obtain ⟨e, t, live, -⟩ := advance_cases after
          cases (hc.fresh hn).symm.trans live
      · exact h.bystander hc hn st turn live' own

/-- Nothing is logged for a job that has just been submitted. -/
theorem submit (heard : c.Heard j lines) (hc : c.outline.Consistent) (hn : c.nextId < Uuid.supply)
    (name : String) (w : Workflow) :
    (c.submit name w).2.Recited (c.surroundingsOf (c.submit name w).1)
      (.received w.encode) [] := by
  have absent : ∀ {id e}, (c.submit name w).2.outline.evaluations.get? id = some e →
      e.job ≠ (c.submit name w).1 := absent_submit hc hn name w
  have thread := thread_submit c name w
  have text : ∀ {payload}, (c.submit name w).2.outline.Outgoing (c.submit name w).1 payload →
      payload = w.encode := by
    rintro _ (submitted | ⟨at_slot, mem, live, own, root⟩)
    · cases thread.symm.trans submitted
      rfl
    · exact absurd own (absent live)
  refine
    { stream := ?_
      base := (sound_submit hc hn name w).base
      thread := ⟨_, thread⟩
      begun := .cut _
      text := ?_
      unsent := fun _ => rfl
      root := fun live own => absurd own (absent live)
      recites := fun live own => absurd own (absent live)
      ended := fun ended => by cases thread.symm.trans ended }
  · obtain ⟨log, hsink, stream⟩ := heard.stream
    have next : c.after (.submit name w) = some (c.submit name w).2 := rfl
    have quiet : ¬ c.Appends (.submit name w) := fun appends => appends
    have same : (c.submit name w).2.sink = c.sink := sink_after quiet next
    refine ⟨log, same.trans hsink, (stream _).trans (Line.ofJob_eq_nil fun a own => ?_)⟩
    refine (heard.new a fun known => known.1.ne_newId hn ?_).2
    exact congrArg JobId.uuid own
  · rintro _ (waits | ⟨live, own, root, accepted⟩)
    · rw [text waits]
    · exact absurd own (absent live)

end Recited

section Runs

variable {registry : Registry} {config : EngineConfig} {backend : Backend} {c₀ c : Cluster}
  {name : String} {w : Workflow}

theorem Run.recited (before : Reaches (start registry config backend (.memory .empty)) c₀)
    (run : Run (fun b ev => ¬ b.Forks (c₀.submit name w).1 ev) (c₀.submit name w).2 c)
    (ids : c.nextId < Uuid.supply) :
    ∃ said, c.Recited (c₀.surroundingsOf (c₀.submit name w).1) (.received w.encode) said := by
  have next : c₀.after (.submit name w) = some (c₀.submit name w).2 := rfl
  have submitted := before.step trivial next
  induction run with
  | refl =>
    have ids₀ : c₀.nextId < Uuid.supply := Nat.lt_of_le_of_lt (nextId_after next) ids
    have hc := before.consistent (consistent_start _ _ _ _) ids₀
    obtain ⟨j, journals⟩ := Reaches.journals before
    obtain ⟨lines, heard⟩ := journals.heard ids₀
    exact ⟨[], .submit heard hc ids₀ name w⟩
  | @step b c ev run straight next ih =>
    have ids' := Nat.lt_of_le_of_lt (nextId_after next) ids
    have reaches := submitted.trans run.reaches
    have hc := reaches.consistent (consistent_start _ _ _ _) ids'
    obtain ⟨j, journals⟩ := Reaches.journals reaches
    obtain ⟨lines, heard⟩ := journals.heard ids'
    obtain ⟨said, recited⟩ := ih ids'
    exact recited.step heard hc ids' straight next

theorem jobLog_of_memory {log : MemoryLog} (h : c.sink = .memory log) (job : JobId) :
    c.jobLog job = .ok (log.read job) := by
  rw [jobLog, h]
  rfl

/-- The logs of all jobs, in every state that an engine comes to: the log of a job has the messages
that its evaluations have performed, those of each evaluation in their order. Only the last one of
an evaluation may be missing, when its operation has not returned. If a job has opened no fork, its
log has the messages of its workflow in their order. -/
theorem logs_in_order {j : Journal}
    (run : Journals (start registry config backend (.memory .empty)) c j)
    (ids : c.nextId < Uuid.supply) :
    (∃ lines : List Line, ∀ job,
      (∃ entries, c.jobLog job = .ok entries ∧
        entries.map LogEntry.message = Line.ofJob job lines) ∧
      ∀ id, Act.Logged (j ⟨job, id⟩) (Line.of ⟨job, id⟩ lines)) ∧
    ∀ {c₀ name w}, Reaches (start registry config backend (.memory .empty)) c₀ →
      Run (fun b ev => ¬ b.Forks (c₀.submit name w).1 ev) (c₀.submit name w).2 c →
      ∃ entries, c.jobLog (c₀.submit name w).1 = .ok entries ∧
        Utters (c₀.surroundingsOf (c₀.submit name w).1) (.received w.encode)
          (entries.map LogEntry.message) none ∧
        ∀ o, c.outcome? (c₀.submit name w).1 = some o →
          EndsAfter (c₀.surroundingsOf (c₀.submit name w).1) (.received w.encode)
            (entries.map LogEntry.message) o := by
  refine ⟨?_, fun {c₀ name w} before straight => ?_⟩
  · obtain ⟨lines, heard⟩ := run.heard ids
    obtain ⟨log, hsink, stream⟩ := heard.stream
    exact ⟨lines, fun job => ⟨⟨log.read job, jobLog_of_memory hsink job, stream job⟩,
      fun id => heard.logged ⟨job, id⟩⟩⟩
  · obtain ⟨said, recited⟩ := Run.recited before straight ids
    obtain ⟨log, hsink, stream⟩ := recited.stream
    subst stream
    refine ⟨log.read _, jobLog_of_memory hsink _, recited.begun, fun o ended => ?_⟩
    unfold outcome? at ended
    split at ended
    · next outcome thread =>
      cases ended
      exact recited.ended thread
    · cases ended

/-- A run after which an evaluation has performed certain acts. -/
def Performed (a : Cluster) (x : Speaker) (acts : List Act) (c : Cluster) : Prop :=
  ∃ j, Journals a c j ∧ j x = acts

theorem Performed.elsewhere {a b : Cluster} {x : Speaker} {acts : List Act} {ev : Event}
    (run : Performed a x acts b) (next : b.after ev = some c)
    (other : ∀ id, ev ≠ .move (.advance id)) : Performed a x acts c := by
  obtain ⟨j, journals, hacts⟩ := run
  refine ⟨_, journals.step next, ?_⟩
  rw [Heard.record_elsewhere other]
  exact hacts

theorem Performed.advance {a b : Cluster} {x : Speaker} {id : EvaluationId} {e : Evaluation}
    {t : Turn} {acts : List Act} (run : Performed a x acts b)
    (next : b.after (.move (.advance id)) = some c) (live : b.evaluations.get? id = some e)
    (own : x = ⟨e.job, id⟩) (turn : t.Follows b.scopes e) :
    Performed a x (t.record (b.surroundings e) e.phase acts) c := by
  subst own
  obtain ⟨j, journals, hacts⟩ := run
  refine ⟨_, journals.step next, ?_⟩
  rw [Heard.record_advance live (turn_of_follows turn), Function.update_self, hacts]

/-- A job logs a message and ends. -/
theorem logs_in_order_ended :
    ∃ c j entries o, Journals (start {} { workers := 1 } (.memory .empty) (.memory .empty)) c j ∧
      j ⟨⟨Uuid.fresh 0⟩, ⟨Uuid.fresh 1⟩⟩ = [⟨.log "hello", true⟩] ∧
      (∃ lines : List Line, Act.Logged [⟨.log "hello", true⟩]
        (Line.of ⟨⟨Uuid.fresh 0⟩, ⟨Uuid.fresh 1⟩⟩ lines)) ∧
      c.jobLog ⟨Uuid.fresh 0⟩ = .ok entries ∧ entries.map LogEntry.message = ["hello"] ∧
      c.outcome? ⟨Uuid.fresh 0⟩ = some o ∧
      EndsAfter ((start {} { workers := 1 } (.memory .empty) (.memory .empty)).surroundingsOf
        ⟨Uuid.fresh 0⟩) (.received (Workflow.perform (.log "hello")).encode)
          (entries.map LogEntry.message) o := by
  have sent : Workflow.decode (Workflow.perform (.log "hello")).encode =
      .ok (.perform (.log "hello")) := by cbv
  have submitted : Performed (start {} { workers := 1 } (.memory .empty) (.memory .empty))
      ⟨⟨Uuid.fresh 0⟩, ⟨Uuid.fresh 1⟩⟩ [] _ := ⟨_, Journals.refl.step
    (rfl : Cluster.after _ (.submit "job" (.perform (.log "hello"))) = some _), rfl⟩
  have run := Run.refl (P := fun b ev => ¬ b.Forks ⟨Uuid.fresh 0⟩ ev)
    ((start {} { workers := 1 } (.memory .empty) (.memory .empty)).submit "job"
      (.perform (.log "hello"))).2
  have begun := submitted.elsewhere
    (rfl : Cluster.after _ (.move (.begin ⟨Uuid.fresh 0⟩)) = some _) (by simp)
  have run := run.step (by rintro ⟨⟩)
    (rfl : Cluster.after _ (.move (.begin ⟨Uuid.fresh 0⟩)) = some _)
  have received := begun.elsewhere (rfl : Cluster.after _ (.move (.receive 0)) = some _) (by simp)
  have run := run.step (by rintro ⟨⟩) (rfl : Cluster.after _ (.move (.receive 0)) = some _)
  have started := received.advance (after_accepted ⟨Uuid.fresh 1⟩ rfl rfl sent) rfl rfl
    (.started rfl sent)
  have run := run.step (by rintro ⟨e, m, kind, ws, stack, ⟨⟩, -, ⟨⟩, -⟩)
    (after_accepted ⟨Uuid.fresh 1⟩ rfl rfl sent)
  have performed := started.advance
    (rfl : Cluster.after _ (.move (.advance ⟨Uuid.fresh 1⟩)) = some _) rfl rfl
    (.steps rfl rfl)
  have run := run.step (by rintro ⟨e, m, kind, ws, stack, ⟨⟩, -, ⟨⟩, -, ⟨⟩⟩)
    (rfl : Cluster.after _ (.move (.advance ⟨Uuid.fresh 1⟩)) = some _)
  have timed := performed.advance
    (rfl : Cluster.after _ (.move (.advance ⟨Uuid.fresh 1⟩)) = some _) rfl rfl
    (.asks rfl rfl)
  have run := run.step (by rintro ⟨e, m, kind, ws, stack, ⟨⟩, -, ⟨⟩, -⟩)
    (rfl : Cluster.after _ (.move (.advance ⟨Uuid.fresh 1⟩)) = some _)
  have appended := timed.advance
    (rfl : Cluster.after _ (.move (.advance ⟨Uuid.fresh 1⟩)) = some _) rfl rfl
    (.asks rfl rfl)
  have run := run.step (by rintro ⟨e, m, kind, ws, stack, ⟨⟩, -, ⟨⟩, -⟩)
    (rfl : Cluster.after _ (.move (.advance ⟨Uuid.fresh 1⟩)) = some _)
  have returned := appended.advance
    (rfl : Cluster.after _ (.move (.advance ⟨Uuid.fresh 1⟩)) = some _) rfl rfl
    (.returned rfl rfl)
  have run := run.step (by rintro ⟨e, m, kind, ws, stack, ⟨⟩, -, ⟨⟩, -⟩)
    (rfl : Cluster.after _ (.move (.advance ⟨Uuid.fresh 1⟩)) = some _)
  have finished := returned.advance
    (rfl : Cluster.after _ (.move (.advance ⟨Uuid.fresh 1⟩)) = some _) rfl rfl
    (.steps rfl rfl)
  have run := run.step (by rintro ⟨e, m, kind, ws, stack, ⟨⟩, -, ⟨⟩, -, ⟨⟩⟩)
    (rfl : Cluster.after _ (.move (.advance ⟨Uuid.fresh 1⟩)) = some _)
  have collected := finished.elsewhere
    (rfl : Cluster.after _ (.move (.collect ⟨Uuid.fresh 1⟩)) = some _) (by simp)
  have run := run.step (by rintro ⟨⟩)
    (rfl : Cluster.after _ (.move (.collect ⟨Uuid.fresh 1⟩)) = some _)
  obtain ⟨j, journals, acts⟩ := collected
  have acts : j ⟨⟨Uuid.fresh 0⟩, ⟨Uuid.fresh 1⟩⟩ = [⟨.log "hello", true⟩] := acts
  obtain ⟨⟨lines, all⟩, ordered⟩ := logs_in_order journals (by decide)
  obtain ⟨entries, log, -, ends⟩ := @ordered
    (start {} { workers := 1 } (.memory .empty) (.memory .empty)) "job"
    (.perform (.log "hello")) (.refl _) run
  have entry : entries.map LogEntry.message = ["hello"] := by
    cases log
    rfl
  exact ⟨_, j, entries, _, journals, acts, ⟨lines, acts ▸ (all _).2 ⟨Uuid.fresh 1⟩⟩, log, entry,
    rfl, ends _ rfl⟩

end Runs

end Cluster

end WorkflowEngine
