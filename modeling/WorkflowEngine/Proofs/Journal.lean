import WorkflowEngine.Proofs.Appends
import WorkflowEngine.Proofs.Transitions
import Mathlib.Data.List.ModifyLast
/-!
Journals of what evaluations perform, beside the logs that their operations write. What is logged
by an evaluation are the messages that it has performed, in the same order; only the last one may
be missing as long as its operation has not returned.
-/
set_option autoImplicit false

namespace WorkflowEngine

/-- An evaluation of a job. -/
structure Speaker where
  job : JobId
  evaluation : EvaluationId
  deriving DecidableEq

/-- An operation that an evaluation has performed, and whether it has returned a value. -/
structure Act where
  operation : Operation
  returned : Bool

/-- The messages that acts log, in their order. -/
def Act.messages (acts : List Act) : List String := acts.filterMap fun a => a.operation.message?

/-- A message in a log with the evaluation that it comes from. -/
structure Line where
  speaker : Speaker
  message : String

/-- The messages of one evaluation. -/
def Line.of (a : Speaker) (lines : List Line) : List String :=
  (lines.filter fun line => decide (line.speaker = a)).map Line.message

/-- The messages of all evaluations of a job. -/
def Line.ofJob (job : JobId) (lines : List Line) : List String :=
  (lines.filter fun line => decide (line.speaker.job = job)).map Line.message

/-- Whether lines are the messages of acts. An act that has not returned may be missing, the last
one. -/
def Act.Logged (acts : List Act) (lines : List String) : Prop :=
  ∃ before pending, acts = before ++ pending ∧ lines = messages before ∧ pending.length ≤ 1 ∧
    ∀ a ∈ pending, a.returned = false

/-- What every evaluation has performed, in its order. -/
abbrev Journal := Speaker → List Act

def Journal.empty : Journal := fun _ => []

def Effect.isValue : Effect → Bool
  | .immediate (.ok _) => true
  | _ => false

namespace Cluster

/-- The acts of an evaluation after a turn, by the phase in which it was. -/
def Turn.record (s : Surroundings) (phase : Phase) (acts : List Act) : Turn → List Act
  | .step m =>
    match m.step s.registry with
    | .operate op _ => acts ++ [⟨op, (op.effect s).isValue⟩]
    | _ => acts
  | .resume _ (.ok _) =>
    match phase with
    | .operating _ _ _ => acts.modifyLast fun a => { a with returned := true }
    | _ => acts
  | _ => acts

theorem Turn.record_fork {s : Surroundings} {m : Machine} {kind : ForkKind}
    {children : List Workflow} {stack : List Frame}
    (forks : m.step s.registry = .fork kind children stack) (phase : Phase) (acts : List Act) :
    (Turn.step m).record s phase acts = acts := by
  simp only [Turn.record, forks]

/-- The journal after an event. -/
def record (c : Cluster) (j : Journal) : Event → Journal
  | .move (.advance id) =>
    match c.evaluations.get? id with
    | none => j
    | some e =>
      match turn c.scopes e with
      | none => j
      | some t =>
        Function.update j ⟨e.job, id⟩ (t.record (c.surroundings e) e.phase (j ⟨e.job, id⟩))
  | _ => j

/-- The states of runs with the journals of what was performed on the way. -/
inductive Journals (a : Cluster) : Cluster → Journal → Prop
  | refl : Journals a a .empty
  | step {b c : Cluster} {j : Journal} {ev : Event} (run : Journals a b j)
      (next : b.after ev = some c) : Journals a c (b.record j ev)

theorem Reaches.journals {a b : Cluster} (run : Reaches a b) : ∃ j, Journals a b j := by
  induction run with
  | refl => exact ⟨_, .refl⟩
  | step _ _ next ih =>
    obtain ⟨j, run⟩ := ih
    exact ⟨_, run.step next⟩

theorem Journals.reaches {a b : Cluster} {j : Journal} (run : Journals a b j) : Reaches a b := by
  induction run with
  | refl => exact .refl a
  | step _ next ih => exact .step ih trivial next

end Cluster

/-! ## What the phases of an evaluation tell of its log -/

@[simp] def Phase.Operates : Phase → Prop
  | .operating _ _ _ => True
  | _ => False

/-- How the lines of an evaluation of a job go with its acts. The message of an operation is logged
while it is performed, and may be missing when the evaluation is cancelled in the meantime. -/
inductive Phase.Tells (job : JobId) (cancelled : Bool) (acts : List Act) (lines : List String) :
    Phase → Prop
  | idle {phase : Phase} (idle : ¬ phase.Operates) (all : lines = Act.messages acts) :
      Tells job cancelled acts lines phase
  | silent {p : Program (Reply Value)} {due : Option Nat} {stack : List Frame} {before : List Act}
      {op : Operation} (last : acts = before ++ [⟨op, false⟩]) (all : lines = Act.messages acts)
      (silent : p.Silent) : Tells job cancelled acts lines (.operating p due stack)
  | telling {p : Program (Reply Value)} {due : Option Nat} {stack : List Frame}
      {before : List Act} {op : Operation} {message : String}
      (last : acts = before ++ [⟨op, false⟩]) (logs : op.message? = some message)
      (rest : lines = Act.messages before) (delivers : p.Delivers job message) :
      Tells job cancelled acts lines (.operating p due stack)
  | ceased {phase : Phase} {before : List Act} {op : Operation}
      (stops : (∃ m, phase = .running m ∧ cancelled = true) ∨ ∃ r, phase = .responded r)
      (last : acts = before ++ [⟨op, false⟩]) (rest : lines = Act.messages before) :
      Tells job cancelled acts lines phase

namespace Act

variable {acts : List Act} {lines : List String}

theorem messages_silent {op : Operation} (silent : op.message? = none) (returned : Bool)
    (before : List Act) : messages (before ++ [⟨op, returned⟩]) = messages before := by
  simp [messages, silent]

theorem messages_telling {op : Operation} {message : String} (logs : op.message? = some message)
    (returned : Bool) (before : List Act) :
    messages (before ++ [⟨op, returned⟩]) = messages before ++ [message] := by
  simp [messages, logs]

theorem messages_last (op : Operation) (before : List Act) :
    messages (before ++ [⟨op, true⟩]) = messages (before ++ [⟨op, false⟩]) := by
  cases logs : op.message? <;> simp [messages, logs]

theorem logged_all (all : lines = messages acts) : Logged acts lines :=
  ⟨acts, [], by simp, all, by simp, by simp⟩

theorem logged_rest {before : List Act} {op : Operation}
    (last : acts = before ++ [⟨op, false⟩]) (rest : lines = messages before) :
    Logged acts lines :=
  ⟨before, [⟨op, false⟩], last, rest, by simp, by simp⟩

end Act

namespace Phase.Tells

variable {job : JobId} {cancelled cancelled' : Bool} {acts : List Act} {lines : List String}
  {phase : Phase} {p : Program (Reply Value)} {due : Option Nat} {stack : List Frame}

theorem logged (h : phase.Tells job cancelled acts lines) : Act.Logged acts lines := by
  cases h with
  | idle _ all => exact Act.logged_all all
  | silent _ all => exact Act.logged_all all
  | telling last _ rest => exact Act.logged_rest last rest
  | ceased _ last rest => exact Act.logged_rest last rest

theorem mono (h : phase.Tells job cancelled acts lines)
    (stays : cancelled = true → cancelled' = true) : phase.Tells job cancelled' acts lines := by
  cases h with
  | idle idle all => exact .idle idle all
  | silent last all silent => exact .silent last all silent
  | telling last logs rest delivers => exact .telling last logs rest delivers
  | ceased stops last rest =>
    refine .ceased (stops.imp_left ?_) last rest
    rintro ⟨m, running, hc⟩
    exact ⟨m, running, stays hc⟩

/-- Nothing is missing unless the evaluation performs an operation or has stopped. -/
theorem complete (h : phase.Tells job cancelled acts lines) (idle : ¬ phase.Operates)
    (runs : ∀ m, phase = .running m → cancelled = false) (silent : ∀ r, phase ≠ .responded r) :
    lines = Act.messages acts := by
  cases h with
  | idle _ all => exact all
  | silent | telling => exact absurd trivial idle
  | ceased stops =>
    rcases stops with ⟨m, running, hc⟩ | ⟨r, responded⟩
    · rw [runs m running] at hc
      cases hc
    · exact absurd responded (silent r)

/-- A program that has come to its end has delivered its message. -/
theorem ends {r : Reply Value} (h : (Phase.operating (.done r) due stack).Tells job cancelled acts
    lines) : ∃ before op, acts = before ++ [⟨op, false⟩] ∧ lines = Act.messages acts := by
  cases h with
  | idle idle => exact absurd trivial idle
  | silent last all => exact ⟨_, _, last, all⟩
  | telling last logs rest delivers => cases delivers
  | ceased stops => simp at stops

/-- An operation is interrupted. -/
theorem interrupted (h : (Phase.operating p due stack).Tells job true acts lines) (m : Machine) :
    (Phase.running m).Tells job true acts lines := by
  cases h with
  | idle idle => exact absurd trivial idle
  | silent last all => exact .idle (by simp) all
  | telling last logs rest => exact .ceased (.inl ⟨m, rfl, rfl⟩) last rest
  | ceased stops => simp at stops

/-- A request is answered that appends nothing. -/
theorem answered {r : Request} {next : r.Answer → Program (Reply Value)} {due' : Option Nat}
    (h : (Phase.operating (.ask r next) due stack).Tells job cancelled acts lines)
    (quiet : ∀ entry limit, r ≠ .append entry limit) (answer : r.Answer) :
    (Phase.operating (next answer) due' stack).Tells job cancelled acts lines := by
  cases h with
  | idle idle => exact absurd trivial idle
  | silent last all silent => exact .silent last all (silent.2 answer)
  | telling last logs rest delivers =>
    cases delivers with
    | clock delivers => exact .telling last logs rest (delivers answer)
    | entry => exact absurd rfl (quiet _ _)
  | ceased stops => simp at stops

/-- The pause of an operation is fixed. -/
theorem paused {due' : Option Nat}
    (h : (Phase.operating p due stack).Tells job cancelled acts lines) :
    (Phase.operating p due' stack).Tells job cancelled acts lines := by
  cases h with
  | idle idle => exact absurd trivial idle
  | silent last all silent => exact .silent last all silent
  | telling last logs rest delivers => exact .telling last logs rest delivers
  | ceased stops => simp at stops

/-- What an append of an evaluation is: its message, for its own job. -/
theorem appends {entry : LogEntry} {limit : Nat} {next : Bool → Program (Reply Value)}
    (h : (Phase.operating (.ask (.append entry limit) next) due stack).Tells job cancelled acts
      lines) :
    entry.job = job ∧
      (Phase.operating (next true) none stack).Tells job cancelled acts
        (lines ++ [entry.message]) := by
  cases h with
  | idle idle => exact absurd trivial idle
  | silent last all silent => exact silent.1.elim
  | telling last logs rest delivers =>
    cases delivers with
    | entry own same ends =>
      refine ⟨own, ?_⟩
      rw [ends]
      refine .silent last ?_ trivial
      rw [last, rest, same, Act.messages_telling logs]
  | ceased stops => simp at stops

/-- A step of the machine of an evaluation that is not cancelled. -/
theorem machine {m : Machine} {s : Surroundings} (all : lines = Act.messages acts)
    (leads : (Cluster.Turn.step m).Leads s phase) :
    phase.Tells s.job cancelled ((Cluster.Turn.step m).record s (.running m) acts) lines := by
  cases leads with
  | next h | finished h | aborted h | childless h =>
    simp only [Cluster.Turn.record, h]
    exact .idle (by simp) all
  | @immediate _ op stack r h he =>
    simp only [Cluster.Turn.record, h]
    refine .idle (by simp) ?_
    cases logs : op.message? with
    | none => rw [Act.messages_silent logs, all]
    | some message =>
      rw [Operation.effect_of_message logs] at he
      cases he
  | @guarded _ op stack p h he =>
    simp only [Cluster.Turn.record, h, he, Effect.isValue]
    cases logs : op.message? with
    | none =>
      refine .silent rfl ?_ ((Operation.quiet_effect s logs).silent he)
      rw [Act.messages_silent logs, all]
    | some message =>
      rw [Operation.effect_of_message logs] at he
      exact .telling rfl logs all (Effect.delivers_ofMessage he)

/-- A turn of an evaluation that appends nothing leaves its lines as they are. -/
theorem turn {scopes : ScopeTree} {e : Evaluation} {s : Surroundings} {t : Cluster.Turn}
    (h : e.phase.Tells s.job (scopes.isCancelled e.scope) acts lines)
    (turn : t.Follows scopes e) (leads : t.Leads s phase)
    (quiet : ∀ entry limit next due stack, t ≠ .ask (.append entry limit) next due stack) :
    phase.Tells s.job (scopes.isCancelled e.scope) (t.record s e.phase acts) lines := by
  cases turn with
  | started accepted decoded =>
    cases leads
    rw [accepted] at h
    exact .idle (by simp) (h.complete (by simp) (by simp) (by simp))
  | undecoded accepted decoded =>
    cases leads
    rw [accepted] at h
    exact .idle (by simp) (h.complete (by simp) (by simp) (by simp))
  | stopped running cancelled =>
    cases leads
    rw [running] at h
    cases h with
    | idle _ all => exact .idle (by simp) all
    | ceased _ last rest => exact .ceased (.inr ⟨_, rfl⟩) last rest
  | @steps m running free =>
    rw [running] at h ⊢
    rw [free] at h ⊢
    exact machine (h.complete (by simp) (by simp) (by simp)) leads
  | interrupted operating cancelled =>
    cases leads
    rw [operating, cancelled] at h
    rw [cancelled]
    exact h.interrupted _
  | returned operating free =>
    cases leads
    rw [operating] at h ⊢
    obtain ⟨before, op, rfl, all⟩ := h.ends
    refine .idle (by simp) ?_
    simp only [Cluster.Turn.record, List.modifyLast_concat]
    rw [all, Act.messages_last]
  | failed operating free =>
    cases leads
    rw [operating] at h
    obtain ⟨before, op, -, all⟩ := h.ends
    exact .idle (by simp) all
  | aborted operating free =>
    cases leads
    rw [operating] at h
    obtain ⟨before, op, -, all⟩ := h.ends
    exact .idle (by simp) all
  | asks operating free =>
    rw [operating] at h
    cases leads with
    | paused => exact h.paused
    | answered answer =>
      refine h.answered (fun entry limit same => ?_) answer
      subst same
      exact quiet _ _ _ _ _ rfl
  | places joining waiting => cases leads
  | @joined f stack joining placed arrived =>
    cases leads
    rw [joining] at h ⊢
    have all := h.complete (by simp) (by simp) (by simp)
    refine .idle (by simp) (all.trans ?_)
    unfold Cluster.Turn.record
    split <;> simp_all

end Phase.Tells

namespace Outline

variable {o o' : Outline}

/-- How an evaluation has come about when something else has happened than a turn of its own. -/
inductive Bystander (o : Outline) (id : EvaluationId) (e' : Evaluation) : Prop
  | rests (live : o.evaluations.get? id = some e')
  | received {e : Evaluation} {payload : String} (live : o.evaluations.get? id = some e)
      (queued : e.phase = .queued) (same : e' = { e with phase := .accepted payload })
  | dropped {e : Evaluation} {f : TransportError} (live : o.evaluations.get? id = some e)
      (queued : e.phase = .queued) (same : e' = { e with phase := .responded (.failed f) })
  | arrived {e : Evaluation} {f f' : Fork} {stack : List Frame}
      (live : o.evaluations.get? id = some e) (joining : e.phase = .joining f stack)
      (same : e' = { e with phase := .joining f' stack })
  | begun {w : Workflow} {scope : Scope} (new : id = ⟨o.newId⟩)
      (thread : o.threads.get? e'.job = some (.submitted w scope)) (root : e'.parent = none)
      (sent : e'.phase = .queued ∨ ∃ f, e'.phase = .responded (.failed f))
  | placed {above : EvaluationId} {e : Evaluation} {f : Fork} {stack : List Frame}
      (new : id = ⟨o.newId⟩) (live : o.evaluations.get? above = some e) (own : e'.job = e.job)
      (joining : e.phase = .joining f stack)
      (sent : e'.phase = .queued ∨ ∃ f, e'.phase = .responded (.failed f))

theorem Step.bystander {ev : Event} (s : o.Step ev o') (hc : o.Consistent) {id : EvaluationId}
    {e' : Evaluation} (live' : o'.evaluations.get? id = some e')
    (other : ev ≠ .move (.advance id)) : o.Bystander id e' := by
  cases s with
  | begin thread sent =>
    rcases sent.cases (hc.toMailed.frame rfl rfl rfl fun h => h) live' with live |
      ⟨new, p, phase, rfl, rfl | ⟨f, rfl, -⟩⟩
    · exact .rests live
    · exact .begun new thread rfl (.inl rfl)
    · exact .begun new thread rfl (.inr ⟨f, rfl⟩)
  | @receive i post d rest e at_slot inbox live =>
    have queued := hc.queued_of_mem at_slot (by simp [inbox]) live
    rw [Table.get?_insert] at live'
    split at live'
    · next hid =>
      subst hid
      cases live'
      exact .received live queued rfl
    · exact .rests live'
  | close at_slot stopped =>
    rw [get?_dropAll] at live'
    split at live'
    · next hm =>
      obtain ⟨e, live, rfl⟩ := Option.map_eq_some_iff.1 live'
      have queued := hc.queued_of_mem at_slot hm live
      exact .dropped live queued rfl
    · exact .rests live'
  | @shift id' | @fork id' =>
    have hid : id' ≠ id := fun hid => other (hid ▸ rfl)
    rw [Table.get?_insert, if_neg hid] at live'
    exact .rests live'
  | @place id' e f w rest stack _ live joining waiting sent =>
    have hid : id' ≠ id := fun hid => other (hid ▸ rfl)
    rcases sent.cases (hc.toMailed.places live joining rest) live' with before |
      ⟨new, p, phase, rfl, rfl | ⟨f, rfl, -⟩⟩
    · rw [Table.get?_insert, if_neg hid] at before
      exact .rests before
    · exact .placed new live rfl joining (.inl rfl)
    · exact .placed new live rfl joining (.inr ⟨f, rfl⟩)
  | collectRoot now live responded root known =>
    rw [Table.get?_erase] at live'
    split at live'
    · cases live'
    · exact .rests live'
  | collectChild now live responded child above joining =>
    rw [Table.get?_insert] at live'
    split at live'
    · next hid =>
      subst hid
      cases live'
      exact .arrived above joining rfl
    · rw [Table.get?_erase] at live'
      split at live'
      · cases live'
      · exact .rests live'
  | _ => exact .rests live'

/-- What an evaluation does itself, other than to append an entry, leaves its lines as they are. -/
theorem Step.tells {id : EvaluationId} {e : Evaluation} {t : Cluster.Turn} {acts : List Act}
    {lines : List String} (s : o.Step (.move (.advance id)) o')
    (fresh : o.evaluations.get? ⟨o.newId⟩ = none) (live : o.evaluations.get? id = some e)
    (ht : Cluster.turn o.scopes e = some t)
    (h : e.phase.Tells e.job (o.scopes.isCancelled e.scope) acts lines)
    (quiet : ∀ entry limit next due stack, t ≠ .ask (.append entry limit) next due stack) :
    ∃ e', o'.evaluations.get? id = some e' ∧ e'.job = e.job ∧ e'.scope = e.scope ∧
      e'.phase.Tells e.job (o.scopes.isCancelled e.scope)
        (t.record (o.surroundings e) e.phase acts) lines := by
  cases s with
  | @shift _ e₀ t₀ steps n phase live₀ turn leads later =>
    cases live₀.symm.trans live
    cases (Cluster.turn_of_follows turn).symm.trans ht
    exact ⟨_, (Table.get?_insert _ _ _ _).trans (if_pos rfl), rfl, rfl, h.turn turn leads quiet⟩
  | @fork _ e₀ m kind first rest stack steps live₀ running free forks =>
    cases live₀.symm.trans live
    cases (Cluster.turn_of_follows (.steps running free)).symm.trans ht
    refine ⟨_, (Table.get?_insert _ _ _ _).trans (if_pos rfl), rfl, rfl, ?_⟩
    rw [running, free] at h
    have same : (Cluster.Turn.step m).record (o.surroundings e) e.phase acts = acts :=
      Cluster.Turn.record_fork forks _ _
    rw [same]
    exact .idle (by simp) (h.complete (by simp) (by simp) (by simp))
  | @place _ e₀ f w rest stack _ live₀ joining waiting sent =>
    cases live₀.symm.trans live
    cases (Cluster.turn_of_follows (.places joining waiting)).symm.trans ht
    obtain ⟨p, phase, hget, -⟩ := sent.get?
    have hid : ⟨o.newId⟩ ≠ id := by
      rintro rfl
      cases live.symm.trans fresh
    rw [joining] at h
    refine ⟨_, (hget id).trans ((if_neg hid).trans
      ((Table.get?_insert _ _ _ _).trans (if_pos rfl))), rfl, rfl, ?_⟩
    exact .idle (by simp) (h.complete (by simp) (by simp) (by simp))

end Outline

namespace Line

theorem of_append (a : Speaker) (lines more : List Line) :
    Line.of a (lines ++ more) = Line.of a lines ++ Line.of a more := by
  simp [Line.of]

theorem ofJob_append (job : JobId) (lines more : List Line) :
    ofJob job (lines ++ more) = ofJob job lines ++ ofJob job more := by
  simp [ofJob]

/-- A job for which nobody has logged anything has an empty log. -/
theorem ofJob_eq_nil {job : JobId} {lines : List Line}
    (mute : ∀ a : Speaker, a.job = job → Line.of a lines = []) : ofJob job lines = [] := by
  refine List.map_eq_nil_iff.2 (List.filter_eq_nil_iff.2 fun line mem own => ?_)
  have none := List.filter_eq_nil_iff.1
    (List.map_eq_nil_iff.1 (mute line.speaker (of_decide_eq_true own)))
  exact none line mem (decide_eq_true rfl)

end Line

namespace Cluster

/-- The lines in the logs of a state, which has a journal. -/
structure Heard (c : Cluster) (j : Journal) (lines : List Line) : Prop where
  stream : ∃ log, c.sink = .memory log ∧
    ∀ job, (log.read job).map LogEntry.message = Line.ofJob job lines
  logged : ∀ a, Act.Logged (j a) (Line.of a lines)
  new : ∀ a : Speaker, ¬ (c.outline.Known a.job.uuid ∧ c.outline.Known a.evaluation.uuid) →
    j a = [] ∧ Line.of a lines = []
  tells : ∀ {id e}, c.evaluations.get? id = some e →
    e.phase.Tells e.job (c.scopes.isCancelled e.scope) (j ⟨e.job, id⟩) (Line.of ⟨e.job, id⟩ lines)

namespace Heard

variable {c c' : Cluster} {j : Journal} {lines : List Line} {ev : Event} {id : EvaluationId}
  {e e' : Evaluation}

theorem record_advance {t : Turn} (live : c.evaluations.get? id = some e)
    (ht : turn c.scopes e = some t) : c.record j (.move (.advance id)) =
      Function.update j ⟨e.job, id⟩ (t.record (c.surroundings e) e.phase (j ⟨e.job, id⟩)) := by
  simp only [record, live, ht]

theorem record_elsewhere (other : ∀ id, ev ≠ .move (.advance id)) : c.record j ev = j := by
  unfold record
  split
  · exact absurd rfl (other _)
  · rfl

theorem tells_bystander (h : c.Heard j lines) (hc : c.outline.Consistent)
    (hn : c.nextId < Uuid.supply) (s : c.outline.Step ev c'.outline)
    (other : ev ≠ .move (.advance id)) (live' : c'.evaluations.get? id = some e') :
    e'.phase.Tells e'.job (c'.scopes.isCancelled e'.scope) (j ⟨e'.job, id⟩)
      (Line.of ⟨e'.job, id⟩ lines) := by
  have new : ∀ job, j ⟨job, ⟨c.outline.newId⟩⟩ = [] ∧
      Line.of ⟨job, ⟨c.outline.newId⟩⟩ lines = [] := fun job =>
    h.new ⟨job, ⟨c.outline.newId⟩⟩ fun known => known.2.ne_newId hn rfl
  cases s.bystander hc live' other with
  | rests live => exact (h.tells live).mono s.isCancelled
  | @received e _ live queued same =>
    subst same
    have tells := queued ▸ h.tells live
    exact .idle (by simp) (tells.complete (by simp) (by simp) (by simp))
  | @dropped e _ live queued same =>
    subst same
    have tells := queued ▸ h.tells live
    exact .idle (by simp) (tells.complete (by simp) (by simp) (by simp))
  | @arrived e f f' stack live joining same =>
    subst same
    have tells := joining ▸ h.tells live
    exact .idle (by simp) (tells.complete (by simp) (by simp) (by simp))
  | begun hid thread root sent =>
    rw [hid, (new e'.job).1, (new e'.job).2]
    exact .idle (by rcases sent with hp | ⟨f, hp⟩ <;> simp [hp]) rfl
  | placed hid live own joining sent =>
    rw [hid, (new e'.job).1, (new e'.job).2]
    exact .idle (by rcases sent with hp | ⟨f, hp⟩ <;> simp [hp]) rfl

/-- Events other than turns of evaluations leave logs and journals as they are. -/
theorem elsewhere (h : c.Heard j lines) (hc : c.outline.Consistent) (hn : c.nextId < Uuid.supply)
    (other : ∀ id, ev ≠ .move (.advance id)) (next : c.after ev = some c') :
    c'.Heard j lines where
  stream := by
    rw [sink_after _ next]
    · exact h.stream
    · cases ev with
      | move m =>
        cases m with
        | advance id => exact absurd rfl (other id)
        | begin | receive | close | collect => exact id
      | submit | cancel | forget | shutdown | elapse | arrange => exact id
  logged := h.logged
  new := fun a unknown => h.new a fun known =>
    unknown ⟨known.1.mono (nextId_after next), known.2.mono (nextId_after next)⟩
  tells := fun live' => h.tells_bystander hc hn (step_of_after hc next) (other _) live'

/-- A turn of an evaluation that appends nothing. -/
theorem advance (h : c.Heard j lines) (hc : c.outline.Consistent) (hn : c.nextId < Uuid.supply)
    (quiet : ¬ c.Appends (.move (.advance id))) (next : c.after (.move (.advance id)) = some c') :
    c'.Heard (c.record j (.move (.advance id))) lines := by
  have s := step_of_after hc next
  obtain ⟨e, t, live, ht, -⟩ := advance_cases next
  obtain ⟨e', live', hjob, hscope, tells⟩ := s.tells (hc.fresh hn) live ht (h.tells live)
    fun entry limit next due stack same =>
      quiet ⟨e, entry, limit, next, due, stack, live, same ▸ ht⟩
  rw [record_advance live ht]
  refine
    { stream := sink_after quiet next ▸ h.stream
      logged := fun a => ?_
      new := fun a unknown => ?_
      tells := fun {id₁ e₁} live₁ => ?_ }
  · by_cases ha : a = ⟨e.job, id⟩
    · subst ha
      rw [Function.update_self]
      exact tells.logged
    · rw [Function.update_of_ne ha]
      exact h.logged a
  · have before : ¬ (c.outline.Known a.job.uuid ∧ c.outline.Known a.evaluation.uuid) :=
      fun known => unknown ⟨known.1.mono s.nextId_le, known.2.mono s.nextId_le⟩
    rw [Function.update_of_ne]
    · exact h.new a before
    · rintro rfl
      exact before ⟨hc.thread_known (hc.thread_of_evaluation live), hc.evaluation_known live⟩
  · by_cases hid : id₁ = id
    · subst hid
      cases live'.symm.trans live₁
      rw [hjob, hscope, Function.update_self]
      exact tells.mono s.isCancelled
    · rw [Function.update_of_ne]
      · refine h.tells_bystander hc hn s (fun same => hid ?_) live₁
        exact (Move.advance.inj (Event.move.inj same)).symm
      · exact fun same => hid (congrArg Speaker.evaluation same)

/-- An evaluation appends an entry, which is the next line in the log of its job. -/
theorem append (h : c.Heard j lines) (hc : c.outline.Consistent) (hn : c.nextId < Uuid.supply)
    (appends : c.Appends (.move (.advance id))) (next : c.after (.move (.advance id)) = some c') :
    ∃ line, c'.Heard (c.record j (.move (.advance id))) (lines ++ [line]) := by
  have s := step_of_after hc next
  obtain ⟨e, entry, limit, next', due, stack, live, ht⟩ := appends
  obtain ⟨log, hsink, stream⟩ := h.stream
  have recorded : c.record j (.move (.advance id)) = j :=
    (record_advance live ht).trans (Function.update_eq_self _ _)
  have after := after_append live ht next
  rw [hsink] at after
  have operating : e.phase = .operating (.ask (.append entry limit) next') due stack := by
    cases follows_of_turn ht
    assumption
  obtain ⟨own, tells⟩ := (operating ▸ h.tells live).appends
  have hof : ∀ a, Line.of a (lines ++ [⟨⟨e.job, id⟩, entry.message⟩]) =
      Line.of a lines ++ if ⟨e.job, id⟩ = a then [entry.message] else [] := by
    intro a
    rw [Line.of_append]
    congr 1
    by_cases ha : ⟨e.job, id⟩ = a <;> simp [Line.of, ha]
  have hself := hof ⟨e.job, id⟩
  rw [if_pos rfl] at hself
  rw [recorded]
  refine ⟨⟨⟨e.job, id⟩, entry.message⟩, ⟨log.append entry, by rw [after]; rfl, fun job => ?_⟩,
    fun a => ?_, fun a unknown => ?_, fun {id₁ e₁} live₁ => ?_⟩
  · rw [MemoryLog.read_append, Line.ofJob_append, ← stream, own]
    by_cases hjob : e.job = job <;> simp [Line.ofJob, hjob]
  · by_cases ha : ⟨e.job, id⟩ = a
    · rw [← ha, hself]
      exact tells.logged
    · rw [hof, if_neg ha, List.append_nil]
      exact h.logged a
  · have before : ¬ (c.outline.Known a.job.uuid ∧ c.outline.Known a.evaluation.uuid) :=
      fun known => unknown ⟨known.1.mono s.nextId_le, known.2.mono s.nextId_le⟩
    rw [hof, if_neg, List.append_nil]
    · exact h.new a before
    · rintro rfl
      exact before ⟨hc.thread_known (hc.thread_of_evaluation live), hc.evaluation_known live⟩
  · by_cases hid : id₁ = id
    · subst hid
      have live' := get?_setPhase { c with sink := .memory (log.append entry) } id₁ e
        (.operating (next' true) none stack)
      rw [after] at live₁
      cases live'.symm.trans live₁
      rw [hself]
      exact tells.mono s.isCancelled
    · rw [hof, if_neg, List.append_nil]
      · refine h.tells_bystander hc hn s (fun same => hid ?_) live₁
        exact (Move.advance.inj (Event.move.inj same)).symm
      · exact fun same => hid (congrArg Speaker.evaluation same).symm

/-- Every event keeps logs and journals in step. -/
theorem step (h : c.Heard j lines) (hc : c.outline.Consistent) (hn : c.nextId < Uuid.supply)
    (next : c.after ev = some c') : ∃ lines', c'.Heard (c.record j ev) lines' := by
  by_cases turn : ∃ id, ev = .move (.advance id)
  · obtain ⟨id, rfl⟩ := turn
    by_cases appends : c.Appends (.move (.advance id))
    · obtain ⟨line, heard⟩ := h.append hc hn appends next
      exact ⟨_, heard⟩
    · exact ⟨lines, h.advance hc hn appends next⟩
  · have other : ∀ id, ev ≠ .move (.advance id) := fun id same => turn ⟨id, same⟩
    rw [record_elsewhere other]
    exact ⟨lines, h.elsewhere hc hn other next⟩

theorem start (registry : Registry) (config : EngineConfig) (backend : Backend) :
    (start registry config backend (.memory .empty)).Heard (fun _ => []) [] where
  stream := ⟨.empty, rfl, fun _ => rfl⟩
  logged _ := Act.logged_all rfl
  new _ _ := ⟨rfl, rfl⟩
  tells live := nomatch live

end Heard

/-- In every state that an engine comes to, its logs are in step with the journal. -/
theorem Journals.heard {registry : Registry} {config : EngineConfig} {backend : Backend}
    {c : Cluster} {j : Journal}
    (run : Journals (Cluster.start registry config backend (.memory .empty)) c j)
    (ids : c.nextId < Uuid.supply) : ∃ lines, c.Heard j lines := by
  induction run with
  | refl => exact ⟨[], Heard.start registry config backend⟩
  | @step b c j ev run next ih =>
    have ids' := Nat.lt_of_le_of_lt (nextId_after next) ids
    have hc := run.reaches.consistent (consistent_start _ _ _ _) ids'
    obtain ⟨lines, heard⟩ := ih ids'
    exact heard.step hc ids' next

end Cluster

end WorkflowEngine
