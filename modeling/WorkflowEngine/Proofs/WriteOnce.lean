import WorkflowEngine.Proofs.OneWriter
/-!
Cells are written once. What a crew knows of a name is an invariant of its steps, whoever makes
them, and only ever grows.
-/
set_option autoImplicit false

namespace WorkflowEngine

namespace Crew

variable {ω : Type} {s : DataSettings} {name : String} {c c' : Crew ω} {won won' : Winner}
  {known : Nat → Winner}

/-- What a crew knows of a name: `won` has written its entry, `known i` had when `i` was called. -/
structure Knows (s : DataSettings) (name : String) (won : Winner) (known : Nat → Winner)
    (c : Crew ω) : Prop where
  entry : c.backend.entry (s.key name) = .ok won.entry
  cached : ∀ {w data}, (c.caches w).get? (s.key name) = some data → won.Wrote data
  creator : ∀ {i v}, won = some (i, v) → ∃ call, .called i call ∈ c.history ∧
    call.own name = some v
  running : ∀ {i w p}, c.running i = some (w, p) → ∃ call, .called i call ∈ c.history ∧
    p.Keeps (s.key name) i (call.own name)
      (fun won' answer => call.Expects s name i (known i) won' answer) won
  answered : ∀ {i answer}, .answered i answer ∈ c.history → ∃ call, .called i call ∈ c.history ∧
    call.Expects s name i (known i) won answer

/-- The atoms that a crew has made are apart from all that has a name. -/
theorem Faithful.apart (h : c.Faithful s) {j : Nat} {a : Atom}
    (mem : .answered j (.atom a) ∈ c.history) (name : String) :
    a.key.text ≠ (s.key name).text := by
  obtain ⟨call, -, gives⟩ := h.answered mem
  cases call with
  | atomNew v =>
    obtain ⟨b, created, heq⟩ := DataAnswer.gives_ofStore gives fun _ => DataAnswer.noConfusion
    obtain rfl : a = b := DataAnswer.atom.inj heq
    exact s.text_key_ne name (Atom.gives_create created)
  | cellNew v given =>
    cases given with
    | none | some =>
      obtain ⟨_, -, heq⟩ := DataAnswer.gives_ofStore gives fun _ => DataAnswer.noConfusion
      cases heq
  | cellParse | cellValue | sequenceParse =>
    obtain ⟨_, -, heq⟩ := DataAnswer.gives_ofStore gives fun _ => DataAnswer.noConfusion
    cases heq
  | atom b use =>
    obtain ⟨r, -, hr⟩ := Program.gives_bind.1 gives
    exact nomatch Program.gives_pure.1 hr

theorem knows_start {b : Backend} (blank : b = .memory .empty ∨ b = .packed .empty) :
    (start b : Crew ω).Knows s name none fun _ => none where
  entry := by rcases blank with rfl | rfl <;> rfl
  cached h := nomatch h
  creator h := nomatch h
  running h := nomatch h
  answered h := nomatch h

theorem exists_replies (c : Crew ω) (w : ω) (r : Request) : ∃ answer, c.Replies w r answer := by
  cases r with
  | store command => exact ⟨_, rfl⟩
  | cached key => exact ⟨_, rfl⟩
  | remember | freshId | now | pause | append => exact ⟨Request.refused _, trivial⟩

theorem shows_of_replies {w : ω} {r : Request} {answer : r.Answer}
    (h : c.Knows s name won known) (replies : c.Replies w r answer) :
    r.Shows (s.key name) won answer := by
  cases r with
  | store command =>
    intro hk
    obtain rfl : answer = (c.backend.run command).1 := replies
    have entry : c.backend.entry command.key = .ok won.entry := hk ▸ h.entry
    exact (Backend.run_act entry).1
  | cached k =>
    intro hk data found
    obtain rfl : answer = (c.caches w).get? k := replies
    exact h.cached (hk ▸ found)
  | remember | freshId | now | pause | append => trivial

/-! ## What callers see -/

/-- Cells and sequences that are found by a name, and cells that are made under it, are those of the
name, which are apart from all atoms. -/
structure Named (s : DataSettings) (c : Crew ω) : Prop where
  apart : ∀ {j a} (name : String), .answered j (.atom a) ∈ c.history →
    a.key.text ≠ (s.key name).text
  parsed : ∀ {i name k}, .called i (.cellParse name) ∈ c.history →
    .answered i (.cell k) ∈ c.history → k = ⟨s.key name⟩
  resolved : ∀ {i name q}, .called i (.sequenceParse name) ∈ c.history →
    .answered i (.sequence q) ∈ c.history → q.key = s.key name
  made : ∀ {i v name k}, .called i (.cellNew v (some name)) ∈ c.history →
    .answered i (.cell k) ∈ c.history → k = ⟨s.key name⟩
  unnamed : ∀ {i v k}, .called i (.cellNew v none) ∈ c.history →
    .answered i (.cell k) ∈ c.history → ∃ u : Uuid, k = ⟨s.key u.text⟩

/-- Nothing is written under a name: no call that was to make a cell of the name has come back, and
all that has looked for it has found nothing. -/
structure Unwritten (s : DataSettings) (name : String) (c : Crew ω) : Prop where
  absent : c.backend.entry (s.key name) = .ok none
  created : ∀ {i v answer}, .called i (.cellNew v (some name)) ∈ c.history →
    .answered i answer ∉ c.history
  unnamed : ∀ {i v}, .called i (.cellNew v none) ∈ c.history →
    .answered i (.cell ⟨s.key name⟩) ∉ c.history
  parsed : ∀ {i answer}, .called i (.cellParse name) ∈ c.history →
    .answered i answer ∈ c.history → answer = .fault (.notFound (s.key name).text)
  resolved : ∀ {i answer}, .called i (.sequenceParse name) ∈ c.history →
    .answered i answer ∈ c.history → answer = .fault (.notFound (s.key name).text)
  read : ∀ {i answer}, .called i (.cellValue ⟨s.key name⟩) ∈ c.history →
    .answered i answer ∈ c.history → answer = .fault (.notFound (s.key name).text)

/-- One call has written its value under a name. No other call has made a cell there, and what has
been found there is this value. -/
structure Written (s : DataSettings) (name : String) (i : Nat) (v : Value) (c : Crew ω) :
    Prop where
  present : c.backend.entry (s.key name) = .ok (some ⟨0, v.json.toBytes⟩)
  creator : .called i (.cellNew v none) ∈ c.history ∨
    .called i (.cellNew v (some name)) ∈ c.history
  succeeded : ∀ {answer}, .answered i answer ∈ c.history → answer = .cell ⟨s.key name⟩
  unique : ∀ {j u given}, .called j (.cellNew u given) ∈ c.history →
    .answered j (.cell ⟨s.key name⟩) ∈ c.history → j = i
  refused : ∀ {j u answer}, j ≠ i → .called j (.cellNew u (some name)) ∈ c.history →
    .answered j answer ∈ c.history → answer = .fault (.alreadyExists (s.key name).text)
  parsed : ∀ {j answer}, .called j (.cellParse name) ∈ c.history →
    .answered j answer ∈ c.history →
      answer = .cell ⟨s.key name⟩ ∨ answer = .fault (.notFound (s.key name).text)
  resolved : ∀ {j answer}, .called j (.sequenceParse name) ∈ c.history →
    .answered j answer ∈ c.history →
      answer = .ofStore .sequence (Sequence.ofHeader (s.key name) v.json.toBytes) ∨
        answer = .fault (.notFound (s.key name).text)
  read : ∀ {j answer}, .called j (.cellValue ⟨s.key name⟩) ∈ c.history →
    .answered j answer ∈ c.history →
      answer = .value v ∨ answer = .fault (.notFound (s.key name).text)

/-- Calls that are made after a state find the value that is written under a name. -/
structure FoundSince (s : DataSettings) (name : String) (v : Value) (c c' : Crew ω) : Prop where
  parsed : ∀ {j answer}, (∀ x, .called j x ∉ c.history) →
    .called j (.cellParse name) ∈ c'.history → .answered j answer ∈ c'.history →
      answer = .cell ⟨s.key name⟩
  read : ∀ {j answer}, (∀ x, .called j x ∉ c.history) →
    .called j (.cellValue ⟨s.key name⟩) ∈ c'.history → .answered j answer ∈ c'.history →
      answer = .value v

theorem Faithful.gives (h : c.Faithful s) {i : Nat} {call : DataCall} {answer : DataAnswer}
    (called : .called i call ∈ c.history) (answered : .answered i answer ∈ c.history) :
    (call.program s).Gives answer := by
  obtain ⟨x, hx, gives⟩ := h.answered answered
  exact h.unique hx called ▸ gives

theorem Knows.expects (h : c.Knows s name won known) (faithful : c.Faithful s) {i : Nat}
    {call : DataCall} {answer : DataAnswer} (called : .called i call ∈ c.history)
    (answered : .answered i answer ∈ c.history) :
    call.Expects s name i (known i) won answer := by
  obtain ⟨x, hx, expects⟩ := h.answered answered
  exact faithful.unique hx called ▸ expects

theorem Knows.unwritten (h : c.Knows s name none known) (faithful : c.Faithful s) :
    c.Unwritten s name where
  absent := h.entry
  created called answered := by
    rcases h.expects faithful called answered with ⟨-, heq⟩ | ⟨-, w, heq, -⟩ | ⟨hne, -⟩
    · cases heq
    · cases heq
    · exact hne rfl
  unnamed called answered := by
    rcases h.expects faithful called answered with ⟨-, heq⟩ | ⟨-, w, heq, -⟩ | ⟨-, hne, -⟩
    · cases heq
    · cases heq
    · exact hne rfl
  parsed called answered := by
    rcases h.expects faithful called answered rfl with ⟨-, hne⟩ | ⟨heq, -⟩
    · exact absurd rfl hne
    · exact heq
  resolved called answered := by
    rcases h.expects faithful called answered rfl with ⟨w, heq, -⟩ | ⟨heq, -⟩
    · cases heq
    · exact heq
  read called answered := by
    rcases h.expects faithful called answered rfl with ⟨w, heq, -⟩ | ⟨heq, -⟩
    · cases heq
    · exact heq

section Won

variable {i : Nat} {v : Value}

/-- The value that is written is one that its call may write, so that it can be read back. -/
theorem Knows.legible (h : c.Knows s name (some (i, v)) known) (faithful : c.Faithful s) :
    Decoder.value.ofBytes v.json.toBytes = .ok v := by
  obtain ⟨call, called, own⟩ := h.creator rfl
  obtain ⟨given, rfl⟩ : ∃ given, call = .cellNew v given :=
    (DataCall.own_eq_some own).elim (⟨_, ·⟩) (⟨_, ·⟩)
  obtain ⟨depth, exact⟩ := (faithful.permitted called).fits rfl
  have bytes : Decoder.value.ofBytes v.json.toBytes = Decoder.value.ofText v.json.text :=
    Decoder.ofBytes_ofText _ _
  rw [bytes, Decoder.ofText_text _ exact]
  exact Decoder.restores_value v _ depth

theorem Knows.written (h : c.Knows s name (some (i, v)) known) (faithful : c.Faithful s) :
    c.Written s name i v where
  present := h.entry
  creator := by
    obtain ⟨call, called, own⟩ := h.creator rfl
    rcases DataCall.own_eq_some own with rfl | rfl
    · exact .inl called
    · exact .inr called
  succeeded answered := by
    obtain ⟨call, called, own⟩ := h.creator rfl
    obtain ⟨given, rfl⟩ : ∃ given, call = .cellNew v given :=
      (DataCall.own_eq_some own).elim (⟨_, ·⟩) (⟨_, ·⟩)
    rcases h.expects faithful called answered with ⟨heq, -⟩ | ⟨-, w, hw, hne⟩ | ⟨-, -, hne⟩
    · exact heq
    · exact absurd (congrArg Prod.fst (Option.some.inj hw)).symm hne
    · exact absurd rfl (hne _ rfl)
  unique called answered := by
    rcases h.expects faithful called answered with ⟨-, heq⟩ | ⟨heq, -⟩ | ⟨-, hne, -⟩
    · exact (congrArg Prod.fst (Option.some.inj heq)).symm
    · cases heq
    · exact absurd rfl hne
  refused hj called answered := by
    rcases h.expects faithful called answered with ⟨-, heq⟩ | ⟨heq, -⟩ | ⟨hne, -⟩
    · exact absurd (congrArg Prod.fst (Option.some.inj heq)).symm hj
    · exact heq
    · exact absurd rfl hne
  parsed called answered := by
    rcases h.expects faithful called answered rfl with ⟨heq, -⟩ | ⟨heq, -⟩
    · exact .inl heq
    · exact .inr heq
  resolved called answered := by
    rcases h.expects faithful called answered rfl with ⟨w, hw, heq⟩ | ⟨heq, -⟩
    · obtain rfl := Option.some.inj hw
      exact .inl heq
    · exact .inr heq
  read called answered := by
    rcases h.expects faithful called answered rfl with ⟨w, hw, heq⟩ | ⟨heq, -⟩
    · obtain rfl := Option.some.inj hw
      rw [h.legible faithful] at heq
      exact .inl heq
    · exact .inr heq

theorem Knows.foundSince (h : c'.Knows s name (some (i, v)) known) (faithful : c'.Faithful s)
    (since : ∀ {j x}, .called j x ∈ c'.history → (∀ y, .called j y ∉ c.history) →
      known j ≠ none) :
    FoundSince s name v c c' where
  parsed new called answered := by
    rcases h.expects faithful called answered rfl with ⟨heq, -⟩ | ⟨-, unknown⟩
    · exact heq
    · exact absurd unknown (since called new)
  read new called answered := by
    rcases h.expects faithful called answered rfl with ⟨w, hw, heq⟩ | ⟨-, unknown⟩
    · obtain rfl := Option.some.inj hw
      rw [h.legible faithful] at heq
      exact heq
    · exact absurd unknown (since called new)

end Won

theorem Faithful.named (h : c.Faithful s) : c.Named s where
  apart name answered := h.apart answered name
  parsed called answered := by
    obtain ⟨k, gives, heq⟩ := DataAnswer.gives_ofStore (h.gives called answered)
      fun _ => DataAnswer.noConfusion
    exact (DataAnswer.cell.inj heq).trans (Cell.gives_find gives)
  resolved called answered := by
    obtain ⟨q, gives, heq⟩ := DataAnswer.gives_ofStore (h.gives called answered)
      fun _ => DataAnswer.noConfusion
    exact (congrArg Sequence.key (DataAnswer.sequence.inj heq)).trans (gives_resolved gives)
  made called answered := by
    obtain ⟨k, gives, heq⟩ := DataAnswer.gives_ofStore (h.gives called answered)
      fun _ => DataAnswer.noConfusion
    exact (DataAnswer.cell.inj heq).trans (Cell.gives_write gives)
  unnamed called answered := by
    obtain ⟨k, gives, heq⟩ := DataAnswer.gives_ofStore (h.gives called answered)
      fun _ => DataAnswer.noConfusion
    obtain ⟨key, fresh, write⟩ := gives_ok_bind gives
    obtain ⟨u, rfl⟩ := DataSettings.gives_freshKey fresh
    exact ⟨u, (DataAnswer.cell.inj heq).trans (Cell.gives_write write)⟩

/-! ## Steps -/

/-- A call that is made knows what is known then. -/
theorem Knows.call (h : c.Knows s name won known) (faithful : c.Faithful s) {i : Nat} {w : ω}
    {call : DataCall} (new : ∀ other, .called i other ∉ c.history) (permitted : c.Permits call) :
    Knows s name won (Function.update known i won)
      { c with
        running := Function.update c.running i (some (w, call.program s))
        history := c.history ++ [.called i call] } := by
  have old : ∀ {event}, event ∈ c.history → event ∈ c.history ++ [.called i call] :=
    fun mem => List.mem_append_left _ mem
  have kept : ∀ {j x}, .called j x ∈ c.history → Function.update known i won j = known j := by
    intro j x hx
    have hj : j ≠ i := fun heq => new x (heq ▸ hx)
    exact Function.update_of_ne hj _ _
  have other : ∀ w, won = some w → w.1 ≠ i := by
    rintro ⟨j, v⟩ hw rfl
    obtain ⟨x, hx, -⟩ := h.creator hw
    exact new x hx
  have apart : ∀ {a use}, call = .atom a use → a.key.text ≠ (s.key name).text := by
    intro a use heq
    obtain ⟨j, hj⟩ := permitted.made heq
    exact faithful.apart hj name
  refine ⟨h.entry, h.cached, ?_, ?_, ?_⟩
  · intro j v hv
    obtain ⟨x, hx, hown⟩ := h.creator hv
    exact ⟨x, old hx, hown⟩
  · intro j w' p hp
    by_cases hj : j = i
    · subst hj
      obtain ⟨rfl, rfl⟩ : w = w' ∧ call.program s = p := by simpa using hp
      refine ⟨call, by simp, ?_⟩
      rw [Function.update_self]
      exact call.keeps other apart
    · obtain ⟨x, hx, keeps⟩ := h.running ((Function.update_of_ne hj _ _).symm.trans hp)
      exact ⟨x, old hx, (kept hx).symm ▸ keeps⟩
  · intro j answer hj
    obtain ⟨x, hx, expects⟩ := h.answered (by simpa using hj)
    exact ⟨x, old hx, (kept hx).symm ▸ expects⟩

theorem Knows.answer (h : c.Knows s name won known) {i : Nat} {w : ω}
    {answer : DataAnswer} (done : c.running i = some (w, .done answer)) :
    Knows s name won known
      { c with
        running := Function.update c.running i none
        history := c.history ++ [.answered i answer] } := by
  have old : ∀ {event}, event ∈ c.history → event ∈ c.history ++ [.answered i answer] :=
    fun mem => List.mem_append_left _ mem
  refine ⟨h.entry, h.cached, ?_, ?_, ?_⟩
  · intro j v hv
    obtain ⟨x, hx, hown⟩ := h.creator hv
    exact ⟨x, old hx, hown⟩
  · intro j w' p hp
    by_cases hj : j = i
    · subst hj
      simp at hp
    · obtain ⟨x, hx, keeps⟩ := h.running ((Function.update_of_ne hj _ _).symm.trans hp)
      exact ⟨x, old hx, keeps⟩
  · intro j a hj
    rcases List.mem_append.1 hj with hj | hj
    · obtain ⟨x, hx, expects⟩ := h.answered hj
      exact ⟨x, old hx, expects⟩
    · obtain ⟨rfl, rfl⟩ : j = i ∧ a = answer := by simpa using hj
      obtain ⟨x, hx, keeps⟩ := h.running done
      exact ⟨x, old hx, keeps won (.refl j won)⟩

variable [DecidableEq ω]

theorem entry_serve {i : Nat} {own : Option Value} {w : ω} {r : Request}
    (h : c.backend.entry (s.key name) = .ok won.entry)
    (respects : r.Respects (s.key name) own won) :
    (c.serve w r).backend.entry (s.key name) = .ok (r.learn (s.key name) i own won).entry := by
  cases r with
  | store command =>
    by_cases same : command.key.text = (s.key name).text
    · rcases respects same with read | ⟨v, hown, rfl⟩
      · have unchanged : (c.backend.run command).2 = c.backend := Backend.run_of_isRead read
        have learned : (Request.store command).learn (s.key name) i own won = won := by
          cases command with
          | get | getVersioned | contains => rfl
          | create | overwrite | compareAndSwap | delete => cases read
        rw [learned]
        exact (congrArg (Backend.entry · (s.key name)) unchanged).trans h
      · obtain ⟨-, entry⟩ := Backend.run_act (c := .create (s.key name) v.json.toBytes) h
        refine entry.trans (congrArg Except.ok ?_)
        cases won with
        | none => simp [Request.learn, hown, Winner.entry, StoreCommand.act]
        | some x => simp [Request.learn, Winner.entry, StoreCommand.act]
    · have learned : (Request.store command).learn (s.key name) i own won = won := by
        cases command with
        | create k data => exact if_neg fun hk => same (congrArg Key.text hk.2)
        | overwrite | get | getVersioned | compareAndSwap | contains | delete => rfl
      rw [learned]
      exact (c.backend.entry_run_of_ne same).trans h
  | cached | remember | freshId | now | pause | append => exact h

theorem cached_serve {own : Option Value} {w w' : ω} {r : Request} {data : Bytes}
    (h : ∀ {w data}, (c.caches w).get? (s.key name) = some data → won.Wrote data)
    (respects : r.Respects (s.key name) own won)
    (found : ((c.serve w r).caches w').get? (s.key name) = some data) : won.Wrote data := by
  cases r with
  | remember k kept =>
    by_cases hw : w' = w
    · subst hw
      simp only [serve, Function.update_self, Table.get?_insert] at found
      split at found
      · next hk =>
        obtain rfl : kept = data := Option.some.inj found
        exact respects hk
      · exact h found
    · simp only [serve, Function.update_of_ne hw] at found
      exact h found
  | store | cached | freshId | now | pause | append => exact h found

/-- Only the call that is served moves on. To all others this is something that others do. -/
theorem Knows.serve (h : c.Knows s name won known) (faithful : c.Faithful s) {i : Nat} {w : ω}
    {r : Request} {next : r.Answer → Program DataAnswer} {answer : r.Answer}
    (asks : c.running i = some (w, .ask r next)) (replies : c.Replies w r answer) :
    ∃ won', won.Grows won' ∧ Knows s name won' known
      { c.serve w r with running := Function.update c.running i (some (w, next answer)) } := by
  obtain ⟨call, mem, keeps⟩ := h.running asks
  obtain ⟨respects, later⟩ := keeps won (.refl i won)
  have served := later answer (shows_of_replies h replies)
  have same : (c.serve w r).history = c.history := history_serve c w r
  refine ⟨r.learn (s.key name) i (call.own name) won, Request.grows_learn won r,
    entry_serve h.entry respects, ?_, ?_, ?_, ?_⟩
  · intro w' data found
    exact (cached_serve h.cached respects found).mono (Request.grows_learn won r)
  · intro j v hv
    simp only [same]
    rcases Request.learn_cases won r with heq | ⟨-, u, hown, heq⟩
    · exact h.creator (heq.symm.trans hv)
    · obtain ⟨rfl, rfl⟩ : i = j ∧ u = v := by simpa using heq.symm.trans hv
      exact ⟨call, mem, hown⟩
  · intro j w' p hp
    simp only [same]
    by_cases hj : j = i
    · subst hj
      obtain ⟨rfl, rfl⟩ : w = w' ∧ next answer = p := by simpa using hp
      exact ⟨call, mem, served⟩
    · obtain ⟨x, hx, keeps⟩ := h.running ((Function.update_of_ne hj _ _).symm.trans hp)
      exact ⟨x, hx, keeps.mono (Request.passes_learn hj won r)⟩
  · intro j a answered
    simp only [same] at answered ⊢
    have hj : j ≠ i := by
      rintro rfl
      exact nomatch asks.symm.trans (faithful.settled answered)
    obtain ⟨x, hx, expects⟩ := h.answered answered
    exact ⟨x, hx, expects.mono (Request.passes_learn hj won r)⟩

/-- What is known only grows, and what was known to a call when it was made does not change. -/
theorem Knows.step (h : c.Knows s name won known) (faithful : c.Faithful s)
    (next : c.Step s c') :
    ∃ won' known', c'.Knows s name won' known' ∧ won.Grows won' ∧
      (∀ {j x}, .called j x ∈ c.history → known' j = known j) ∧
      ∀ {j x}, .called j x ∈ c'.history → (∀ y, .called j y ∉ c.history) → known' j = won := by
  cases next with
  | @call w i call new permitted =>
    refine ⟨won, Function.update known i won, h.call faithful new permitted, .refl won, ?_, ?_⟩
    · intro j x hx
      have hj : j ≠ i := fun heq => new x (heq ▸ hx)
      exact Function.update_of_ne hj _ _
    · intro j x hx fresh
      have hj : j = i ∧ x = call := by simpa [fresh x] using hx
      rw [hj.1, Function.update_self]
  | @serve i w r next answer asks replies =>
    obtain ⟨won', grows, knows⟩ := h.serve faithful asks replies
    refine ⟨won', known, knows, grows, fun _ => rfl, ?_⟩
    intro j x hx fresh
    exact absurd (by simpa using hx) (fresh x)
  | @answer i w answer done =>
    refine ⟨won, known, h.answer done, .refl won, fun _ => rfl, ?_⟩
    intro j x hx fresh
    exact absurd (by simpa using hx) (fresh x)

/-! ## Runs -/

theorem Knows.run (h : c.Knows s name won known) (faithful : c.Faithful s) (run : Run s c c') :
    ∃ won' known', c'.Knows s name won' known' ∧ won.Grows won' ∧
      (∀ {j x}, .called j x ∈ c.history → known' j = known j) ∧
      ∀ {j x}, .called j x ∈ c'.history → (∀ y, .called j y ∉ c.history) →
        won.Grows (known' j) := by
  induction run with
  | refl => exact ⟨won, known, h, .refl won, fun _ => rfl, fun hx fresh => absurd hx (fresh _)⟩
  | @step d d' run next ih =>
    obtain ⟨won₁, known₁, knows₁, grows₁, old₁, new₁⟩ := ih
    obtain ⟨won₂, known₂, knows₂, grows₂, old₂, new₂⟩ := knows₁.step (faithful.run run) next
    refine ⟨won₂, known₂, knows₂, grows₁.trans grows₂, ?_, ?_⟩
    · intro j x hx
      exact (old₂ (run.history_prefix.subset hx)).trans (old₁ hx)
    · intro j x hx fresh
      by_cases hmid : ∃ y, .called j y ∈ d.history
      · obtain ⟨y, hy⟩ := hmid
        exact old₂ hy ▸ new₁ hy fresh
      · exact new₂ hx (fun y hy => hmid ⟨y, hy⟩) ▸ grows₁

/-- A call that is under way can be completed by itself, whatever state the crew is in. -/
theorem exists_answered {d : Crew ω} {i : Nat} {w : ω} (p : Program DataAnswer)
    (run : Run s d c) (asks : c.running i = some (w, p)) :
    ∃ c' answer, Run s d c' ∧ .answered i answer ∈ c'.history := by
  induction p generalizing c with
  | done answer => exact ⟨_, answer, run.step (.answer asks), by simp⟩
  | ask r next ih =>
    obtain ⟨answer, replies⟩ := c.exists_replies w r
    exact ih answer (run.step (.serve asks replies)) (Function.update_self ..)

/-- Cells are written once, whatever the workers do and in whatever order their requests are
answered. A call that is under way can always be completed. Under a name there is nothing, and
everybody who looks for it is told so, until one call has written its value there, which stays:
this call alone makes a cell of the name, and from then on the cell is found and has that value, on
each worker. What atoms hold has no name. -/
theorem write_once {b : Backend} (blank : b = .memory .empty ∨ b = .packed .empty)
    (run : Run s (start b) c) :
    (∀ {i w p}, c.running i = some (w, p) →
      ∃ c' answer, Run s c c' ∧ .answered i answer ∈ c'.history) ∧
    c.Named s ∧
    ∀ name, c.Unwritten s name ∨ ∃ i v, c.Written s name i v ∧
      ∀ {c'}, Run s c c' → c'.Written s name i v ∧ FoundSince s name v c c' := by
  have faithful := (faithful_start s b).run run
  refine ⟨fun asks => exists_answered _ (.refl c) asks, faithful.named, fun name => ?_⟩
  obtain ⟨won, known, knows, -⟩ := (knows_start blank).run (faithful_start s b) run
  cases won with
  | none => exact .inl (knows.unwritten faithful)
  | some w =>
    obtain ⟨i, v⟩ := w
    refine .inr ⟨i, v, knows.written faithful, fun {c'} later => ?_⟩
    obtain ⟨won', known', knows', grows, -, since⟩ := knows.run faithful later
    obtain rfl : won' = some (i, v) := grows _ rfl
    have faithful' := faithful.run later
    refine ⟨knows'.written faithful', knows'.foundSince faithful' fun called new absent => ?_⟩
    exact nomatch absent.symm.trans (since called new _ rfl)

/-- Two calls race for a name, and the one that comes second is refused. A worker that has not seen
the name finds the value that the other one has written. -/
theorem write_once_raced :
    ∃ (s : DataSettings) (c : Crew Bool), Run s (start (.memory .empty)) c ∧
      [.answered 1 (.fault (.alreadyExists (s.key "flag").text)),
        .answered 0 (.cell ⟨s.key "flag"⟩), .called 2 (.cellValue ⟨s.key "flag"⟩),
        .answered 2 (.value .null)] <:+ c.history ∧
      c.Named s ∧ ∃ i v, c.Written s "flag" i v := by
  let s := DataSettings.ofParts "data" 1 0
  let key := s.key "flag"
  let creation := DataCall.cellNew .null (some "flag")
  let reading := DataCall.cellValue ⟨key⟩
  let create : Request := .store (.create key Value.null.json.toBytes)
  let remember : Request := .remember key Value.null.json.toBytes
  have legible : Decoder.value.ofBytes Value.null.json.toBytes = .ok .null := by cbv
  have finds : some (false, Program.done (DataAnswer.ofStore .value
      ((Decoder.value.ofBytes Value.null.json.toBytes).mapError .serialization))) =
        some (false, .done (.value .null)) := by
    rw [legible]
    rfl
  have creates : ∀ c : Crew Bool, c.Permits creation := fun c => by
    refine ⟨fun {a use} heq => DataCall.noConfusion heq, fun {v name} heq => ?_⟩
    obtain ⟨rfl, -⟩ := DataCall.cellNew.inj heq
    exact ⟨Nat.zero_le _, trivial⟩
  have reads : ∀ c : Crew Bool, c.Permits reading := fun c =>
    ⟨fun {a use} heq => DataCall.noConfusion heq, fun {v name} heq => DataCall.noConfusion heq⟩
  have called₀ := (Run.refl (start (.memory .empty) : Crew Bool)).step
    (@Step.call Bool _ s _ true 0 creation (by simp [start]) (creates _))
  have called₁ := called₀.step
    (@Step.call Bool _ s _ false 1 creation (by simp [start]) (creates _))
  have created := called₁.step (@Step.serve Bool _ s _ 0 true create _ _ rfl rfl)
  have declined := created.step (@Step.serve Bool _ s _ 1 false create _ _ rfl rfl)
  have answered₁ := declined.step
    (@Step.answer Bool _ s _ 1 false (.fault (.alreadyExists key.text)) rfl)
  have remembered := answered₁.step (@Step.serve Bool _ s _ 0 true remember _ () rfl trivial)
  have answered₀ := remembered.step (@Step.answer Bool _ s _ 0 true (.cell ⟨key⟩) rfl)
  have called₂ := answered₀.step
    (@Step.call Bool _ s _ false 2 reading (by simp [start]) (reads _))
  have missed := called₂.step (@Step.serve Bool _ s _ 2 false (.cached key) _ none rfl rfl)
  have fetched := missed.step (@Step.serve Bool _ s _ 2 false (.store (.get key)) _
    (.ok (some Value.null.json.toBytes)) rfl rfl)
  have kept := fetched.step (@Step.serve Bool _ s _ 2 false remember _ () rfl trivial)
  have answered₂ := kept.step (@Step.answer Bool _ s _ 2 false (.value .null) finds)
  obtain ⟨-, named, entries⟩ := write_once (.inl rfl) answered₂
  refine ⟨s, _, answered₂, List.suffix_append [_, _] _, named, ?_⟩
  rcases entries "flag" with unwritten | ⟨i, v, written, -⟩
  · exact (unwritten.created (i := 0) (v := .null) (by simp [creation])
      (show DataEvent.answered 0 (.cell ⟨key⟩) ∈ _ by simp)).elim
  · exact ⟨i, v, written⟩

end Crew

end WorkflowEngine