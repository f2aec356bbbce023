import WorkflowEngine.Data.Cell
import WorkflowEngine.Data.Sequence
import WorkflowEngine.Proofs.JsonText
import WorkflowEngine.Proofs.Requests
/-!
Workers that share a store, each with a cache of its own. Calls of operations on cells, atoms and
names run on any of them; one request of one call is answered at a time, in any order. What the
callers see is a history of calls and their answers.
-/
set_option autoImplicit false

namespace WorkflowEngine

inductive DataCall where
  | cellNew (v : Value) (name : Option String)
  | cellParse (name : String)
  | cellValue (c : Cell)
  | sequenceParse (name : String)
  | atomNew (v : Value)
  | atom (a : Atom) (use : Atom.Call)

inductive DataAnswer where
  | cell (c : Cell)
  | value (v : Value)
  | sequence (q : Sequence)
  | atom (a : Atom)
  | used (answer : Atom.Answer)
  | fault (e : StoreError)

def DataAnswer.ofStore {α : Type} (encode : α → DataAnswer) : Except StoreError α → DataAnswer
  | .ok a => encode a
  | .error e => .fault e

theorem DataAnswer.gives_ofStore {α : Type} {encode : α → DataAnswer} {p : StoreProgram α}
    {answer : DataAnswer} (h : (ofStore encode <$> p.run).Gives answer)
    (faultless : ∀ e, answer ≠ .fault e) : ∃ a, p.run.Gives (.ok a) ∧ answer = encode a := by
  obtain ⟨result, gives, h⟩ := Program.gives_bind.1 h
  have heq := Program.gives_pure.1 h
  cases result with
  | ok a => exact ⟨a, gives, heq⟩
  | error e => exact absurd heq (faultless e)

def DataCall.program (s : DataSettings) : DataCall → Program DataAnswer
  | .cellNew v none => DataAnswer.ofStore .cell <$> (Cell.create s v).run
  | .cellNew v (some name) => DataAnswer.ofStore .cell <$> (Cell.createNamed s name v).run
  | .cellParse name => DataAnswer.ofStore .cell <$> (Cell.find s name).run
  | .cellValue c => DataAnswer.ofStore .value <$> (c.read Decoder.value).run
  | .sequenceParse name => DataAnswer.ofStore .sequence <$> (Sequence.find s name).run
  | .atomNew v => DataAnswer.ofStore .atom <$> (Atom.create s v).run
  | .atom a use => .used <$> use.program Decoder.value s a

inductive DataEvent where
  | called (number : Nat) (call : DataCall)
  | answered (number : Nat) (answer : DataAnswer)

/-- A store and the caches of the workers, the calls under way by their numbers, each on its worker,
and what the callers have seen so far. -/
structure Crew (ω : Type) where
  backend : Backend
  caches : ω → Table Key Bytes
  running : Nat → Option (ω × Program DataAnswer)
  history : List DataEvent

namespace Crew

variable {ω : Type}

/-- Workers with empty caches over a store. -/
def start (b : Backend) : Crew ω := ⟨b, fun _ => .empty, fun _ => none, []⟩

/-- What a request of a call on a worker may be answered. Nothing is said of the identifiers and
times that the world gives. -/
def Replies (c : Crew ω) (w : ω) : (r : Request) → r.Answer → Prop
  | .store command, answer => answer = (c.backend.run command).1
  | .cached key, answer => answer = (c.caches w).get? key
  | _, _ => True

/-- Atoms that are used were made here, and the values of cells can be read back. -/
structure Permits (c : Crew ω) (call : DataCall) : Prop where
  made : ∀ {a use}, call = .atom a use → ∃ j, .answered j (.atom a) ∈ c.history
  fits : ∀ {v name}, call = .cellNew v name → v.depth ≤ 127 ∧ v.json.Exact

variable {s : DataSettings} {c c' : Crew ω} {call : DataCall}

theorem Permits.mono (h : c.Permits call) (le : c.history <+: c'.history) : c'.Permits call where
  made heq := (h.made heq).imp fun _ mem => le.subset mem
  fits := h.fits

/-- What the history says about the calls under way and the answers: numbers stand for one call
each, calls were permitted, and an answer is one that the program of the call gives, which is under
way no longer. -/
structure Faithful (s : DataSettings) (c : Crew ω) : Prop where
  unique : ∀ {i x y}, .called i x ∈ c.history → .called i y ∈ c.history → x = y
  permitted : ∀ {i call}, .called i call ∈ c.history → c.Permits call
  running : ∀ {i w p}, c.running i = some (w, p) → ∃ call, .called i call ∈ c.history ∧
    ∀ answer, p.Gives answer → (call.program s).Gives answer
  answered : ∀ {i answer}, .answered i answer ∈ c.history →
    ∃ call, .called i call ∈ c.history ∧ (call.program s).Gives answer
  settled : ∀ {i answer}, .answered i answer ∈ c.history → c.running i = none

theorem faithful_start (s : DataSettings) (b : Backend) : (start b : Crew ω).Faithful s where
  unique h := nomatch h
  permitted h := nomatch h
  running h := nomatch h
  answered h := nomatch h
  settled h := nomatch h

/-- What is said of calls holds as long as no other call is made. -/
theorem Faithful.keep (h : c.Faithful s) (le : c.history <+: c'.history)
    (same : ∀ {i call}, .called i call ∈ c'.history → .called i call ∈ c.history)
    (running : ∀ {i w p}, c'.running i = some (w, p) → ∃ call, .called i call ∈ c'.history ∧
      ∀ answer, p.Gives answer → (call.program s).Gives answer)
    (answered : ∀ {i answer}, .answered i answer ∈ c'.history →
      ∃ call, .called i call ∈ c'.history ∧ (call.program s).Gives answer)
    (settled : ∀ {i answer}, .answered i answer ∈ c'.history → c'.running i = none) :
    c'.Faithful s where
  unique hx hy := h.unique (same hx) (same hy)
  permitted hx := (h.permitted (same hx)).mono le
  running := running
  answered := answered
  settled := settled

theorem Faithful.calls (h : c.Faithful s) (w : ω) {i : Nat}
    (new : ∀ other, .called i other ∉ c.history) (permitted : c.Permits call) :
    Faithful s
      { c with
        running := Function.update c.running i (some (w, call.program s))
        history := c.history ++ [.called i call] } := by
  have le : c.history <+: c.history ++ [.called i call] := List.prefix_append _ _
  have called : ∀ {j x}, .called j x ∈ c.history ++ [.called i call] →
      .called j x ∈ c.history ∨ (j = i ∧ x = call) := by
    intro j x hx
    simpa using hx
  constructor
  · intro j x y hx hy
    rcases called hx with hx₀ | ⟨rfl, rfl⟩
    · rcases called hy with hy₀ | ⟨rfl, rfl⟩
      · exact h.unique hx₀ hy₀
      · exact absurd hx₀ (new x)
    · rcases called hy with hy₀ | ⟨-, rfl⟩
      · exact absurd hy₀ (new y)
      · rfl
  · intro j x hx
    rcases called hx with hx | ⟨rfl, rfl⟩
    · exact (h.permitted hx).mono le
    · exact permitted.mono le
  · intro j w' p hp
    by_cases hj : j = i
    · subst hj
      obtain ⟨rfl, rfl⟩ : w = w' ∧ call.program s = p := by simpa using hp
      exact ⟨call, by simp, fun _ gives => gives⟩
    · obtain ⟨x, hx, gives⟩ := h.running ((Function.update_of_ne hj _ _).symm.trans hp)
      exact ⟨x, le.subset hx, gives⟩
  · intro j answer hj
    obtain ⟨x, hx, gives⟩ := h.answered (by simpa using hj)
    exact ⟨x, le.subset hx, gives⟩
  · intro j answer hj
    have mem : .answered j answer ∈ c.history := by simpa using hj
    obtain ⟨x, hx, -⟩ := h.answered mem
    have hji : j ≠ i := fun heq => new x (heq ▸ hx)
    exact (Function.update_of_ne hji _ _).trans (h.settled mem)

theorem Faithful.answers (h : c.Faithful s) {i : Nat} {w : ω} {answer : DataAnswer}
    (done : c.running i = some (w, .done answer)) :
    Faithful s
      { c with
        running := Function.update c.running i none
        history := c.history ++ [.answered i answer] } := by
  have le : c.history <+: c.history ++ [.answered i answer] := List.prefix_append _ _
  refine h.keep le (fun hx => by simpa using hx) ?_ ?_ ?_
  · intro j w' p hp
    by_cases hj : j = i
    · subst hj
      simp at hp
    · obtain ⟨x, hx, gives⟩ := h.running ((Function.update_of_ne hj _ _).symm.trans hp)
      exact ⟨x, le.subset hx, gives⟩
  · intro j a hj
    rcases List.mem_append.1 hj with hj | hj
    · obtain ⟨x, hx, gives⟩ := h.answered hj
      exact ⟨x, le.subset hx, gives⟩
    · obtain ⟨rfl, rfl⟩ : j = i ∧ a = answer := by simpa using hj
      obtain ⟨x, hx, gives⟩ := h.running done
      exact ⟨x, le.subset hx, gives a (.done a)⟩
  · intro j a hj
    by_cases hji : j = i
    · exact hji ▸ Function.update_self ..
    · have mem : .answered j a ∈ c.history := by simpa [hji] using hj
      exact (Function.update_of_ne hji _ _).trans (h.settled mem)

variable [DecidableEq ω]

/-- The crew after a request. -/
def serve (c : Crew ω) (w : ω) : Request → Crew ω
  | .store command => { c with backend := (c.backend.run command).2 }
  | .remember key data =>
    { c with caches := Function.update c.caches w ((c.caches w).insert key data) }
  | _ => c

/-- A call is made, one of its requests is answered, or its own answer comes back. -/
inductive Step (s : DataSettings) (c : Crew ω) : Crew ω → Prop
  | call (w : ω) {i : Nat} {call : DataCall} (new : ∀ other, .called i other ∉ c.history)
      (permitted : c.Permits call) :
      Step s c
        { c with
          running := Function.update c.running i (some (w, call.program s))
          history := c.history ++ [.called i call] }
  | serve {i : Nat} {w : ω} {r : Request} {next : r.Answer → Program DataAnswer}
      {answer : r.Answer} (asks : c.running i = some (w, .ask r next))
      (replies : c.Replies w r answer) :
      Step s c
        { c.serve w r with running := Function.update c.running i (some (w, next answer)) }
  | answer {i : Nat} {w : ω} {answer : DataAnswer} (done : c.running i = some (w, .done answer)) :
      Step s c
        { c with
          running := Function.update c.running i none
          history := c.history ++ [.answered i answer] }

inductive Run (s : DataSettings) : Crew ω → Crew ω → Prop
  | refl (c : Crew ω) : Run s c c
  | step {c c' c'' : Crew ω} (run : Run s c c') (next : c'.Step s c'') : Run s c c''

@[simp] theorem history_serve (c : Crew ω) (w : ω) (r : Request) :
    (c.serve w r).history = c.history := by
  cases r <;> rfl

theorem Step.history_prefix (h : c.Step s c') : c.history <+: c'.history := by
  cases h with
  | call => exact List.prefix_append _ _
  | serve => exact (history_serve c _ _).symm ▸ List.prefix_refl _
  | answer => exact List.prefix_append _ _

theorem Run.history_prefix (h : Run s c c') : c.history <+: c'.history := by
  induction h with
  | refl => exact List.prefix_refl _
  | step _ next ih => exact ih.trans next.history_prefix

theorem Faithful.serves (h : c.Faithful s) {i : Nat} {w : ω} {r : Request}
    {next : r.Answer → Program DataAnswer} (asks : c.running i = some (w, .ask r next))
    (answer : r.Answer) :
    Faithful s
      { c.serve w r with running := Function.update c.running i (some (w, next answer)) } := by
  have same : (c.serve w r).history = c.history := history_serve c w r
  refine h.keep (same ▸ List.prefix_refl _) (fun hx => by simpa using hx) ?_
    (fun hj => by simpa using h.answered (by simpa using hj)) ?_
  · intro j w' p hp
    simp only [same]
    by_cases hj : j = i
    · subst hj
      obtain ⟨rfl, rfl⟩ : w = w' ∧ next answer = p := by simpa using hp
      obtain ⟨x, hx, gives⟩ := h.running asks
      exact ⟨x, hx, fun a ha => gives a (.ask answer ha)⟩
    · exact h.running ((Function.update_of_ne hj _ _).symm.trans hp)
  · intro j a hj
    have mem : .answered j a ∈ c.history := by simpa using hj
    have hji : j ≠ i := by
      rintro rfl
      exact nomatch asks.symm.trans (h.settled mem)
    exact (Function.update_of_ne hji _ _).trans (h.settled mem)

theorem Faithful.step (h : c.Faithful s) (next : c.Step s c') : c'.Faithful s := by
  cases next with
  | call w new permitted => exact h.calls w new permitted
  | serve asks replies => exact h.serves asks _
  | answer done => exact h.answers done

theorem Faithful.run (h : c.Faithful s) (run : Run s c c') : c'.Faithful s := by
  induction run with
  | refl => exact h
  | step _ next ih => exact ih.step next

end Crew

end WorkflowEngine
