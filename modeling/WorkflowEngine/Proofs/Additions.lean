import Mathlib
import WorkflowEngine.Proofs.AtomLinearizability
import WorkflowEngine.Proofs.NormalForm
import WorkflowEngine.Registry.Builtin
/-!
Additions of integers. Those that 64 bits with a sign hold are added exactly, so that an atom to
which only such integers are added holds the sum of those that were applied. Larger integers are
added as doubles.
-/
set_option autoImplicit false

namespace WorkflowEngine

namespace Number

/-- Whether 64 bits hold an integer, with a sign or without. -/
abbrev InRange (i : Int) : Prop := -0x8000000000000000 ≤ i ∧ i < 0x10000000000000000

/-- Whether 64 bits with a sign hold an integer. -/
abbrev Signed (i : Int) : Prop := -0x8000000000000000 ≤ i ∧ i < 0x8000000000000000

theorem Signed.inRange {i : Int} (h : Signed i) : InRange i := by
  unfold InRange
  omega

theorem numeric_intText {i : Int} {c : Char} (h : c ∈ intText i) :
    c = '-' ∨ c.isDigit = true := by
  have digits : c ∈ Nat.toDigits 10 i.natAbs → c.isDigit = true := fun h =>
    Nat.isDigit_of_mem_toDigits (by decide) (by decide) h
  unfold intText at h
  split at h
  · rcases List.mem_cons.1 h with rfl | h
    · exact .inl rfl
    · exact .inr (digits h)
  · exact .inr (digits h)

end Number

/-- The text of a double has a point or an exponent. -/
theorem Double.exists_mark (x : Double) : ∃ c ∈ x.text, c = '.' ∨ c = 'e' := by
  have magnitude : ∃ c ∈ x.magnitudeText, c = '.' ∨ c = 'e' := by
    unfold magnitudeText
    split
    · exact ⟨'.', by simp, .inl rfl⟩
    · simp only
      split
      · exact ⟨'.', by simp, .inl rfl⟩
      · split
        · exact ⟨'.', by simp, .inl rfl⟩
        · exact ⟨'e', by simp, .inr rfl⟩
  obtain ⟨c, mem, mark⟩ := magnitude
  unfold text
  split
  · exact ⟨c, List.mem_cons_of_mem _ mem, mark⟩
  · exact ⟨c, mem, mark⟩

theorem Json.write_of_toBytes {j j' : Json} (h : j.toBytes = j'.toBytes) :
    j.write [] = j'.write [] := by
  have texts := congrArg Bytes.text? h
  unfold toBytes at texts
  rw [Bytes.text?_ofText, Bytes.text?_ofText] at texts
  have chars := congrArg String.toList (Option.some.inj texts)
  simpa [text] using chars

namespace Value

/-- An integer as a value. -/
def ofInt (i : Int) (h : Number.InRange i) : Value := number (.integer i h)

/-- The integer that a value is. -/
def int? (v : Value) : Option Int := v.number?.bind Number.int?

/-- Whether a value is an integer that 64 bits with a sign hold. -/
def IsSigned (i : Int) (v : Value) : Prop := ∃ h : Number.Signed i, v = ofInt i h.inRange

theorem int64?_ofInt {i : Int} (h : Number.InRange i) :
    (ofInt i h).int64? = if i < 0x8000000000000000 then some i else none := rfl

theorem ofJson_ofInt {i : Int} (h : Number.Signed i) :
    ofJson (.ofInt i) = ofInt i h.inRange := by
  apply Value.ext
  simp only [Json.ofInt, Number.ofInt?_of_inRange h.inRange]
  rfl

theorem ofBytes_ofInt {i : Int} (h : Number.InRange i) :
    Decoder.value.ofBytes (ofInt i h).json.toBytes = .ok (ofInt i h) := by
  have exact : (ofInt i h).json.Exact := trivial
  rw [Decoder.ofBytes_toBytes _ exact]
  exact Decoder.restores_value _ _ (Nat.zero_le _)

end Value

namespace Builtin

open Number

variable {a b : Int}

/-- The text of an addition whose sum is out of range. -/
def overflowText (a b : Int) : String :=
  "integer overflow adding " ++ String.ofList (intText a) ++ " and " ++ String.ofList (intText b)

theorem sum_signed (ha : Signed a) (hb : Signed b) :
    sum (.ofInt a ha.inRange) (.ofInt b hb.inRange) =
      if h : Signed (a + b) then .ok (.ofInt (a + b) h.inRange)
      else .error (.evaluation (overflowText a b)) := by
  unfold sum
  rw [Value.int64?_ofInt, Value.int64?_ofInt, if_pos ha.2, if_pos hb.2]
  by_cases h : Signed (a + b)
  · rw [dif_pos h, ← Value.ofJson_ofInt h]
    exact if_pos h
  · rw [dif_neg h]
    exact if_neg h

/-- A sum of doubles is no integer. -/
theorem int?_ofFloat (x : Option Double) : (Value.ofFloat x).int? = none := by
  cases x with
  | none => rfl
  | some x => rfl

/-- A sum of doubles is never written like an integer. -/
theorem toBytes_ofFloat_ne (x : Option Double) {i : Int} (h : InRange i) :
    (Value.ofFloat x).json.toBytes ≠ (Value.ofInt i h).json.toBytes := by
  intro same
  have chars := Json.write_of_toBytes same
  have numeric : ∀ c ∈ (Value.ofInt i h).json.write [], c = '-' ∨ c.isDigit = true := fun c hc =>
    numeric_intText (by simpa [Value.ofInt, Value.number, Json.write, Number.text] using hc)
  rw [← chars] at numeric
  cases x with
  | none =>
    have first := numeric 'n' (by simp [Value.ofFloat, Value.null, Json.write])
    exact absurd first (by decide)
  | some x =>
    obtain ⟨c, mem, mark⟩ := x.exists_mark
    have digit := numeric c (by simp [Value.ofFloat, Value.number, Json.write, Number.text, mem])
    rcases mark with rfl | rfl
    · exact absurd digit (by decide)
    · exact absurd digit (by decide)

theorem sum_cases {left right v : Value} (h : sum left right = .ok v) :
    (∃ i, v.IsSigned i) ∨ ∃ x, v = .ofFloat x := by
  unfold sum at h
  split at h
  · simp only at h
    split at h
    · next inside =>
      cases h
      exact .inl ⟨_, inside, Value.ofJson_ofInt inside⟩
    · cases h
  · split at h
    · split at h
      · cases h
        exact .inr ⟨_, rfl⟩
      · cases h
        exact .inr ⟨none, rfl⟩
    · cases h

/-- An integer beyond 64 bits with a sign makes the sum one of doubles. -/
theorem sum_wide (ha : InRange a) (hb : InRange b) (wide : ¬ (Signed a ∧ Signed b)) :
    ∃ v, sum (.ofInt a ha) (.ofInt b hb) = .ok v ∧ v.int? = none := by
  unfold sum
  split
  · next small small' =>
    rw [Value.int64?_ofInt, Option.ite_none_right_eq_some] at small small'
    exact absurd ⟨⟨ha.1, small.1⟩, ⟨hb.1, small'.1⟩⟩ wide
  · split
    · split
      · exact ⟨_, rfl, int?_ofFloat _⟩
      · exact ⟨.null, rfl, rfl⟩
    · next numbers => exact absurd rfl (numbers (.integer a ha) (.integer b hb) rfl)

/-- What is written like an integer, of all sums, is read back. -/
theorem ofBytes_of_sum {left right v : Value} (sum : sum left right = .ok v) {i : Int}
    (h : InRange i) (same : v.json.toBytes = (Value.ofInt i h).json.toBytes) :
    Decoder.value.ofBytes v.json.toBytes = .ok v := by
  rcases sum_cases sum with ⟨j, hj, rfl⟩ | ⟨x, rfl⟩
  · exact Value.ofBytes_ofInt _
  · exact absurd same (toBytes_ofFloat_ne x h)

end Builtin

namespace Atom

open Number

/-- Whether a call adds an integer by the function that every registry has. -/
inductive Call.Adds (m : Int) : Call → Prop
  | set {f : Value → Reply (Bool × Value)} (signed : Signed m)
      (adds : Registry.standard.update ⟨Builtin.add, .ofInt m signed.inRange⟩ = .ok f) :
      Adds m (.set f)
  | transact {f : Value → Reply (Bool × Value)} (signed : Signed m)
      (adds : Registry.standard.update ⟨Builtin.add, .ofInt m signed.inRange⟩ = .ok f) :
      Adds m (.transact f)

/-- The sum of the amounts whose calls were applied. -/
def applied (amount : Nat → Int) (answers : List (Nat × Answer)) : Int :=
  ((answers.filter fun x => x.2.isApplied).map fun x => amount x.1).sum

variable {a : Atom} {call : Call} {answer : Answer} {next : Option Value} {n m : Int} {v w : Value}
  {f : Value → Reply (Bool × Value)} {amount : Nat → Int}

/-- An addition applies with the exact sum, or fails. -/
theorem update_add (hn : Signed n) (hm : Signed m)
    (adds : Registry.standard.update ⟨Builtin.add, .ofInt m hm.inRange⟩ = .ok f) :
    f (.ofInt n hn.inRange) =
      if h : Signed (n + m) then .ok (true, .ofInt (n + m) h.inRange)
      else .failed (.evaluation (Builtin.overflowText n m)) := by
  obtain rfl := Except.ok.inj adds
  have added := Builtin.sum_signed hn hm
  by_cases h : Signed (n + m)
  · rw [dif_pos h] at added ⊢
    simp only [added]
    rfl
  · rw [dif_neg h] at added ⊢
    simp only [added]
    rfl

theorem isSigned_of_update {flag : Bool} (hv : v.IsSigned n) (hm : Signed m)
    (adds : Registry.standard.update ⟨Builtin.add, .ofInt m hm.inRange⟩ = .ok f)
    (updated : f v = .ok (flag, w)) : w.IsSigned (n + m) := by
  obtain ⟨hn, rfl⟩ := hv
  rw [update_add hn hm adds] at updated
  split at updated
  · next h =>
    cases updated
    exact ⟨h, rfl⟩
  · cases updated

theorem sum_of_update {env : Value} {flag : Bool}
    (adds : Registry.standard.update ⟨Builtin.add, env⟩ = .ok f) (updated : f v = .ok (flag, w)) :
    Builtin.sum v env = .ok w := by
  obtain rfl := Except.ok.inj adds
  cases sum : Builtin.sum v env with
  | error e =>
    simp only [sum] at updated
    cases updated
  | ok result =>
    simp only [sum] at updated
    cases updated
    rfl

/-- Whatever an addition writes that is written like an integer, is read back. -/
theorem Call.Adds.ofBytes (adds : call.Adds m) (writes : call.Writes v) {i : Int} (h : InRange i)
    (same : v.json.toBytes = (Value.ofInt i h).json.toBytes) :
    Decoder.value.ofBytes v.json.toBytes = .ok v := by
  cases adds with
  | set signed adds =>
    cases writes with
    | set updated => exact Builtin.ofBytes_of_sum (sum_of_update adds updated) h same
  | transact signed adds =>
    cases writes with
    | transact updated => exact Builtin.ofBytes_of_sum (sum_of_update adds updated) h same

/-- A call that reads or adds leaves the exact sum, or what was there when it is not applied. -/
theorem Call.Yields.isSigned (h : call.Yields a (some v) answer next) (hv : v.IsSigned n)
    (adds : call = .read ∨ call.Adds m) :
    ∃ w, next = some w ∧ w.IsSigned (n + if answer.isApplied then m else 0) := by
  have unchanged : v.IsSigned (n + 0) := by simpa using hv
  rcases adds with rfl | adds
  · cases h with
    | read => exact ⟨v, rfl, unchanged⟩
  · cases adds with
    | set signed adds =>
      cases h with
      | set updated => exact ⟨_, rfl, isSigned_of_update hv signed adds updated⟩
      | setFailed | setAborted | setExhausted => exact ⟨v, rfl, unchanged⟩
    | transact signed adds =>
      cases h with
      | applied updated => exact ⟨_, rfl, isSigned_of_update hv signed adds updated⟩
      | declined | failed | aborted | exhausted => exact ⟨v, rfl, unchanged⟩

theorem applied_cons (amount : Nat → Int) (i : Nat) (answer : Answer)
    (rest : List (Nat × Answer)) :
    applied amount ((i, answer) :: rest) =
      (if answer.isApplied then amount i else 0) + applied amount rest := by
  unfold applied
  cases h : answer.isApplied with
  | true => simp [h]
  | false => simp [h]

theorem applied_perm {answers answers' : List (Nat × Answer)} (perm : answers.Perm answers') :
    applied amount answers = applied amount answers' :=
  ((perm.filter _).map _).sum_eq

theorem Replays.isSigned {order : List Completed} {after : Option Value}
    (h : Replays a (some v) order after) (hv : v.IsSigned n)
    (adds : ∀ x ∈ order, x.call = .read ∨ x.call.Adds (amount x.number)) :
    ∃ w, after = some w ∧
      w.IsSigned (n + applied amount (order.map fun x => (x.number, x.answer))) := by
  induction order generalizing v n with
  | nil =>
    cases h
    exact ⟨v, rfl, by simpa [applied] using hv⟩
  | cons first rest ih =>
    cases h with
    | cons yields later =>
      obtain ⟨u, rfl, hu⟩ := yields.isSigned hv (adds first (by simp))
      obtain ⟨w, after, hw⟩ := ih later hu fun x hx => adds x (by simp [hx])
      refine ⟨w, after, ?_⟩
      rwa [List.map_cons, applied_cons, ← Int.add_assoc]

/-! ## Calls that nobody disturbs -/

section Alone

variable {element : Decoder Value} {r : Race} {i : Nat} {k : UInt64} {encode : Bool → Answer}

theorem Race.Run.trans {r r' r'' : Race} (first : Race.Run element a r r')
    (last : Race.Run element a r' r'') : Race.Run element a r r'' := by
  induction last with
  | refl => exact first
  | step _ next ih => exact ih.step next

theorem Call.Updates.program_eq (h : call.Updates f encode) (element : Decoder Value)
    (s : DataSettings) (a : Atom) :
    ∃ limit left, call.program element s a = .ask (.store (.getVersioned a.key)) fun answer =>
      Answer.ofTransaction encode <$> found element a f limit left answer := by
  obtain ⟨left, hleft⟩ := exists_attemptLimit s
  have attempts := congrArg (Answer.ofTransaction encode <$> ·)
    (run_attempts element a f (attemptLimit s) left)
  rw [← hleft] at attempts
  refine ⟨attemptLimit s, left, ?_⟩
  cases h with
  | set f => exact attempts
  | transact f => exact attempts

/-- A call that is made reads the entry. -/
theorem Race.exists_found (element : Decoder Value) (s : DataSettings)
    (updates : call.Updates f encode)
    (present : r.backend.entry a.key = .ok (some ⟨k, v.json.toBytes⟩))
    (new : ∀ c, .called i c ∉ r.history) :
    ∃ r' limit left, Race.Run element a r r' ∧
      r'.backend.entry a.key = .ok (some ⟨k, v.json.toBytes⟩) ∧
      r'.running = Function.update r.running i (some (Answer.ofTransaction encode <$>
        found element a f limit left (.ok (some ⟨k, v.json.toBytes⟩)))) ∧
      r'.history = r.history ++ [.called i call] := by
  obtain ⟨limit, left, asks⟩ := updates.program_eq element s a
  obtain ⟨answer, still⟩ := Backend.run_act (c := .getVersioned a.key) present
  have called := (Race.Run.refl r).step (@Race.Step.call element a r i call s new)
  have read := called.step (@Race.Step.store element a _ i (.getVersioned a.key) _
    ((Function.update_self ..).trans (congrArg some asks)) (Race.admits_of_data?_eq_none rfl))
  refine ⟨_, limit, left, read, still, ?_, rfl⟩
  rw [Function.update_idem, answer]
  rfl

/-- The update of a call applies. -/
theorem Race.exists_applied (s : DataSettings) (updates : call.Updates f encode)
    (present : r.backend.entry a.key = .ok (some ⟨k, v.json.toBytes⟩))
    (new : ∀ c, .called i c ∉ r.history) (reads : element.ofBytes v.json.toBytes = .ok v)
    (applies : f v = .ok (true, w)) (room : k.toNat + 1 < UInt64.size)
    (legible : ∀ {u}, call.Writes u → u.json.toBytes = w.json.toBytes →
      element.ofBytes u.json.toBytes = .ok u) :
    ∃ r', Race.Run element a r r' ∧
      r'.backend.entry a.key = .ok (some ⟨k + 1, w.json.toBytes⟩) ∧
      r'.running = Function.update r.running i none ∧
      r'.history = r.history ++ [.called i call, .answered i (encode true)] := by
  obtain ⟨r₁, limit, left, run, present₁, running, history⟩ :=
    Race.exists_found element s updates present new
  let swap : StoreCommand := .compareAndSwap a.key k w.json.toBytes
  have asks : r₁.running i = some (.ask (.store swap) fun answer =>
      Answer.ofTransaction encode <$> written element a f limit left answer) := by
    rw [running, Function.update_self]
    simp only [found, reads, applies]
    rfl
  have admits : r₁.Admits element a i swap := by
    refine ⟨fun {call' u} called writes data => ?_, fun _ {e} he => ?_⟩
    · rw [history, List.mem_append, List.mem_singleton] at called
      obtain rfl : call' = call := by
        rcases called with before | now
        · exact absurd before (new call')
        · exact (Occurrence.called.inj now).2
      exact legible writes (Option.some.inj data).symm
    · rw [present₁] at he
      cases he
      exact room
  obtain ⟨answer, there⟩ := Backend.run_act (c := swap) present₁
  have swapped : (r₁.backend.run swap).1 = .ok true := by
    rw [answer]
    simp [swap, StoreCommand.act]
  have wrote := run.step (Race.Step.store asks admits)
  have answered := wrote.step (@Race.Step.answer element a _ i (encode true)
    ((Function.update_self ..).trans (by rw [swapped]; rfl)))
  refine ⟨_, answered, there.trans ?_, ?_, ?_⟩
  · simp [swap, StoreCommand.act]
  · rw [running, Function.update_idem, Function.update_idem]
  · simp [history]

/-- The update of a call fails. -/
theorem Race.exists_failed (s : DataSettings) (updates : call.Updates f encode)
    (present : r.backend.entry a.key = .ok (some ⟨k, v.json.toBytes⟩))
    (new : ∀ c, .called i c ∉ r.history) (reads : element.ofBytes v.json.toBytes = .ok v)
    {e : WorkflowError} (fails : f v = .failed e) :
    ∃ r', Race.Run element a r r' ∧
      r'.backend.entry a.key = .ok (some ⟨k, v.json.toBytes⟩) ∧
      r'.running = Function.update r.running i none ∧
      r'.history = r.history ++ [.called i call, .answered i (.fault (.failed e))] := by
  obtain ⟨r₁, limit, left, run, present₁, running, history⟩ :=
    Race.exists_found element s updates present new
  have done : r₁.running i = some (.done (.fault (.failed e))) := by
    rw [running, Function.update_self]
    simp only [found, reads, fails]
    rfl
  refine ⟨_, run.step (Race.Step.answer done), present₁, ?_, ?_⟩
  · rw [running, Function.update_idem]
  · simp [history]

end Alone

/-- The calls that have taken effect are those that were answered, when none is under way. -/
theorem Race.Explained.answers_perm {element : Decoder Value} {before : Option Value}
    {order : List Completed} {held : Option (UInt64 × Value)} {r : Race}
    (h : r.Explained element a before order held) (quiet : ∀ i, r.running i = none) :
    (order.map fun x => (x.number, x.answer)).Perm (r.history.filterMap Occurrence.answer?) :=
  (List.perm_ext_iff_of_nodup h.answers.1 h.once).2 fun _ =>
    ⟨fun hx => h.answers_of_quiet quiet hx, fun hx => h.answers.2 hx⟩

/-- Two integers that 64 bits with a sign hold are added exactly, or the sum is out of range; two
others are never added to an integer. An atom that was made with such an integer, and to which
only such integers are added, holds the sum of the amounts that were applied, in an order that
explains what the callers have seen. -/
theorem additions_exact {s : DataSettings} {start : Int} {session session' : Session} {r : Race}
    (signed : Signed start)
    (created : session.run (create s (.ofInt start signed.inRange)).run = (.ok a, session'))
    (run : Race.Run Decoder.value a ⟨session'.backend, fun _ => none, []⟩ r)
    (adds : ∀ i call, .called i call ∈ r.history → call = .read ∨ call.Adds (amount i)) :
    (∀ b c (hb : InRange b) (hc : InRange c),
      if Signed b ∧ Signed c then
        Builtin.sum (.ofInt b hb) (.ofInt c hc) =
          if h : Signed (b + c) then .ok (.ofInt (b + c) h.inRange)
          else .error (.evaluation (Builtin.overflowText b c))
      else ∃ v, Builtin.sum (.ofInt b hb) (.ofInt c hc) = .ok v ∧ v.int? = none) ∧
    ∃ order v total, Linearizes a (some (.ofInt start signed.inRange)) r.history order (some v) ∧
      (r.backend.run (.get a.key)).1 = .ok (some v.json.toBytes) ∧
      v.IsSigned (start + total) ∧
      total = applied amount (order.map fun x => (x.number, x.answer)) ∧
      ((∀ i, r.running i = none) →
        total = applied amount (r.history.filterMap Occurrence.answer?)) := by
  constructor
  · intro b c hb hc
    split
    · next both => exact Builtin.sum_signed both.1 both.2
    · next wide => exact Builtin.sum_wide hb hc wide
  · have started := Race.Explained.start (entry_of_created created) (Value.ofBytes_ofInt _)
    obtain ⟨order, held, explained⟩ := started.run run
    have ordered := explained.orderedBy
    obtain ⟨v, holds, isSigned⟩ := ordered.linearizes.replays.isSigned ⟨signed, rfl⟩
      fun x hx => adds _ _ (ordered.linearizes.called hx)
    have linearizes := ordered.linearizes
    have stored := ordered.stored
    rw [holds] at linearizes stored
    exact ⟨order, v, _, linearizes, stored, isSigned, rfl,
      fun quiet => applied_perm (explained.answers_perm quiet)⟩

/-- Not all integers are added exactly: the first one beyond 64 bits with a sign is rounded. -/
theorem additions_inexact : ¬ ∀ b c (hb : InRange b) (hc : InRange c),
    (∃ v, Builtin.sum (.ofInt b hb) (.ofInt c hc) = .ok v ∧ v.int? = some (b + c)) ∨
      ∃ message, Builtin.sum (.ofInt b hb) (.ofInt c hc) = .error (.evaluation message) := by
  intro exact
  have rounds : Builtin.sum (.ofInt 0x8000000000000000 (by decide)) (.ofInt 1 (by decide)) =
      .ok (.number (.float ⟨false, 0x10000000000000, 11, by decide⟩)) := rfl
  rcases exact 0x8000000000000000 1 (by decide) (by decide) with ⟨v, sum, isInt⟩ | ⟨message, sum⟩
  · rw [rounds] at sum
    cases sum
    cases isInt
  · rw [rounds] at sum
    cases sum

/-- An addition up to the largest sum but two, and one that would go beyond and changes nothing. -/
theorem additions_exact_two : ∃ (a : Atom) (b : Backend) (r : Race) (v : Value),
    Race.Run Decoder.value a ⟨b, fun _ => none, []⟩ r ∧
      r.history.filterMap Occurrence.answer? = [(0, .done), (1, .fault (.failed
        (.evaluation (Builtin.overflowText 0x7ffffffffffffffd 5))))] ∧
      (r.backend.run (.get a.key)).1 = .ok (some v.json.toBytes) ∧
      v.IsSigned 0x7ffffffffffffffd := by
  let s := DataSettings.ofParts "data" 1 0
  let session : Session := ⟨.memory .empty, .empty, 0, 0⟩
  let a : Atom := ⟨⟨s.mutableContainer, (Uuid.fresh 0).text⟩⟩
  let first : Value := .ofInt 0x7ffffffffffffff6 (by decide)
  let later : Value := .ofInt 0x7ffffffffffffffd (by decide)
  let adding (v current : Value) : Reply (Bool × Value) :=
    .ofExcept ((Builtin.sum current v).map fun next => (true, next))
  let seven := adding (.ofInt 7 (by decide))
  let five := adding (.ofInt 5 (by decide))
  have created : session.run (create s first).run =
      (.ok a, (session.run (create s first).run).2) := rfl
  have reads : ∀ {n : Int} (h : InRange n),
      Decoder.value.ofBytes (Value.ofInt n h).json.toBytes = .ok (.ofInt n h) := Value.ofBytes_ofInt
  have adds : (Call.set seven).Adds 7 := .set (by decide) rfl
  obtain ⟨r₁, run₁, present, running₁, history₁⟩ := Race.exists_applied (i := 0) (w := later) s
    (.set seven) (r := ⟨(session.run (create s first).run).2.backend, fun _ => none, []⟩)
    (entry_of_created created) (by simp) (reads _) rfl (by decide)
    fun writes same => adds.ofBytes writes (by decide) same
  obtain ⟨r, run₂, -, running, history⟩ := Race.exists_failed (i := 1) s (.transact five) present
    (by simp [history₁]) (reads _)
    (rfl : five later = .failed (.evaluation (Builtin.overflowText 0x7ffffffffffffffd 5)))
  have asked : r.history = [.called 0 (.set seven), .answered 0 .done, .called 1 (.transact five),
      .answered 1 (.fault (.failed
        (.evaluation (Builtin.overflowText 0x7ffffffffffffffd 5))))] := by
    rw [history, history₁]
    rfl
  have idle : ∀ i, r.running i = none := by
    simp [running, running₁, Function.update_apply]
  have all : ∀ i call, .called i call ∈ r.history →
      call = .read ∨ call.Adds (if i = 0 then 7 else 5) := by
    intro i call called
    obtain ⟨rfl, rfl⟩ | ⟨rfl, rfl⟩ :
        (i = 0 ∧ call = .set seven) ∨ (i = 1 ∧ call = .transact five) := by
      simpa [asked] using called
    · exact .inr adds
    · exact .inr (.transact (by decide) rfl)
  have run := run₁.trans run₂
  obtain ⟨-, order, v, total, -, stored, isSigned, -, quiet⟩ :=
    additions_exact (by decide) created run all
  rw [quiet idle, asked] at isSigned
  exact ⟨a, _, r, v, run, by rw [asked]; rfl, stored, isSigned⟩

end Atom

end WorkflowEngine
