import WorkflowEngine.Proofs.Crew
import WorkflowEngine.Proofs.Decoders
/-!
What one call does with an entry that is written once. The entry is followed by who has written it
and what, so far as anybody knows. What a call may ask for and be answered is stated against this
knowledge, which others may extend while the call waits.
-/
set_option autoImplicit false

namespace WorkflowEngine

/-- The number of the call that wrote an entry, and the value that it wrote. -/
abbrev Winner := Option (Nat × Value)

namespace Winner

/-- The entry as its winner wrote it. -/
def entry (won : Winner) : Option Entry := won.map fun w => ⟨0, w.2.json.toBytes⟩

/-- Bytes that the winner wrote. -/
def Wrote (won : Winner) (data : Bytes) : Prop := ∃ w, won = some w ∧ data = w.2.json.toBytes

/-- What is known stays known. -/
def Grows (won won' : Winner) : Prop := ∀ w, won = some w → won' = some w

/-- What others than a call may add to what is known. -/
structure Passes (i : Nat) (won won' : Winner) : Prop where
  grows : Grows won won'
  other : won = none → ∀ {w}, won' = some w → w.1 ≠ i

variable {i : Nat} {won won' won'' : Winner} {data : Bytes}

theorem Grows.refl (won : Winner) : Grows won won := fun _ h => h

theorem Grows.trans (h : Grows won won') (h' : Grows won' won'') : Grows won won'' :=
  fun w hw => h' w (h w hw)

/-- What is not known was not known before. -/
theorem Grows.eq_none (h : Grows won won') (absent : won' = none) : won = none := by
  cases hwon : won with
  | none => rfl
  | some w => exact nomatch absent.symm.trans (h w hwon)

theorem Wrote.mono (h : won.Wrote data) (grows : Grows won won') : won'.Wrote data := by
  obtain ⟨w, hw, hdata⟩ := h
  exact ⟨w, grows w hw, hdata⟩

theorem Passes.refl (i : Nat) (won : Winner) : Passes i won won where
  grows := .refl won
  other := fun absent {_} hw => nomatch absent.symm.trans hw

theorem Passes.trans (h : Passes i won won') (h' : Passes i won' won'') : Passes i won won'' where
  grows := h.grows.trans h'.grows
  other absent w hw := by
    cases hmid : won' with
    | none => exact h'.other hmid hw
    | some x =>
      obtain rfl : x = w := Option.some.inj ((h'.grows x hmid).symm.trans hw)
      exact h.other absent hmid

/-- A call has not written what others have. -/
theorem Passes.others (h : Passes i won won') (other : ∀ w, won = some w → w.1 ≠ i) :
    ∀ w, won' = some w → w.1 ≠ i := by
  intro w hw
  cases hwon : won with
  | none => exact h.other hwon hw
  | some x =>
    obtain rfl : x = w := Option.some.inj ((h.grows x hwon).symm.trans hw)
    exact other x hwon

end Winner

/-- Commands that change nothing. -/
def StoreCommand.isRead : StoreCommand → Bool
  | .get _ | .getVersioned _ | .contains _ => true
  | _ => false

theorem Backend.run_of_isRead {b : Backend} {c : StoreCommand} (h : c.isRead = true) :
    (b.run c).2 = b := by
  cases c with
  | get | getVersioned | contains => cases b <;> rfl
  | _ => cases h

namespace Request

/-- What a call may ask for with respect to an entry that is written once: to read it, to create it
with the value that the call brings, and to keep what has been written. -/
def Respects (key : Key) (own : Option Value) (won : Winner) : Request → Prop
  | .store c => c.key.text = key.text →
    c.isRead = true ∨ ∃ v, own = some v ∧ c = .create key v.json.toBytes
  | .remember k data => k = key → won.Wrote data
  | _ => True

/-- What an answer says about the entry. -/
def Shows (key : Key) (won : Winner) : (r : Request) → r.Answer → Prop
  | .store c, answer => c.key = key → answer = (c.act won.entry).1
  | .cached k, answer => k = key → ∀ data, answer = some data → won.Wrote data
  | _, _ => True

/-- Who has written the entry after a request of a call. -/
def learn (key : Key) (i : Nat) (own : Option Value) (won : Winner) : Request → Winner
  | .store (.create k _) => if won = none ∧ k = key then own.map (i, ·) else won
  | _ => won

theorem learn_cases {key : Key} {i : Nat} {own : Option Value} (won : Winner) (r : Request) :
    r.learn key i own won = won ∨
      (won = none ∧ ∃ v, own = some v ∧ r.learn key i own won = some (i, v)) := by
  cases r with
  | store c =>
    cases c with
    | create k data =>
      by_cases h : won = none ∧ k = key
      · cases hown : own with
        | none => exact .inl ((if_pos h).trans h.1.symm)
        | some v => exact .inr ⟨h.1, v, rfl, if_pos h⟩
      · exact .inl (if_neg h)
    | overwrite | get | getVersioned | compareAndSwap | contains | delete => exact .inl rfl
  | cached | remember | freshId | now | pause | append => exact .inl rfl

theorem grows_learn {key : Key} {i : Nat} {own : Option Value} (won : Winner) (r : Request) :
    won.Grows (r.learn key i own won) := by
  rcases learn_cases won r with heq | ⟨absent, -⟩
  · rw [heq]
    exact .refl won
  · exact fun w hw => nomatch absent.symm.trans hw

/-- What a call writes is written by another one for all the others. -/
theorem passes_learn {key : Key} {i j : Nat} {own : Option Value} (hj : j ≠ i) (won : Winner)
    (r : Request) : won.Passes j (r.learn key i own won) where
  grows := grows_learn won r
  other := fun absent {w} hw => by
    rcases learn_cases won r with heq | ⟨-, v, -, heq⟩
    · exact nomatch absent.symm.trans (heq.symm.trans hw)
    · obtain rfl : (i, v) = w := Option.some.inj (heq.symm.trans hw)
      exact hj.symm

/-- A request that can do nothing to an entry and what is kept of it. -/
def Foreign (key : Key) : Request → Prop
  | .store c => c.key.text = key.text → c.isRead = true
  | .remember k _ => k ≠ key
  | _ => True

theorem learn_of_foreign {key : Key} {i : Nat} {own : Option Value} {won : Winner} {r : Request}
    (h : r.Foreign key) : r.learn key i own won = won := by
  cases r with
  | store c =>
    cases c with
    | create k data => exact if_neg fun hk => nomatch h (congrArg Key.text hk.2)
    | overwrite | get | getVersioned | compareAndSwap | contains | delete => rfl
  | cached | remember | freshId | now | pause | append => rfl

theorem foreign_of_concerns {key k : Key} (apart : k.text ≠ key.text) {r : Request}
    (h : r.Concerns k) : r.Foreign key := by
  cases r with
  | store c =>
    obtain rfl : c.key = k := h
    exact fun heq => absurd heq apart
  | pause => trivial
  | cached | remember | freshId | now | append => exact h.elim

end Request

namespace Program

variable {α β : Type} {key : Key} {i : Nat} {own : Option Value} {won won' : Winner}

/-- Whether a program of a call keeps to what it may ask for, whatever others do in between, and
ends with a result that fits what is known then. -/
def Keeps (key : Key) (i : Nat) (own : Option Value) (post : Winner → α → Prop) :
    Program α → Winner → Prop
  | .done a, won => ∀ won', won.Passes i won' → post won' a
  | .ask r next, won => ∀ won', won.Passes i won' → r.Respects key own won' ∧
    ∀ answer, r.Shows key won' answer →
      (next answer).Keeps key i own post (r.learn key i own won')

theorem Keeps.mono {post : Winner → α → Prop} {p : Program α} (h : p.Keeps key i own post won)
    (passes : won.Passes i won') : p.Keeps key i own post won' := by
  cases p with
  | done a => exact fun won'' passes' => h won'' (passes.trans passes')
  | ask r next => exact fun won'' passes' => h won'' (passes.trans passes')

theorem Keeps.weaken {post post' : Winner → α → Prop} {p : Program α}
    (h : p.Keeps key i own post won) (weaker : ∀ won a, post won a → post' won a) :
    p.Keeps key i own post' won := by
  induction p generalizing won with
  | done a => exact fun won' passes => weaker won' a (h won' passes)
  | ask r next ih =>
    intro won' passes
    obtain ⟨respects, later⟩ := h won' passes
    exact ⟨respects, fun answer shows => ih answer (later answer shows)⟩

theorem Keeps.bind {post : Winner → β → Prop} {mid : Winner → α → Prop} {p : Program α}
    {f : α → Program β} (hp : p.Keeps key i own mid won)
    (hf : ∀ won' a, (∀ won'', won'.Passes i won'' → mid won'' a) →
      (f a).Keeps key i own post won') :
    (p >>= f).Keeps key i own post won := by
  induction p generalizing won with
  | done a => exact hf won a hp
  | ask r next ih =>
    intro won' passes
    obtain ⟨respects, later⟩ := hp won' passes
    exact ⟨respects, fun answer shows => ih answer (later answer shows)⟩

theorem Keeps.map {post : Winner → β → Prop} {p : Program α} {f : α → β}
    (h : p.Keeps key i own (fun won' a => post won' (f a)) won) :
    (f <$> p).Keeps key i own post won :=
  h.bind fun _ _ ha => ha

/-- A program that can do nothing to an entry has not written it. -/
theorem keeps_of_foreign {p : Program α} (h : p.Asks (Request.Foreign key))
    (other : ∀ w, won = some w → w.1 ≠ i) :
    p.Keeps key i own (fun won' _ => ∀ w, won' = some w → w.1 ≠ i) won := by
  induction p generalizing won with
  | done a => exact fun won' passes => passes.others other
  | ask r next ih =>
    intro won' passes
    have respects : r.Respects key own won' := by
      cases r with
      | store c => exact fun heq => .inl (h.1 heq)
      | remember k data => exact fun heq => absurd heq h.1
      | cached | freshId | now | pause | append => trivial
    refine ⟨respects, fun answer _ => ?_⟩
    rw [Request.learn_of_foreign h.1]
    exact ih answer (h.2 answer) (passes.others other)

theorem Keeps.gives {post : Winner → α → Prop} {p : Program α}
    (h : p.Keeps key i own post won) :
    p.Keeps key i own (fun won' a => post won' a ∧ p.Gives a) won := by
  induction p generalizing won with
  | done a => exact fun won' passes => ⟨h won' passes, .done a⟩
  | ask r next ih =>
    intro won' passes
    obtain ⟨respects, later⟩ := h won' passes
    refine ⟨respects, fun answer shows => ?_⟩
    exact (ih answer (later answer shows)).weaken fun _ a ha => ⟨ha.1, .ask answer ha.2⟩

end Program

/-! ## Keys -/

namespace DataSettings

variable (s : DataSettings)

theorem key_inj {m n : String} (h : (s.key m).text = (s.key n).text) : m = n := by
  simpa [Key.text, key] using h

/-- Names never lead to mutable data. -/
theorem text_key_ne (name : String) {k : Key} (h : k.container = s.mutableContainer) :
    k.text ≠ (s.key name).text := by
  intro heq
  have chars := congrArg String.toList heq
  simp [Key.text, h, mutableContainer, key] at chars

end DataSettings

/-! ## Calls -/

/-- The sequence that the data under a key describes. -/
def Sequence.ofHeader (key : Key) (data : Bytes) : Except StoreError Sequence :=
  match headerDecoder.ofBytes data with
  | .error e => .error (.serialization e)
  | .ok (length, chunkSize) => (ofParts key length chunkSize).mapError .backend

theorem Sequence.key_ofHeader {key : Key} {data : Bytes} {q : Sequence}
    (h : Sequence.ofHeader key data = .ok q) : q.key = key := by
  unfold ofHeader at h
  split at h
  · cases h
  · next length chunkSize _ =>
    unfold ofParts at h
    split at h
    · cases h
    · cases h
      rfl

/-- The value that a call may write under a name. -/
def DataCall.own (name : String) : DataCall → Option Value
  | .cellNew v none => some v
  | .cellNew v (some given) => if given = name then some v else none
  | _ => none

theorem DataCall.own_eq_some {name : String} {call : DataCall} {v : Value}
    (h : call.own name = some v) : call = .cellNew v none ∨ call = .cellNew v (some name) := by
  cases call with
  | cellNew u given =>
    cases given with
    | none => exact .inl (congrArg (DataCall.cellNew · none) (Option.some.inj h))
    | some given =>
      obtain ⟨rfl, heq⟩ := Option.ite_none_right_eq_some.1 h
      exact .inr (congrArg (DataCall.cellNew · _) (Option.some.inj heq))
  | cellParse | cellValue | sequenceParse | atomNew | atom => cases h

/-- The answers of a call that fit what is known of a name: at first it was `known`, now it is
`won`. -/
def DataCall.Expects (s : DataSettings) (name : String) (i : Nat) (known won : Winner)
    (answer : DataAnswer) : DataCall → Prop
  | .cellNew v given =>
    (answer = .cell ⟨s.key name⟩ ∧ won = some (i, v)) ∨
      (answer = .fault (.alreadyExists (s.key name).text) ∧ ∃ w, won = some w ∧ w.1 ≠ i) ∨
      (given ≠ some name ∧ answer ≠ .cell ⟨s.key name⟩ ∧ ∀ w, won = some w → w.1 ≠ i)
  | .cellParse given => given = name →
    (answer = .cell ⟨s.key name⟩ ∧ won ≠ none) ∨
      (answer = .fault (.notFound (s.key name).text) ∧ known = none)
  | .cellValue c => c.key = s.key name →
    (∃ w, won = some w ∧ answer = .ofStore .value
      ((Decoder.value.ofBytes w.2.json.toBytes).mapError .serialization)) ∨
      (answer = .fault (.notFound (s.key name).text) ∧ known = none)
  | .sequenceParse given => given = name →
    (∃ w, won = some w ∧ answer = .ofStore .sequence
      (Sequence.ofHeader (s.key name) w.2.json.toBytes)) ∨
      (answer = .fault (.notFound (s.key name).text) ∧ known = none)
  | .atomNew _ | .atom _ _ => True

theorem DataCall.Expects.mono {s : DataSettings} {name : String} {i : Nat}
    {known won won' : Winner} {answer : DataAnswer} {call : DataCall}
    (h : call.Expects s name i known won answer) (passes : won.Passes i won') :
    call.Expects s name i known won' answer := by
  have grows := passes.grows
  cases call with
  | cellNew v given =>
    rcases h with ⟨heq, hwon⟩ | ⟨heq, w, hwon, hne⟩ | ⟨hgiven, hne, others⟩
    · exact .inl ⟨heq, grows _ hwon⟩
    · exact .inr (.inl ⟨heq, w, grows w hwon, hne⟩)
    · exact .inr (.inr ⟨hgiven, hne, passes.others others⟩)
  | cellParse given =>
    intro hname
    rcases h hname with ⟨heq, hwon⟩ | h
    · exact .inl ⟨heq, fun absent => hwon (grows.eq_none absent)⟩
    · exact .inr h
  | cellValue c =>
    intro hkey
    rcases h hkey with ⟨w, hwon, heq⟩ | h
    · exact .inl ⟨w, grows w hwon, heq⟩
    · exact .inr h
  | sequenceParse given =>
    intro hname
    rcases h hname with ⟨w, hwon, heq⟩ | h
    · exact .inl ⟨w, grows w hwon, heq⟩
    · exact .inr h
  | atomNew v => trivial
  | atom a use => trivial

section Calls

variable {s : DataSettings} {name : String} {key : Key} {i : Nat} {own : Option Value}
  {won : Winner}

open StoreProgram

/-- Reading what is written once gives what the winner wrote, or nothing if it was not there. -/
theorem keeps_readImmutable :
    (readImmutable key).run.Keeps key i own (fun won' r =>
      (∃ data, r = .ok data ∧ won'.Wrote data) ∨ (r = .error (.notFound key.text) ∧ won = none))
      won := by
  intro won₁ passes₁
  refine ⟨trivial, fun answer cached => ?_⟩
  cases answer with
  | some data =>
    exact fun won₂ passes₂ => .inl ⟨data, rfl, (cached rfl data rfl).mono passes₂.grows⟩
  | none =>
    -- Others may write the entry between the look into the cache and the look into the store.
    intro won₂ passes₂
    refine ⟨fun _ => .inl rfl, fun answer shown => ?_⟩
    obtain rfl : answer = .ok (won₂.entry.map Entry.data) := shown rfl
    cases hwon : won₂ with
    | none =>
      have absent := passes₁.grows.eq_none (passes₂.grows.eq_none hwon)
      exact fun won₃ _ => .inr ⟨rfl, absent⟩
    | some w =>
      have wrote : Winner.Wrote (some w) w.2.json.toBytes := ⟨w, rfl, rfl⟩
      intro won₃ passes₃
      refine ⟨fun _ => wrote.mono passes₃.grows, fun _ _ won₄ passes₄ => .inl ⟨_, rfl, ?_⟩⟩
      exact wrote.mono (passes₃.grows.trans passes₄.grows)

/-- A value that is written is that of the winner, or is refused because another call has won. -/
theorem keeps_write {v : Value} (own_eq : own = some v)
    (other : ∀ w, won = some w → w.1 ≠ i) :
    (Cell.write key v).run.Keeps key i own (fun won' r =>
      (r = .ok ⟨key⟩ ∧ won' = some (i, v)) ∨
        (r = .error (.alreadyExists key.text) ∧ ∃ w, won' = some w ∧ w.1 ≠ i)) won := by
  intro won₁ passes₁
  refine ⟨fun _ => .inr ⟨v, own_eq, rfl⟩, fun answer shown => ?_⟩
  obtain rfl := shown rfl
  have others := passes₁.others other
  cases hwon : won₁ with
  | none =>
    have learned : (Request.store (.create key v.json.toBytes)).learn key i own none =
        some (i, v) := by simp [Request.learn, own_eq]
    rw [learned]
    have wrote : Winner.Wrote (some (i, v)) v.json.toBytes := ⟨_, rfl, rfl⟩
    intro won₂ passes₂
    refine ⟨fun _ => wrote.mono passes₂.grows, fun _ _ won₃ passes₃ => .inl ⟨rfl, ?_⟩⟩
    exact passes₃.grows _ (passes₂.grows _ rfl)
  | some w =>
    -- The store refuses the value, and the call ends before it remembers it.
    have learned : (Request.store (.create key v.json.toBytes)).learn key i own (some w) =
        some w := by simp [Request.learn]
    rw [learned]
    exact fun won₂ passes₂ => .inr ⟨rfl, w, passes₂.grows w rfl, others w hwon⟩

theorem foreign_write {k : Key} (apart : k.text ≠ key.text) (v : Value) :
    (Cell.write k v).run.Asks (Request.Foreign key) :=
  Cell.asks_write (fun heq => absurd heq apart) fun heq => apart (congrArg Key.text heq)

/-- A cell made under some key, which may be that of the name. -/
theorem keeps_cellNew {v : Value} {given : Option String} {known : Winner} {n : String}
    (own_eq : n = name → own = some v) (apart : n ≠ name → given ≠ some name)
    (other : ∀ w, won = some w → w.1 ≠ i) :
    (DataAnswer.ofStore .cell <$> (Cell.write (s.key n) v).run).Keeps (s.key name) i own
      (fun won' answer => (DataCall.cellNew v given).Expects s name i known won' answer) won := by
  by_cases hn : n = name
  · subst hn
    refine Program.Keeps.map ((keeps_write (own_eq rfl) other).weaken fun won' r h => ?_)
    rcases h with ⟨rfl, hwon⟩ | ⟨rfl, hwon⟩
    · exact .inl ⟨rfl, hwon⟩
    · exact .inr (.inl ⟨rfl, hwon⟩)
  · have foreign := foreign_write (fun heq => hn (s.key_inj heq)) v
    refine Program.Keeps.map ((Program.keeps_of_foreign foreign other).gives.weaken
      fun won' r h => .inr (.inr ⟨apart hn, ?_, h.1⟩))
    cases r with
    | error e => exact fun heq => nomatch heq
    | ok c =>
      obtain rfl := Cell.gives_write h.2
      intro heq
      have keys : s.key n = s.key name := congrArg Cell.key (DataAnswer.cell.inj heq)
      exact hn (s.key_inj (congrArg Key.text keys))

theorem keeps_cellParse {known : Winner} (hknown : known = won) :
    (DataAnswer.ofStore .cell <$> (Cell.find s name).run).Keeps (s.key name) i own
      (fun won' answer => (DataCall.cellParse name).Expects s name i known won' answer) won := by
  subst hknown
  intro won₁ passes₁
  refine ⟨fun _ => .inl rfl, fun answer shown => ?_⟩
  obtain rfl : answer = .ok won₁.entry.isSome := shown rfl
  cases hwon : won₁ with
  | none => exact fun won₂ _ _ => .inr ⟨rfl, passes₁.grows.eq_none hwon⟩
  | some w =>
    exact fun won₂ passes₂ _ => .inl ⟨rfl, fun absent => nomatch passes₂.grows.eq_none absent⟩

/-- What is computed from the data that is written once depends on nothing else. -/
theorem keeps_computed {α : Type} {f : Bytes → StoreProgram α}
    {result : Bytes → Except StoreError α} (hf : ∀ data, (f data).run = .done (result data))
    (encode : α → DataAnswer) :
    (DataAnswer.ofStore encode <$> (readImmutable key >>= f).run).Keeps key i own
      (fun won' answer =>
        (∃ w, won' = some w ∧ answer = .ofStore encode (result w.2.json.toBytes)) ∨
          (answer = .fault (.notFound key.text) ∧ won = none)) won := by
  refine Program.Keeps.map ?_
  rw [ExceptT.run_bind]
  refine keeps_readImmutable.bind fun won₁ r h => ?_
  cases r with
  | ok data =>
    show (f data).run.Keeps key i own _ won₁
    rw [hf]
    intro won₂ passes
    rcases h won₂ passes with ⟨_, ⟨⟩, w, hw, rfl⟩ | ⟨heq, -⟩
    · exact .inl ⟨w, hw, rfl⟩
    · cases heq
  | error e =>
    intro won₂ passes
    rcases h won₂ passes with ⟨_, heq, -⟩ | ⟨⟨⟩, absent⟩
    · cases heq
    · exact .inr ⟨rfl, absent⟩

theorem foreign_readImmutable {k : Key} (other : k ≠ key) :
    (readImmutable k).run.Asks (Request.Foreign key) :=
  asks_readImmutable trivial (fun _ => rfl) fun _ => other

theorem foreign_computed {α : Type} {f : Bytes → StoreProgram α} {k : Key}
    {result : Bytes → Except StoreError α} (hf : ∀ data, (f data).run = .done (result data))
    (other : k ≠ key) : (readImmutable k >>= f).run.Asks (Request.Foreign key) := by
  refine asks_bind (foreign_readImmutable other) fun data _ => ?_
  rw [hf]
  trivial

theorem run_decode (element : Decoder Value) (data : Bytes) :
    (decode element data).run = .done ((element.ofBytes data).mapError .serialization) := rfl

theorem run_header (k : Key) (data : Bytes) :
    (do
      let (length, chunkSize) ← decode Sequence.headerDecoder data
      match Sequence.ofParts k length chunkSize with
      | .ok q => return q
      | .error reason => throw (.backend reason) : StoreProgram Sequence).run =
      .done (Sequence.ofHeader k data) := by
  have hdecode : (decode Sequence.headerDecoder data).run =
      .done ((Sequence.headerDecoder.ofBytes data).mapError .serialization) := rfl
  rw [ExceptT.run_bind, hdecode]
  unfold Sequence.ofHeader
  cases Sequence.headerDecoder.ofBytes data with
  | error e => rfl
  | ok header =>
    obtain ⟨length, chunkSize⟩ := header
    show (match Sequence.ofParts k length chunkSize with
      | .ok q => (return q : StoreProgram Sequence)
      | .error reason => throw (StoreError.backend reason)).run =
        .done ((Sequence.ofParts k length chunkSize).mapError .backend)
    cases Sequence.ofParts k length chunkSize <;> rfl

theorem gives_resolved {n : String} {q : Sequence}
    (h : (Sequence.find s n).run.Gives (.ok q)) : q.key = s.key n := by
  obtain ⟨data, -, h⟩ := gives_ok_bind h
  have header : Program.Gives (.done (Sequence.ofHeader (s.key n) data)) (.ok q) :=
    cast (congrArg (Program.Gives · (.ok q)) (run_header (s.key n) data)) h
  exact Sequence.key_ofHeader (Program.gives_pure.1 header).symm

/-- Every call keeps to what it may do with the entry of a name, and is answered accordingly. -/
theorem DataCall.keeps (call : DataCall) (other : ∀ w, won = some w → w.1 ≠ i)
    (apart : ∀ {a use}, call = .atom a use → a.key.text ≠ (s.key name).text) :
    (call.program s).Keeps (s.key name) i (call.own name)
      (fun won' answer => call.Expects s name i won won' answer) won := by
  cases call with
  | cellNew v given =>
    cases given with
    | none =>
      -- Nothing keeps a fresh name from being the one that is looked at.
      intro won₁ passes₁
      refine ⟨trivial, fun u _ => ?_⟩
      exact keeps_cellNew (fun _ => rfl) (fun _ h => nomatch h) (passes₁.others other)
    | some given =>
      exact keeps_cellNew (fun h => if_pos h) (fun hne heq => hne (Option.some.inj heq)) other
  | cellParse given =>
    by_cases hname : given = name
    · subst hname
      exact keeps_cellParse rfl
    · exact Program.Keeps.map ((Program.keeps_of_foreign (Cell.asks_find fun _ => rfl) other).weaken
        fun _ _ _ heq => absurd heq hname)
  | cellValue c =>
    by_cases hkey : c.key = s.key name
    · refine Program.Keeps.weaken (?_ : Program.Keeps (s.key name) i _ _ _ won)
        fun won' answer h (_ : c.key = s.key name) => h
      show (DataAnswer.ofStore .value <$>
        (readImmutable c.key >>= decode Decoder.value).run).Keeps (s.key name) i _ _ won
      rw [hkey]
      exact keeps_computed (run_decode Decoder.value) .value
    · have foreign := foreign_computed (run_decode Decoder.value) hkey
      exact Program.Keeps.map ((Program.keeps_of_foreign foreign other).weaken
        fun _ _ _ heq => absurd heq hkey)
  | sequenceParse given =>
    by_cases hname : given = name
    · subst hname
      exact (keeps_computed (run_header (s.key given)) .sequence).weaken fun _ _ h _ => h
    · have hkey : s.key given ≠ s.key name := fun heq => hname (s.key_inj (congrArg Key.text heq))
      have foreign := foreign_computed (run_header (s.key given)) hkey
      exact Program.Keeps.map ((Program.keeps_of_foreign foreign other).weaken
        fun _ _ _ heq => absurd heq hname)
  | atomNew v =>
    refine (Program.keeps_of_foreign ?_ other).weaken fun _ _ _ => trivial
    have foreign : (Atom.create s v).run.Asks (Request.Foreign (s.key name)) :=
      Atom.asks_create trivial fun k mutable heq => absurd heq (s.text_key_ne name mutable)
    exact foreign.map _
  | atom a use =>
    have foreign : (use.program Decoder.value s a).Asks (Request.Foreign (s.key name)) :=
      (use.asks_program s).mono fun r => Request.foreign_of_concerns (apart rfl)
    exact (Program.keeps_of_foreign (foreign.map _) other).weaken fun _ _ _ => trivial

end Calls

end WorkflowEngine
