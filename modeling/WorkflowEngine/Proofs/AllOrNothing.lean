import Mathlib
import WorkflowEngine.Proofs.Readers
/-!
Readers find all of a sequence or nothing. The call that makes the sequence writes its entries in
their order, and may come to a halt after any of them; what is written by then is all that anybody
sees, on whatever worker.
-/
set_option autoImplicit false

namespace WorkflowEngine

namespace Program

variable {q : Sequence} {id : Uuid} {plan written later : Writes}

/-- Whether a program writes the rest of certain entries in their order, whatever becomes of it, and
gives the sequence only when all are written. -/
def Fills (q : Sequence) (id : Uuid) (plan : Writes) :
    Program (Except StoreError Sequence) → Writes → Prop
  | .done r, written => ∀ q', r = .ok q' → q' = q ∧ written = plan
  | .ask (.store c) next, written => ∃ key data later, plan = written ++ (key, data) :: later ∧
    c = .create key data ∧
      (∀ answer, (next answer).Fills q id plan (written ++ [(key, data)])) ∧
      ∀ e, (next (.error e)).Fills q id plan written
  | .ask (.remember key data) next, written => written.lookup key = some data ∧
    (next ()).Fills q id plan written
  | .ask .freshId next, written => (next id).Fills q id plan written
  | _, _ => False

theorem fills_error (e : StoreError) : (done (.error e)).Fills q id plan written := by
  intro q' h
  cases h

theorem fills_createAll (distinct : (plan.map Prod.fst).Nodup) (left : plan = written ++ later) :
    (createAll (.done (.ok q)) later).Fills q id plan written := by
  induction later generalizing written with
  | nil =>
    intro q' h
    cases h
    exact ⟨rfl, by simp [left]⟩
  | cons entry later ih =>
    obtain ⟨key, data⟩ := entry
    have rest : plan = (written ++ [(key, data)]) ++ later := by simp [left]
    have there : (written ++ [(key, data)]).lookup key = some data := by
      refine Writes.lookup_of_mem ?_ (by simp)
      rw [rest, List.map_append] at distinct
      exact distinct.of_append_left
    refine ⟨key, data, later, left, rfl, fun answer => ?_, fun e => fills_error e⟩
    cases answer with
    | ok => exact ⟨there, ih rest⟩
    | error e => exact fills_error e

theorem fills_create (t : DataSettings) (id : Uuid) (items : List Value) :
    (Sequence.create t items).run.Fills (Sequence.made t id items.length) id
      ((Sequence.made t id items.length).entries items) [] := by
  rw [Sequence.run_create_eq]
  exact fills_createAll (Sequence.distinct_entries _ items) rfl

end Program

/-! ## Everybody together -/

namespace Publication

variable {ω : Type} {K : Key → Prop} {q : Sequence} {id : Uuid} {plan written : Writes}
  {fits : Nat → Sequence.Reading → Prop} {s : Publication ω}

/-- Under certain keys there is in the store what is written, and nothing else in any cache. -/
structure Stocks (K : Key → Prop) (written : Writes) (s : Publication ω) : Prop where
  entry : ∀ {key}, K key → s.backend.entry key = .ok ((written.lookup key).map (Entry.mk 0))
  cached : ∀ {w key data}, K key → (s.caches w).get? key = some data →
    written.lookup key = some data

theorem Stocks.finds (h : s.Stocks K written) {w : ω} {r : Request} {answer : r.Answer}
    (replies : s.Replies id w r answer) : r.Finds K written answer := by
  cases r with
  | store c =>
    intro hkey
    exact replies.trans (Backend.run_act (h.entry hkey)).1
  | cached key =>
    intro hkey data found
    exact h.cached hkey (replies.symm.trans found)
  | remember | freshId | now | pause | append => trivial

/-- What is in the store has been written. -/
theorem Stocks.lookup_of_fetch (h : s.Stocks K written) {key : Key} {data : Bytes} (hkey : K key)
    (found : s.backend.fetch key = .ok data) : written.lookup key = some data := by
  obtain ⟨version, there⟩ := Backend.fetch_eq_ok.1 found
  rw [h.entry hkey] at there
  obtain ⟨data', there, heq⟩ := Option.map_eq_some_iff.1 (Except.ok.inj there)
  rw [there, (Entry.mk.inj heq).2]

/-- How far a sequence is made, with the call that makes it and its readers. -/
structure Progress (q : Sequence) (id : Uuid) (items : List Value)
    (fits : Nat → Sequence.Reading → Prop) (written : Writes) (s : Publication ω) : Prop where
  within : written <+: q.entries items
  stocks : s.Stocks q.Owns written
  maker : ∀ {w p}, s.maker = some (w, p) → p.Fills q id (q.entries items) written
  readers : ∀ {i p}, s.readers i = some p →
    p.Sees q.Owns (q.entries items) (fun _ reading => fits i reading) written

variable {items : List Value} {s' : Publication ω} {t : DataSettings}

theorem Progress.setMaker (h : s.Progress q id items fits written)
    {maker : Option (ω × Program (Except StoreError Sequence))}
    (fills : ∀ {w p}, maker = some (w, p) → p.Fills q id (q.entries items) written) :
    { s with maker := maker }.Progress q id items fits written :=
  ⟨h.within, ⟨h.stocks.entry, h.stocks.cached⟩, fills, h.readers⟩

theorem Progress.setReader (h : s.Progress q id items fits written) {i : Nat}
    {p : Program Sequence.Reading}
    (sees : p.Sees q.Owns (q.entries items) (fun _ reading => fits i reading) written) :
    { s with readers := Function.update s.readers i (some p) }.Progress q id items fits
      written where
  within := h.within
  stocks := ⟨h.stocks.entry, h.stocks.cached⟩
  maker := h.maker
  readers {j p'} reads := by
    simp only [Function.update_apply] at reads
    split at reads
    · next same =>
      subst same
      rw [← Option.some.inj reads]
      exact sees
    · exact h.readers reads

theorem progress_start {b : Backend} {caches : ω → Table Key Bytes} {w : ω}
    (unused : ∀ key, (Sequence.made t id items.length).Owns key →
      b.entry key = .ok none ∧ ∀ w, (caches w).get? key = none) :
    (start b caches w t items).Progress (Sequence.made t id items.length) id items fits [] where
  within := List.nil_prefix
  stocks := {
    entry := fun {key} owned => (unused key owned).1
    cached := fun {w key data} owned cached => nomatch ((unused key owned).2 w).symm.trans cached }
  maker makes := by
    cases makes
    exact Program.fills_create t id items
  readers reads := nomatch reads

/-- What a reader has come to fits. -/
theorem Progress.reading (h : s.Progress q id items fits written) {i : Nat}
    {reading : Sequence.Reading} (ended : s.readers i = some (.done reading)) : fits i reading :=
  h.readers ended written ⟨List.prefix_rfl, h.within⟩

/-- The entry that comes next is one of the sequence, and is not there. -/
theorem Stocks.next (h : s.Stocks q.Owns written) (hlength : q.length.toNat = items.length)
    {key : Key} {data : Bytes} {later : Writes}
    (left : q.entries items = written ++ (key, data) :: later) :
    q.Owns key ∧ written.lookup key = none ∧ s.backend.entry key = .ok none := by
  have mem : (key, data) ∈ q.entries items := by simp [left]
  have owned : q.Owns key := Sequence.owns_of_mem_entries hlength mem
  have new : written.lookup key = none := by
    refine Writes.lookup_eq_none fun mem => ?_
    have distinct := Sequence.distinct_entries q items
    rw [left, List.map_append, List.nodup_append] at distinct
    exact distinct.2.2 key mem key (by simp) rfl
  have absent := h.entry owned
  rw [new] at absent
  exact ⟨owned, new, absent⟩

variable [DecidableEq ω]

theorem Stocks.serve (h : s.Stocks K written) (w : ω) {r : Request}
    (harmless : r.Harmless K written) : (s.serve w r).Stocks K written := by
  cases r with
  | store c =>
    refine ⟨fun {key} hkey => ?_, h.cached⟩
    show (s.backend.run c).2.entry key = _
    by_cases same : c.key.text = key.text
    · rw [Backend.run_of_isRead (harmless key hkey same), h.entry hkey]
    · rw [s.backend.entry_run_of_ne same, h.entry hkey]
  | remember key data =>
    refine ⟨h.entry, fun {w' k found} hk cached => ?_⟩
    simp only [Publication.serve, Function.update_apply] at cached
    split at cached
    · rw [Table.get?_insert] at cached
      split at cached
      · next same =>
        subst same
        rw [← Option.some.inj cached]
        exact harmless hk
      · exact h.cached hk cached
    · exact h.cached hk cached
  | cached | freshId | now | pause | append => exact h

/-- The next entry is written. -/
theorem Stocks.create (h : s.Stocks q.Owns written) (hlength : q.length.toNat = items.length)
    (w : ω) {key : Key} {data : Bytes} {later : Writes}
    (left : q.entries items = written ++ (key, data) :: later) :
    (s.serve w (.store (.create key data))).Stocks q.Owns (written ++ [(key, data)]) where
  entry {k} hk := by
    show (s.backend.run (.create key data)).2.entry k = _
    obtain ⟨owned, new, absent⟩ := h.next hlength left
    rw [List.lookup_append]
    by_cases same : key.text = k.text
    · obtain rfl := Sequence.eq_of_text owned hk same
      obtain ⟨-, there⟩ := Backend.run_act (c := .create key data) absent
      refine there.trans ?_
      simp [new, StoreCommand.act]
    · have other : k ≠ key := by
        rintro rfl
        exact same rfl
      rw [s.backend.entry_run_of_ne (c := .create key data) same, h.entry hk]
      simp [List.lookup, beq_eq_false_iff_ne.2 other]
  cached {w' k found} hk cached := by
    have before := h.cached hk cached
    exact Writes.lookup_of_more (List.prefix_append written _) before

/-- A call that nobody stops makes the sequence. -/
theorem Stocks.exists_made {w : ω} {later : Writes} (h : s.Stocks q.Owns written)
    (hlength : q.length.toNat = items.length) (left : q.entries items = written ++ later)
    (makes : s.maker = some (w, Program.createAll (.done (.ok q)) later)) :
    ∃ s', Run t id q.Owns s s' ∧ s'.maker = some (w, .done (.ok q)) ∧ s'.readers = s.readers := by
  induction later generalizing s written with
  | nil => exact ⟨s, .refl s, makes, rfl⟩
  | cons entry later ih =>
    obtain ⟨key, data⟩ := entry
    obtain ⟨owned, new, absent⟩ := h.next hlength left
    have there : (written ++ [(key, data)]).lookup key = some data := by
      simp [List.lookup_append, new]
    let others := Program.createAll (.done (.ok q)) later
    let s₁ : Publication ω := { s.serve w (.store (.create key data)) with
      maker := some (w, .ask (.remember key data) fun _ => others) }
    let s₂ : Publication ω := { s₁.serve w (.remember key data) with maker := some (w, others) }
    have created : s.Step t id q.Owns s₁ := by
      obtain ⟨answer, -⟩ := Backend.run_act (c := .create key data) absent
      exact @Step.make ω _ t id q.Owns s w (.store (.create key data)) _ (.ok ()) makes answer.symm
    have remembered : s₁.Step t id q.Owns s₂ :=
      @Step.make ω _ t id q.Owns s₁ w (.remember key data) _ () rfl trivial
    have stocks₁ := h.create hlength w left
    have stocks₂ := stocks₁.serve w (r := .remember key data) fun _ => there
    obtain ⟨s', run, made, readers⟩ :=
      ih (s := s₂) ⟨stocks₂.entry, stocks₂.cached⟩ (by simp [left]) rfl
    exact ⟨s', (((Run.refl s).step created).step remembered).trans run, made, readers⟩

theorem Stocks.exists_created {w : ω} (h : s.Stocks (Sequence.made t id items.length).Owns [])
    (few : items.length < UInt64.size) (makes : s.maker = some (w, (Sequence.create t items).run)) :
    ∃ s', Run t id (Sequence.made t id items.length).Owns s s' ∧
      s'.maker = some (w, .done (.ok (Sequence.made t id items.length))) ∧
      s'.readers = s.readers := by
  let q := Sequence.made t id items.length
  rw [Sequence.run_create_eq] at makes
  let named : Publication ω := { s with
    maker := some (w, Program.createAll (.done (.ok q)) (q.entries items)) }
  have naming : s.Step t id q.Owns named := @Step.make ω _ t id q.Owns s w .freshId _ id makes rfl
  have stocks : named.Stocks q.Owns [] := ⟨h.entry, h.cached⟩
  obtain ⟨s', run, made, readers⟩ := stocks.exists_made (Sequence.length_made few) rfl rfl
  exact ⟨s', ((Run.refl s).step naming).trans run, made, readers⟩

namespace Progress

theorem serve (h : s.Progress q id items fits written) (w : ω) {r : Request}
    (harmless : r.Harmless q.Owns written) : (s.serve w r).Progress q id items fits written where
  within := h.within
  stocks := h.stocks.serve w harmless
  maker {w' p} makes := h.maker (by rwa [maker_serve] at makes)
  readers {i p} reads := h.readers (by rwa [readers_serve] at reads)

/-- The call that makes the sequence, or the store that it has left alone, writes the next entry. -/
theorem create (h : s.Progress q id items fits written) (hlength : q.length.toNat = items.length)
    (w : ω) {key : Key} {data : Bytes} {later : Writes}
    (left : q.entries items = written ++ (key, data) :: later)
    {maker : Option (ω × Program (Except StoreError Sequence))}
    (fills : ∀ {w p}, maker = some (w, p) →
      p.Fills q id (q.entries items) (written ++ [(key, data)])) :
    { s.serve w (.store (.create key data)) with maker := maker }.Progress q id items fits
      (written ++ [(key, data)]) := by
  have stocks := h.stocks.create hlength w left
  have grows := Writes.grows_concat left
  exact ⟨grows.within, ⟨stocks.entry, stocks.cached⟩, fills,
    fun reads => (h.readers reads).mono grows⟩

/-- The call that makes the sequence goes on. -/
theorem make (h : s.Progress q id items fits written) (hlength : q.length.toNat = items.length)
    {w : ω} {r : Request} {next : r.Answer → Program (Except StoreError Sequence)}
    {answer : r.Answer} (asks : s.maker = some (w, .ask r next))
    (replies : s.Replies id w r answer) :
    ∃ written', Writes.Grows (q.entries items) written written' ∧
      { s.serve w r with maker := some (w, next answer) }.Progress q id items fits written' := by
  have same : Writes.Grows (q.entries items) written written := ⟨List.prefix_rfl, h.within⟩
  have fills := h.maker asks
  cases r with
  | store c =>
    obtain ⟨key, data, later, left, rfl, goes_on, -⟩ := fills
    refine ⟨_, Writes.grows_concat left, h.create hlength w left fun makes => ?_⟩
    cases makes
    exact goes_on answer
  | remember key data =>
    obtain ⟨there, goes_on⟩ := fills
    have served := h.serve w (r := .remember key data) fun _ => there
    refine ⟨written, same, served.setMaker fun makes => ?_⟩
    cases makes
    exact goes_on
  | freshId =>
    refine ⟨written, same, h.setMaker fun makes => ?_⟩
    cases makes
    obtain rfl : answer = id := replies
    exact fills
  | cached | now | pause | append => exact fills.elim

theorem step (h : s.Progress q id items fits written) (hlength : q.length.toNat = items.length)
    (new : ∀ (i : Nat) {u : DataSettings}, u.container = t.container →
      (Sequence.reader u id.text).Sees q.Owns (q.entries items) (fun _ reading => fits i reading)
        written)
    (next : s.Step t id q.Owns s') :
    ∃ written', Writes.Grows (q.entries items) written written' ∧
      s'.Progress q id items fits written' := by
  have same : Writes.Grows (q.entries items) written written := ⟨List.prefix_rfl, h.within⟩
  cases next with
  | make asks replies => exact h.make hlength asks replies
  | @fail w c next e done asks =>
    obtain ⟨key, data, later, left, rfl, goes_on, stops⟩ := h.maker asks
    cases done with
    | true =>
      refine ⟨_, Writes.grows_concat left, h.create hlength w left fun makes => ?_⟩
      cases makes
      exact goes_on _
    | false =>
      refine ⟨written, same, h.setMaker fun makes => ?_⟩
      cases makes
      exact stops e
  | drop => exact ⟨written, same, h.setMaker fun makes => nomatch makes⟩
  | @abandon w c next e asks =>
    obtain ⟨key, data, later, left, rfl, -⟩ := h.maker asks
    refine ⟨written, same, h.setMaker fun makes => ?_⟩
    cases makes
    exact ⟨key, data, later, left, rfl, fun _ => Program.fills_error e,
      fun _ => Program.fills_error e⟩
  | come container absent => exact ⟨written, same, h.setReader (new _ container)⟩
  | @read i w r next answer asks replies =>
    obtain ⟨harmless, goes_on⟩ := h.readers asks written same
    have served := h.serve w harmless
    have shown := goes_on answer (h.stocks.finds replies)
    have read := served.setReader shown
    rw [readers_serve] at read
    exact ⟨written, same, read⟩
  | @other w r foreign =>
    exact ⟨written, same, h.serve w (Request.harmless_of_foreign foreign)⟩
  | @keep w key data stored =>
    exact ⟨written, same, h.serve w fun owned => h.stocks.lookup_of_fetch owned stored⟩

theorem run (h : s.Progress q id items fits written) (hlength : q.length.toNat = items.length)
    (new : ∀ (i : Nat) {u : DataSettings} {written'}, u.container = t.container →
      Writes.Grows (q.entries items) written written' →
        (Sequence.reader u id.text).Sees q.Owns (q.entries items)
          (fun _ reading => fits i reading) written')
    (run : Run t id q.Owns s s') :
    ∃ written', Writes.Grows (q.entries items) written written' ∧
      s'.Progress q id items fits written' := by
  induction run with
  | refl => exact ⟨written, ⟨List.prefix_rfl, h.within⟩, h⟩
  | step _ next ih =>
    obtain ⟨written₁, grows, progress⟩ := ih
    obtain ⟨written₂, grows', progress'⟩ := progress.step hlength
      (fun i {_} container => new i container grows) next
    exact ⟨written₂, grows.trans grows', progress'⟩

/-- Readers find nothing or all from the beginning. -/
theorem of_run {b : Backend} {caches : ω → Table Key Bytes} {w : ω}
    (few : items.length < UInt64.size)
    (unused : ∀ key, (Sequence.made t id items.length).Owns key →
      b.entry key = .ok none ∧ ∀ w, (caches w).get? key = none)
    (run : Run t id (Sequence.made t id items.length).Owns (start b caches w t items) s) :
    ∃ written, s.Progress (Sequence.made t id items.length) id items
      (fun _ reading => reading = .error (.notFound (t.key id.text).text) ∨
        reading = (Sequence.made t id items.length).whole items) written := by
  have hlength : (Sequence.made t id items.length).length.toNat = items.length :=
    Sequence.length_made few
  have first : (start b caches w t items).Progress (Sequence.made t id items.length) id items
      (fun _ reading => reading = .error (.notFound (t.key id.text).text) ∨
        reading = (Sequence.made t id items.length).whole items) [] := progress_start unused
  obtain ⟨written, -, progress⟩ := first.run hlength
    (fun _ {u _} container grows => by
      have hkey : u.key id.text = t.key id.text := by simp [DataSettings.key, container]
      refine (Sequence.sees_reader hkey hlength grows.within).weaken fun _ reading _ seen => ?_
      rcases seen with all | ⟨nothing, -⟩
      · exact .inr all
      · exact .inl nothing) run
  exact ⟨written, progress⟩

/-- When all is written, the readers that are still to come find it. -/
theorem of_all (h : s.Progress q id items fits (q.entries items)) (key : q.key = t.key id.text)
    (hlength : q.length.toNat = items.length) (run : Run t id q.Owns s s') :
    ∃ written, s'.Progress q id items
      (fun i reading => s.readers i = none → reading = q.whole items) written := by
  have now : s.Progress q id items
      (fun i reading => s.readers i = none → reading = q.whole items) (q.entries items) := {
    within := h.within
    stocks := h.stocks
    maker := h.maker
    readers := fun {i p} reads => (h.readers reads).weaken fun _ _ _ _ absent =>
      nomatch reads.symm.trans absent }
  obtain ⟨written, -, progress⟩ := now.run hlength
    (fun i {u _} container grows => by
      have hkey : u.key id.text = q.key := by simp [key, DataSettings.key, container]
      refine (Sequence.sees_reader hkey hlength grows.within).weaken fun _ reading _ seen _ => ?_
      rcases seen with all | ⟨-, some_left⟩
      · exact all
      · exact absurd grows.eq_of_all some_left) run
  exact ⟨written, progress⟩

end Progress

open Sequence in
/-- While a sequence is made, and wherever that comes to a halt, whoever looks for its name finds
nothing, or else finds the sequence and all of its items. Every reader gets to its end, and those
that come when the sequence has been made do find it. -/
theorem all_or_nothing {t : DataSettings} {id : Uuid} {items : List Value} {q : Sequence}
    {b : Backend} {caches : ω → Table Key Bytes} {w : ω} {s : Publication ω}
    (handle : q = made t id items.length) (few : items.length < UInt64.size)
    (unused : ∀ key, q.Owns key → b.entry key = .ok none ∧ ∀ w, (caches w).get? key = none)
    (run : Run t id q.Owns (start b caches w t items) s) :
    (∀ i p, s.readers i = some p → ∃ reading s', Run t id q.Owns s s' ∧ s'.maker = s.maker ∧
      s'.readers i = some (.done reading)) ∧
    (∀ i reading, s.readers i = some (.done reading) →
      reading = .error (.notFound q.key.text) ∨ reading = q.whole items) ∧
    (∀ w' q', s.maker = some (w', .done (.ok q')) → q' = q ∧
      ∀ s' i reading, Run t id q.Owns s s' → s.readers i = none →
        s'.readers i = some (.done reading) → reading = q.whole items) ∧
    (Legible items → q.whole items = .ok (q, .ok items)) := by
  subst handle
  obtain ⟨written, progress⟩ := Progress.of_run few unused run
  refine ⟨fun i p reads => exists_read w reads, fun i reading ended => progress.reading ended,
    fun w' q makes => ?_, whole_of_legible⟩
  obtain ⟨rfl, rfl⟩ := progress.maker makes q rfl
  refine ⟨rfl, fun s' i reading later absent ended => ?_⟩
  obtain ⟨written', progress'⟩ := progress.of_all rfl (length_made few) later
  exact progress'.reading ended absent

open Sequence in
/-- One reader comes before the sequence is made and finds nothing, another one comes when it has
been made and finds the items of both chunks. -/
theorem all_or_nothing_twice :
    ∃ (t : DataSettings) (items : List Value) (q : Sequence) (s s' : Publication Bool),
      q = made t (Uuid.fresh 0) items.length ∧ q.chunkCount = 2 ∧
      Run t (Uuid.fresh 0) q.Owns (start (.memory .empty) (fun _ => .empty) true t items) s ∧
      s.readers 0 = some (.done (.error (.notFound q.key.text))) ∧
      Run t (Uuid.fresh 0) q.Owns s s' ∧ s'.readers 1 = some (.done (.ok (q, .ok items))) := by
  let t := DataSettings.ofParts "stratus" 2 100
  let items : List Value := [.null, .array [.null], .null]
  let id := Uuid.fresh 0
  let q := made t id items.length
  have legible : Legible items := by
    intro v hv
    obtain rfl | rfl | rfl : v = .null ∨ v = .array [.null] ∨ v = .null := by
      simpa [items] using hv
    · exact ⟨by decide, trivial⟩
    · exact ⟨by decide, trivial, trivial⟩
    · exact ⟨by decide, trivial⟩
  have unused : ∀ key, q.Owns key → (Backend.memory .empty).entry key = .ok none ∧
      ∀ w : Bool, (Table.empty : Table Key Bytes).get? key = none := fun _ _ => ⟨rfl, fun _ => rfl⟩
  have came := (Run.refl (start (.memory .empty) (fun _ => .empty) true t items)).step
    (@Step.come Bool _ t id q.Owns _ 0 t rfl rfl)
  have missed := came.step
    (@Step.read Bool _ t id q.Owns _ 0 false (.cached q.key) _ none rfl rfl)
  have told := missed.step
    (@Step.read Bool _ t id q.Owns _ 0 false (.store (.get q.key)) _ (.ok none) rfl rfl)
  obtain ⟨s₀, told, backend, caches, maker, first, second⟩ :
      ∃ s₀, Run t id q.Owns (start (.memory .empty) (fun _ => .empty) true t items) s₀ ∧
        s₀.backend = .memory .empty ∧ s₀.caches = (fun _ => .empty) ∧
        s₀.maker = some (true, (create t items).run) ∧
        s₀.readers 0 = some (.done (.error (.notFound q.key.text))) ∧ s₀.readers 1 = none :=
    ⟨_, told, rfl, rfl, rfl, rfl, rfl⟩
  have stocks : s₀.Stocks q.Owns [] := by
    refine ⟨fun _ => by rw [backend]; rfl, fun _ cached => ?_⟩
    rw [caches] at cached
    cases cached
  obtain ⟨s, finished, made, readers⟩ := stocks.exists_created (by decide) maker
  have run : Run t id q.Owns (start (.memory .empty) (fun _ => .empty) true t items) s :=
    told.trans finished
  have new : s.readers 1 = none := by rw [readers, second]
  let s₁ : Publication Bool := { s with
    readers := Function.update s.readers 1 (some (reader t id.text)) }
  have comes : s.Step t id q.Owns s₁ := @Step.come Bool _ t id q.Owns s 1 t rfl new
  have there : s₁.readers 1 = some (reader t id.text) := by simp [s₁]
  obtain ⟨reading, s', reads, -, ended⟩ := @exists_read Bool _ t id q.Owns _ 1 _ false there
  have later : Run t id q.Owns s s' := ((Run.refl s).step comes).trans reads
  obtain ⟨-, -, found, whole⟩ := all_or_nothing rfl (by decide) unused run
  obtain ⟨-, since⟩ := found true q made
  have all : reading = .ok (q, .ok items) :=
    (since s' 1 reading later new ended).trans (whole legible)
  refine ⟨t, items, q, s, s', rfl, by decide, run, ?_, later, ?_⟩
  · rw [readers, first]
  · rw [ended, all]

end Publication

end WorkflowEngine
