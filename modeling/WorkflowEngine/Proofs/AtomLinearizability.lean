import WorkflowEngine.Proofs.AtomCommits
/-!
Races for an atom are linearizable: the order in which the calls take effect explains what the
callers see. So no update is lost, and nothing brings an atom back that was freed.
-/
set_option autoImplicit false

namespace WorkflowEngine

namespace Atom

variable {element : Decoder Value} {a : Atom} {before after : Option Value}
  {history : List Occurrence} {order : List Completed} {i : Nat} {call : Call} {answer : Answer}

theorem pair_sublist_snoc {α : Type} {x y z : α} {l : List α} (h : [x, y].Sublist (l ++ [z])) :
    [x, y].Sublist l ∨ (y = z ∧ x ∈ l) := by
  obtain ⟨xs, ys, hsplit, hxs, hys⟩ := List.sublist_append_iff.1 h
  cases ys with
  | nil =>
    rw [List.append_nil] at hsplit
    exact .inl (hsplit ▸ hxs)
  | cons y' rest =>
    have hlength : rest = [] := by
      have hle := hys.length_le
      simpa using hle
    subst hlength
    have hy : y' = z := by simpa using hys
    have hparts : [x] ++ [y] = xs ++ [y'] := hsplit
    obtain ⟨hx, hlast⟩ := List.append_inj' hparts rfl
    cases hlast
    subst hx
    exact .inr ⟨hy, by simpa using hxs⟩

namespace Linearizes

theorem start (v : Option Value) : Linearizes a v [] [] v where
  replays := .nil v
  distinct := .nil
  called := nofun
  answered := nofun
  realTime := nofun

theorem absent_of_new (h : Linearizes a before history order after)
    (new : ∀ c, .called i c ∉ history) : i ∉ order.map Completed.number := by
  intro hi
  obtain ⟨x, hx, rfl⟩ := List.mem_map.1 hi
  exact new _ (h.called hx)

theorem mem_number (h : Linearizes a before history order after)
    (answered : .answered i answer ∈ history) : i ∈ order.map Completed.number := by
  obtain ⟨call, hmem⟩ := h.answered answered
  exact List.mem_map.2 ⟨_, hmem, rfl⟩

theorem begin (h : Linearizes a before history order after) (call : Call)
    (new : ∀ c, .called i c ∉ history) :
    Linearizes a before (history ++ [.called i call]) order after where
  replays := h.replays
  distinct := h.distinct
  called hx := List.mem_append_left _ (h.called hx)
  answered {j answer} hmem := by
    have hearlier : .answered j answer ∈ history := by simpa using hmem
    exact h.answered hearlier
  realTime hsub hj := by
    rcases pair_sublist_snoc hsub with hsub | ⟨hlast, -⟩
    · exact h.realTime hsub hj
    · cases hlast
      exact absurd hj (h.absent_of_new new)

/-- A call that takes effect comes after all the others. -/
theorem commit (h : Linearizes a before history order after) {after' : Option Value}
    (called : .called i call ∈ history) (absent : i ∉ order.map Completed.number)
    (yields : call.Yields a after answer after') :
    Linearizes a before history (order ++ [⟨i, call, answer⟩]) after' where
  replays := h.replays.snoc yields
  distinct := by
    rw [List.map_append]
    exact List.nodup_append.2 ⟨h.distinct, List.pairwise_singleton _ i, by simpa using absent⟩
  called hx := by
    rcases List.mem_append.1 hx with hx | hx
    · exact h.called hx
    · cases List.mem_singleton.1 hx
      exact called
  answered hmem := by
    obtain ⟨c, hc⟩ := h.answered hmem
    exact ⟨c, List.mem_append_left _ hc⟩
  realTime {i' j answer' c} hsub hj := by
    rw [List.map_append] at hj ⊢
    rcases List.mem_append.1 hj with hj | hj
    · exact (h.realTime hsub hj).trans (List.sublist_append_left _ _)
    · cases List.mem_singleton.1 hj
      -- What has been answered has its place before the call that takes effect now.
      have hanswered : .answered i' answer' ∈ history := hsub.subset (by simp)
      have hfirst := List.singleton_sublist.2 (h.mem_number hanswered)
      exact hfirst.append (List.Sublist.refl [i])

theorem reply (h : Linearizes a before history order after) (mem : ⟨i, call, answer⟩ ∈ order) :
    Linearizes a before (history ++ [.answered i answer]) order after where
  replays := h.replays
  distinct := h.distinct
  called hx := List.mem_append_left _ (h.called hx)
  answered hmem := by
    rcases List.mem_append.1 hmem with hmem | hmem
    · exact h.answered hmem
    · cases List.mem_singleton.1 hmem
      exact ⟨call, mem⟩
  realTime hsub hj := by
    rcases pair_sublist_snoc hsub with hsub | ⟨hlast, -⟩
    · exact h.realTime hsub hj
    · cases hlast

end Linearizes

def Occurrence.answer? : Occurrence → Option (Nat × Answer)
  | .called _ _ => none
  | .answered i answer => some (i, answer)

theorem countP_answers (history : List Occurrence) :
    (history.filterMap Occurrence.answer?).countP (fun x => x.2.isApplied) =
      history.countP Occurrence.isApplied := by
  rw [List.countP_filterMap]
  refine congrArg (List.countP · history) (funext fun o => ?_)
  cases o <;> rfl

/-- How far a call is that is under way: it has not taken effect, or it has its place. -/
inductive Stage (element : Decoder Value) (a : Atom) (held : Option (UInt64 × Value))
    (order : List Completed) (history : List Occurrence) (i : Nat) (p : Program Answer) : Prop
  | early {call : Call} (called : .called i call ∈ history)
      (absent : i ∉ order.map Completed.number) (isOpen : Open element a held call p)
  | late {call : Call} {answer : Answer} (mem : ⟨i, call, answer⟩ ∈ order)
      (settles : Settles p answer)

/-- What holds all through a race, with the order in which the calls have taken effect. -/
structure Race.Explained (element : Decoder Value) (a : Atom) (before : Option Value)
    (order : List Completed) (held : Option (UInt64 × Value)) (r : Race) : Prop where
  entry : r.backend.entry a.key = .ok (stored held)
  legible : ∀ {n v}, held = some (n, v) → element.ofBytes v.json.toBytes = .ok v
  linearizes : Linearizes a before r.history order (held.map Prod.snd)
  stage : ∀ {i p}, r.running i = some p → Stage element a held order r.history i p
  idle : ∀ {i answer}, .answered i answer ∈ r.history → r.running i = none
  settled : ∀ {x}, x ∈ order → r.running x.number = none →
    .answered x.number x.answer ∈ r.history
  once : (r.history.filterMap Occurrence.answer?).Nodup

theorem running_cases {α : Type} {running : Nat → Option α} {i j : Nat} {p q : Option α}
    (h : Function.update running i p j = q) : (j = i ∧ p = q) ∨ (j ≠ i ∧ running j = q) := by
  rcases eq_or_ne j i with rfl | hne
  · exact .inl ⟨rfl, (Function.update_self j p running).symm.trans h⟩
  · exact .inr ⟨hne, (Function.update_of_ne hne p running).symm.trans h⟩

namespace Race.Explained

variable {held held' : Option (UInt64 × Value)} {r r' : Race} {b : Backend}
  {p p' : Program Answer}

theorem start {n : UInt64} {v : Value} (entry : b.entry a.key = .ok (stored (some (n, v))))
    (legible : element.ofBytes v.json.toBytes = .ok v) :
    Explained element a (some v) [] (some (n, v)) ⟨b, fun _ => none, []⟩ where
  entry := entry
  legible hsome := by
    cases hsome
    exact legible
  linearizes := .start (some v)
  stage := nofun
  idle := nofun
  settled := nofun
  once := .nil

theorem unanswered (h : Explained element a before order held r) (was : r.running i = some p) :
    .answered i answer ∉ r.history := by
  intro hmem
  cases was.symm.trans (h.idle hmem)

theorem idle_update (h : Explained element a before order held r) (q : Option (Program Answer))
    (unanswered : ∀ {answer}, .answered i answer ∉ r.history) {j : Nat} {answer : Answer}
    (hmem : .answered j answer ∈ r.history) : Function.update r.running i q j = none := by
  have hne : j ≠ i := by
    rintro rfl
    exact unanswered hmem
  exact (Function.update_of_ne hne q r.running).trans (h.idle hmem)

theorem settled_update (h : Explained element a before order held r) {x : Completed}
    (hx : x ∈ order) (hnone : Function.update r.running i (some p) x.number = none) :
    .answered x.number x.answer ∈ r.history := by
  rcases running_cases hnone with ⟨-, hsome⟩ | ⟨-, hnone⟩
  · cases hsome
  · exact h.settled hx hnone

theorem begin (h : Explained element a before order held r)
    (new : ∀ c, .called i c ∉ r.history) (isOpen : Open element a held call p) :
    Explained element a before order held
      { r with
        running := Function.update r.running i (some p)
        history := r.history ++ [.called i call] } where
  entry := h.entry
  legible := h.legible
  linearizes := h.linearizes.begin call new
  stage hj := by
    rcases running_cases hj with ⟨rfl, hp⟩ | ⟨-, hj⟩
    · cases hp
      exact .early (by simp) (h.linearizes.absent_of_new new) isOpen
    · cases h.stage hj with
      | early called absent isOpen => exact .early (List.mem_append_left _ called) absent isOpen
      | late mem settles => exact .late mem settles
  idle {j answer} hmem := by
    have hearlier : .answered j answer ∈ r.history := by simpa using hmem
    refine h.idle_update _ (fun hanswered => ?_) hearlier
    exact h.linearizes.absent_of_new new (h.linearizes.mem_number hanswered)
  settled hx hnone := List.mem_append_left _ (h.settled_update hx hnone)
  once := by
    rw [List.filterMap_append]
    exact (List.append_nil _).symm ▸ h.once

/-- A call goes on and leaves what is stored alone. -/
theorem goesOn (h : Explained element a before order held r)
    (entry : b.entry a.key = .ok (stored held)) (was : r.running i = some p)
    (stage : Stage element a held order r.history i p') :
    Explained element a before order held
      { r with
        backend := b
        running := Function.update r.running i (some p') } where
  entry := entry
  legible := h.legible
  linearizes := h.linearizes
  stage hj := by
    rcases running_cases hj with ⟨rfl, hp⟩ | ⟨-, hj⟩
    · cases hp
      exact stage
    · exact h.stage hj
  idle := h.idle_update _ (h.unanswered was)
  settled := h.settled_update
  once := h.once

/-- A call takes effect: what was open for the others stays so. -/
theorem commit (h : Explained element a before order held r)
    (entry : b.entry a.key = .ok (stored held')) (was : r.running i = some p)
    (called : .called i call ∈ r.history) (absent : i ∉ order.map Completed.number)
    (advances : Advances held held')
    (legible : ∀ {n v}, held' = some (n, v) → element.ofBytes v.json.toBytes = .ok v)
    (yields : call.Yields a (held.map Prod.snd) answer (held'.map Prod.snd))
    (settles : Settles p' answer) :
    Explained element a before (order ++ [⟨i, call, answer⟩]) held'
      { r with
        backend := b
        running := Function.update r.running i (some p') } where
  entry := entry
  legible := legible
  linearizes := h.linearizes.commit called absent yields
  stage hj := by
    rcases running_cases hj with ⟨rfl, hp⟩ | ⟨hne, hj⟩
    · cases hp
      exact .late (List.mem_append_right _ (List.mem_singleton.2 rfl)) settles
    · cases h.stage hj with
      | early called absent isOpen =>
        refine .early called ?_ (isOpen.advance advances)
        rw [List.map_append]
        exact List.not_mem_append absent (by simpa using hne)
      | late mem settles => exact .late (List.mem_append_left _ mem) settles
  idle := h.idle_update _ (h.unanswered was)
  settled hx hnone := by
    rcases List.mem_append.1 hx with hx | hx
    · exact h.settled_update hx hnone
    · cases List.mem_singleton.1 hx
      rcases running_cases hnone with ⟨-, hsome⟩ | ⟨hne, -⟩
      · cases hsome
      · exact absurd rfl hne
  once := h.once

theorem reply (h : Explained element a before order held r) (mem : ⟨i, call, answer⟩ ∈ order)
    (was : r.running i = some p) :
    Explained element a before order held
      { r with
        running := Function.update r.running i none
        history := r.history ++ [.answered i answer] } where
  entry := h.entry
  legible := h.legible
  linearizes := h.linearizes.reply mem
  stage hj := by
    rcases running_cases hj with ⟨-, hnone⟩ | ⟨-, hj⟩
    · cases hnone
    · cases h.stage hj with
      | early called absent isOpen => exact .early (List.mem_append_left _ called) absent isOpen
      | late mem settles => exact .late mem settles
  idle {j answer'} hmem := by
    rcases List.mem_append.1 hmem with hmem | hmem
    · exact h.idle_update none (h.unanswered was) hmem
    · cases List.mem_singleton.1 hmem
      exact Function.update_self i none r.running
  settled {x} hx hnone := by
    rcases running_cases hnone with ⟨hi, -⟩ | ⟨-, hnone⟩
    · have hsame : x = ⟨i, call, answer⟩ :=
        List.inj_on_of_nodup_map h.linearizes.distinct hx mem hi
      subst hsame
      exact List.mem_append_right _ (List.mem_singleton.2 rfl)
    · exact List.mem_append_left _ (h.settled hx hnone)
  once := by
    rw [List.filterMap_append]
    refine List.nodup_append.2 ⟨h.once, List.pairwise_singleton _ _, ?_⟩
    rintro x hx y hy rfl
    cases List.mem_singleton.1 hy
    obtain ⟨o, ho, heq⟩ := List.mem_filterMap.1 hx
    cases o with
    | called => cases heq
    | answered j answer' =>
      cases heq
      exact h.unanswered was ho

theorem step (h : Explained element a before order held r) (s : r.Step element a r') :
    ∃ order' held', Explained element a before order' held' r' := by
  cases s with
  | @call i call s new => exact ⟨order, held, h.begin new (open_program element a s call held)⟩
  | @store i c next asks admits =>
    -- Only a call that has not taken effect asks the store, and only for the entry of the atom.
    cases h.stage asks with
    | early called absent isOpen =>
      obtain ⟨hkey, held', hstored, hanswers⟩ := isOpen.step h.legible
        (admits.legible called)
        fun hdata {n v} hheld => admits.room hdata (h.entry.trans (by rw [hheld]; rfl))
      have hentry : r.backend.entry c.key = .ok (stored held) := hkey ▸ h.entry
      obtain ⟨hanswer, hafter⟩ := Backend.run_act hentry
      rw [← hanswer] at hanswers
      rw [hkey, hstored] at hafter
      cases hanswers with
      | goesOn isOpen =>
        exact ⟨order, held, h.goesOn hafter asks (.early called absent isOpen)⟩
      | settles yields settles advances legible =>
        exact ⟨_, held', h.commit hafter asks called absent advances legible yields settles⟩
    | late mem settles => cases settles
  | pause asks =>
    refine ⟨order, held, h.goesOn h.entry asks ?_⟩
    cases h.stage asks with
    | early called absent isOpen =>
      cases isOpen with
      | pauses updates limit left micros =>
        exact .early called absent (.attempts updates limit left)
    | late mem settles =>
      cases settles with
      | pauses => exact .late mem (.done _)
  | answer done =>
    cases h.stage done with
    | early called absent isOpen => cases isOpen
    | late mem settles =>
      cases settles
      exact ⟨order, held, h.reply mem done⟩
  | other elsewhere =>
    exact ⟨order, held, { h with entry := (Backend.entry_run_of_ne _ elsewhere).trans h.entry }⟩

theorem run (h : Explained element a before order held r) (s : Race.Run element a r r') :
    ∃ order' held', Explained element a before order' held' r' := by
  induction s with
  | refl => exact ⟨order, held, h⟩
  | step _ next ih =>
    obtain ⟨order', held', h'⟩ := ih
    exact h'.step next

/-- The answers of the calls in their order are the answers that the callers have, and maybe some
that are under way. -/
theorem answers (h : Explained element a before order held r) :
    (order.map fun x => (x.number, x.answer)).Nodup ∧
      r.history.filterMap Occurrence.answer? ⊆ order.map fun x => (x.number, x.answer) := by
  constructor
  · have hnumbers := h.linearizes.distinct
    refine List.Nodup.of_map Prod.fst ?_
    rwa [List.map_map]
  · intro (i, answer) hmem
    obtain ⟨o, ho, heq⟩ := List.mem_filterMap.1 hmem
    cases o with
    | called => cases heq
    | answered j answer' =>
      cases heq
      obtain ⟨call, hcall⟩ := h.linearizes.answered ho
      exact List.mem_map.2 ⟨_, hcall, rfl⟩

theorem answers_of_quiet (h : Explained element a before order held r)
    (quiet : ∀ i, r.running i = none) :
    (order.map fun x => (x.number, x.answer)) ⊆ r.history.filterMap Occurrence.answer? := by
  intro (i, answer) hmem
  obtain ⟨x, hx, heq⟩ := List.mem_map.1 hmem
  cases heq
  exact List.mem_filterMap.2 ⟨_, h.settled hx (quiet _), rfl⟩

/-- As many calls have taken effect as applied as the callers know of, or more. -/
theorem countP_le (h : Explained element a before order held r) :
    r.history.countP Occurrence.isApplied ≤ order.countP fun x => x.answer.isApplied := by
  have hsub := List.subperm_of_subset h.once h.answers.2
  have hle := hsub.countP_le fun x => x.2.isApplied
  rwa [countP_answers, List.countP_map] at hle

theorem countP_eq (h : Explained element a before order held r)
    (quiet : ∀ i, r.running i = none) :
    order.countP (fun x => x.answer.isApplied) = r.history.countP Occurrence.isApplied := by
  have hsub := List.subperm_of_subset h.answers.1 (h.answers_of_quiet quiet)
  have hle := hsub.countP_le fun x => x.2.isApplied
  rw [countP_answers, List.countP_map] at hle
  exact Nat.le_antisymm hle h.countP_le

end Race.Explained

/-- An increment that is applied adds one to the size; nothing else that is allowed changes it. -/
theorem Call.Yields.size_eq {size : Value → Nat} {v : Value} {next : Option Value}
    (h : call.Yields a (some v) answer next) (increments : call.Increments size) :
    ∃ w, next = some w ∧ size w = size v + answer.isApplied.toNat := by
  cases h with
  | force => cases increments
  | free => cases increments
  | @set f v next flag updated => exact ⟨next, rfl, increments v flag next updated⟩
  | @applied f v next updated => exact ⟨next, rfl, increments v next updated⟩
  | _ => exact ⟨v, rfl, rfl⟩

theorem Replays.size_eq {size : Value → Nat} {v : Value}
    (h : Replays a (some v) order after) (increments : ∀ x ∈ order, x.call.Increments size) :
    ∃ w, after = some w ∧ size w = size v + order.countP fun x => x.answer.isApplied := by
  induction order generalizing v with
  | nil =>
    cases h
    exact ⟨v, rfl, rfl⟩
  | cons first rest ih =>
    cases h with
    | cons yields later =>
      obtain ⟨u, rfl, hu⟩ := yields.size_eq (increments first (by simp))
      obtain ⟨w, hafter, hw⟩ := ih later fun x hx => increments x (by simp [hx])
      refine ⟨w, hafter, ?_⟩
      rw [List.countP_cons, hw, hu]
      cases first.answer.isApplied with
      | false => simp
      | true =>
        simp
        omega

/-- Nothing is found of an atom after a call that freed it. -/
theorem Replays.freed_of_eq {x : Completed} {first later : List Completed}
    (h : Replays a before (first ++ x :: later) after) (free : x.call = .free)
    (done : x.answer = .done) :
    after = none ∧ ∀ y ∈ later, y.answer = .fault (.store (.notFound a.key.text)) := by
  induction first generalizing before with
  | nil =>
    cases h with
    | cons yields rest =>
      rw [free, done] at yields
      cases yields
      exact rest.freed
  | cons y first ih =>
    cases h with
    | cons _ rest => exact ih rest

theorem run_create (s : DataSettings) (v : Value) :
    (create s v).run = .ask .freshId fun id =>
      .ask (.store (.create ⟨s.mutableContainer, id.text⟩ v.json.toBytes)) fun answer =>
        .done (answer.map fun _ => ⟨⟨s.mutableContainer, id.text⟩⟩) := by
  refine congrArg (Program.ask .freshId) (funext fun id => ?_)
  refine congrArg (Program.ask (.store (.create _ _))) (funext fun answer => ?_)
  cases answer with
  | ok => rfl
  | error e => rfl

theorem entry_of_created {s : DataSettings} {v : Value} {session session' : Session}
    (created : session.run (create s v).run = (.ok a, session')) :
    session'.backend.entry a.key = .ok (some ⟨0, v.json.toBytes⟩) := by
  rw [run_create] at created
  let key : Key := ⟨s.mutableContainer, (Uuid.fresh session.nextId).text⟩
  let result := session.backend.run (.create key v.json.toBytes)
  have hbackend : result.2 = session'.backend := congrArg (fun x => x.2.backend) created
  have hanswer : (result.1.map fun _ => (⟨key⟩ : Atom)) = .ok a := congrArg Prod.fst created
  cases hresult : result.1 with
  | error e =>
    rw [hresult] at hanswer
    cases hanswer
  | ok =>
    rw [hresult] at hanswer
    cases hanswer
    exact hbackend ▸ Backend.entry_of_created hresult

/-- What an order of calls tells of a race for an atom that was made with a value. -/
structure Race.OrderedBy (a : Atom) (v : Value) (r : Race) (order : List Completed)
    (after : Option Value) : Prop where
  linearizes : Linearizes a (some v) r.history order after
  stored : (r.backend.run (.get a.key)).1 = .ok (after.map fun w => w.json.toBytes)
  freed : ∀ {first later : List Completed} {x}, order = first ++ x :: later → x.call = .free →
    x.answer = .done →
    after = none ∧ ∀ y ∈ later, y.answer = .fault (.store (.notFound a.key.text))
  counted : ∀ {size : Value → Nat},
    (∀ {i call}, .called i call ∈ r.history → call.Increments size) →
    ∃ w, after = some w ∧ size v + r.history.countP Occurrence.isApplied ≤ size w ∧
      ((∀ i, r.running i = none) → size w = size v + r.history.countP Occurrence.isApplied)

theorem Race.Explained.orderedBy {v : Value} {held : Option (UInt64 × Value)} {r : Race}
    (h : r.Explained element a (some v) order held) :
    r.OrderedBy a v order (held.map Prod.snd) where
  linearizes := h.linearizes
  stored := by
    obtain ⟨hanswer, -⟩ := Backend.run_act (c := .get a.key) h.entry
    rw [hanswer]
    cases held <;> rfl
  freed heq free done := by
    have hreplays := h.linearizes.replays
    rw [heq] at hreplays
    exact hreplays.freed_of_eq free done
  counted increments := by
    obtain ⟨w, hw, hsize⟩ := h.linearizes.replays.size_eq fun x hx =>
      increments (h.linearizes.called hx)
    have hle := h.countP_le
    refine ⟨w, hw, by omega, fun quiet => ?_⟩
    rw [hsize, h.countP_eq quiet]

/-- Atoms are linearizable. -/
theorem race_linearizable {element : Decoder Value} {s : DataSettings} {v : Value} {a : Atom}
    {session session' : Session} {r : Race}
    (created : session.run (create s v).run = (.ok a, session'))
    (legible : element.ofBytes v.json.toBytes = .ok v)
    (run : Race.Run element a ⟨session'.backend, fun _ => none, []⟩ r) :
    ∃ order after, r.OrderedBy a v order after := by
  have started := Race.Explained.start (entry_of_created created) legible
  obtain ⟨order, held, explained⟩ := started.run run
  exact ⟨order, held.map Prod.snd, explained.orderedBy⟩

/-- A transaction reads the value before the atom is freed and writes nothing after. -/
theorem race_linearizable_freed :
    ∃ (a : Atom) (b : Backend) (r : Race), Race.Run Decoder.value a ⟨b, fun _ => none, []⟩ r ∧
      [.answered 1 .done, .answered 0 (.fault (.store (.notFound a.key.text)))] <:+ r.history ∧
      ∃ order after, r.OrderedBy a .null order after := by
  let s := DataSettings.ofParts "data" 1 0
  let session : Session := ⟨.memory .empty, .empty, 0, 0⟩
  let a : Atom := ⟨⟨s.mutableContainer, (Uuid.fresh 0).text⟩⟩
  let update : Value → Reply (Bool × Value) := fun _ => .ok (true, .null)
  have legible : Decoder.value.ofBytes Value.null.json.toBytes = .ok .null := by cbv
  have created : session.run (create s .null).run =
      (.ok a, (session.run (create s .null).run).2) := rfl
  have present := entry_of_created created
  have reads : Call.program Decoder.value s a (.transact update) =
      .ask (.store (.getVersioned a.key)) fun answer =>
        Answer.ofTransaction .applied <$> found Decoder.value a update 1 0 answer :=
    congrArg (Answer.ofTransaction .applied <$> ·) (run_attempts Decoder.value a update 1 0)
  have swaps : ∀ answer, answer = .ok (some ⟨0, Value.null.json.toBytes⟩) →
      Answer.ofTransaction .applied <$> found Decoder.value a update 1 0 answer =
        .ask (.store (.compareAndSwap a.key 0 Value.null.json.toBytes)) fun answer =>
          Answer.ofTransaction .applied <$> written Decoder.value a update 1 0 answer := by
    rintro answer rfl
    simp only [found, legible]
    rfl
  have misses : ∀ answer, answer = .error (.notFound a.key.text) →
      Answer.ofTransaction .applied <$> written Decoder.value a update 1 0 answer =
        .done (.fault (.store (.notFound a.key.text))) := by
    rintro answer rfl
    rfl
  obtain ⟨next, deletes, hdone⟩ : ∃ next, Call.program Decoder.value s a .free =
      .ask (.store (.delete a.key)) next ∧ next (.ok true) = .done .done := ⟨_, rfl, rfl⟩
  have first := (Race.Run.refl _).step (@Race.Step.call Decoder.value a
    ⟨(session.run (create s .null).run).2.backend, fun _ => none, []⟩ 0 (.transact update) s
    (by simp))
  have both := first.step (@Race.Step.call Decoder.value a _ 1 .free s (by simp))
  have read := both.step (@Race.Step.store Decoder.value a _ 0 (.getVersioned a.key) _
    (congrArg some reads) (Race.admits_of_data?_eq_none rfl))
  obtain ⟨hread, present⟩ := Backend.run_act (c := .getVersioned a.key) present
  have freed := read.step (@Race.Step.store Decoder.value a _ 1 (.delete a.key) next
    (congrArg some deletes) (Race.admits_of_data?_eq_none rfl))
  obtain ⟨hdeleted, absent⟩ := Backend.run_act (c := .delete a.key) present
  have declined := freed.step (@Race.Step.store Decoder.value a _ 0
    (.compareAndSwap a.key 0 Value.null.json.toBytes) _ (congrArg some (swaps _ hread))
    ⟨fun {call v} hcalled hwrites _ => by
      obtain rfl : call = .transact update := by simpa using hcalled
      cases hwrites with
      | transact updated =>
        cases updated
        exact legible, fun _ {e} he => by cases he.symm.trans absent⟩)
  obtain ⟨hmissed, -⟩ := Backend.run_act
    (c := .compareAndSwap a.key 0 Value.null.json.toBytes) absent
  have answered := declined.step (@Race.Step.answer Decoder.value a _ 1 .done
    (congrArg some ((congrArg next hdeleted).trans hdone)))
  have complete := answered.step (@Race.Step.answer Decoder.value a _ 0 _
    (congrArg some (misses _ hmissed)))
  exact ⟨a, _, _, complete, List.suffix_append [_, _] [_, _],
    race_linearizable created legible complete⟩

end Atom

end WorkflowEngine
