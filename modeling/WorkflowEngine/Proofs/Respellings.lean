import Mathlib
import WorkflowEngine.Proofs.ReadTexts
import WorkflowEngine.Proofs.Spellings
import WorkflowEngine.Proofs.WorkflowCodec
/-!
The spellings of workflows. Every record in a workflow may be written as an object with its entries
in any order and with others between them, or as an array; what has a default may be left out, and a
kind of errors without a tag may be written with a null. All spellings that can be read are decoded
as the workflow.
-/
set_option autoImplicit false

namespace WorkflowEngine

variable {n : Nat}

/-! ## Handles and functions -/

namespace Key

def components (k : Key) : List Component :=
  [.string "container" k.container, .string "name" k.name]

abbrev Spelt (k : Key) : Json → Prop := Spells k.components

theorem spelt_toJson (k : Key) : k.Spelt k.toJson := by
  simp [components, toJson, Json.valuesAt, Component.string]

theorem accepts (k : Key) : Key.decoder.Accepts n k.Spelt k :=
  Decoder.accepts_record_within _ <| (Layout.accepts_pure n _)
    |>.required (Decoder.restores_string k.container).accepts
    |>.required (Decoder.restores_string k.name).accepts

end Key

namespace Cell

def components (c : Cell) : List Component := [{ name := "key", Written := c.key.Spelt }]

abbrev Spelt (c : Cell) : Json → Prop := Spells c.components

theorem spelt_toJson (c : Cell) : c.Spelt c.toJson := by
  simp [components, toJson, Json.valuesAt, c.key.spelt_toJson]

theorem accepts (c : Cell) : Cell.decoder.Accepts n c.Spelt c :=
  Decoder.accepts_record_within _ <| (Layout.accepts_pure n _).required c.key.accepts

end Cell

namespace Atom

def components (a : Atom) : List Component := [{ name := "key", Written := a.key.Spelt }]

abbrev Spelt (a : Atom) : Json → Prop := Spells a.components

theorem spelt_toJson (a : Atom) : a.Spelt a.toJson := by
  simp [components, toJson, Json.valuesAt, a.key.spelt_toJson]

theorem accepts (a : Atom) : Atom.decoder.Accepts n a.Spelt a :=
  Decoder.accepts_record_within _ <| (Layout.accepts_pure n _).required a.key.accepts

end Atom

namespace Sequence

def components (q : Sequence) : List Component :=
  [{ name := "key", Written := q.key.Spelt }, .count "len" q.length,
    .count "chunk_size" q.chunkSize]

abbrev Spelt (q : Sequence) : Json → Prop := Spells q.components

theorem spelt_toJson (q : Sequence) : q.Spelt q.toJson := by
  simp [components, toJson, Json.valuesAt, Component.count, q.key.spelt_toJson]

theorem accepts (q : Sequence) : Sequence.decoder.Accepts n q.Spelt q := by
  have parts : (Decoder.record "struct SequenceHandle" layout).Accepts n q.Spelt
      (q.key, q.length, q.chunkSize) :=
    Decoder.accepts_record_within _ <| (Layout.accepts_pure n _)
      |>.required q.key.accepts
      |>.required (Decoder.restores_uint64 _ q.length).accepts
      |>.required (Decoder.restores_uint64 _ q.chunkSize).accepts
  exact parts.refine (dif_neg q.chunkSize_ne_zero)

end Sequence

namespace PartitionVector

def components (v : PartitionVector) : List Component :=
  [.list "partitions" Sequence.Spelt v.partitions]

abbrev Spelt (v : PartitionVector) : Json → Prop := Spells v.components

theorem spelt_toJson (v : PartitionVector) : v.Spelt v.toJson := by
  simp [components, toJson, Json.valuesAt, Component.list, Sequence.spelt_toJson]

theorem accepts (v : PartitionVector) : PartitionVector.decoder.Accepts n v.Spelt v :=
  Decoder.accepts_record_within _ <|
    (Layout.accepts_pure n _).required (Decoder.accepts_list fun q _ => q.accepts)

end PartitionVector

namespace FunctionRef

/-- What a function captured may be left out if it is null. -/
def components (f : FunctionRef) : List Component :=
  [.string "name" f.name,
    { name := "env", Written := (Value.ofJson · = f.env), Omissible := f.env = .null }]

abbrev Spelt (f : FunctionRef) : Json → Prop := Spells f.components

theorem spelt_toJson (f : FunctionRef) : f.Spelt f.toJson := by
  simp [components, toJson, Json.valuesAt, Component.string]

theorem accepts (f : FunctionRef) : FunctionRef.decoder.Accepts n f.Spelt f :=
  Decoder.accepts_record_within _ <| (Layout.accepts_pure n _)
    |>.required (Decoder.restores_string f.name).accepts
    |>.defaulted (Decoder.accepts_value f.env) Eq.symm

end FunctionRef

/-! ## Errors -/

/-- A kind without a tag may also be written as an object with null. -/
inductive ErrorKind.Spelt (kind : ErrorKind) : Json → Prop
  | plain : Spelt kind kind.toJson
  | withNull (untagged : ∀ tag, kind ≠ .user tag) : Spelt kind (.object [(kind.text, .null)])

theorem ErrorKind.accepts (kind : ErrorKind) : ErrorKind.decoder.Accepts n kind.Spelt kind := by
  rintro _ (_ | untagged) -
  · exact kind.reads.restores .kept trivial
  · cases kind with
    | user tag => exact absurd rfl (untagged tag)
    | evaluation | store | notFound | unknownFunction | serialization | transport => rfl

namespace WorkflowError

def components (e : WorkflowError) : List Component :=
  [{ name := "kind", Written := e.kind.Spelt }, .string "message" e.message,
    { name := "payload", Written := fun j => some (Value.ofJson j) = e.payload,
      Omissible := e.payload = none }]

abbrev Spelt (e : WorkflowError) : Json → Prop := Spells e.components

theorem spelt_toJson (e : WorkflowError) : e.Spelt e.toJson := by
  cases h : e.payload <;>
    simp [components, toJson, Json.valuesAt, Component.string, ErrorKind.Spelt.plain, h]

theorem accepts {e : WorkflowError} (h : e.payload ≠ some Value.null) :
    WorkflowError.decoder.Accepts n e.Spelt e := by
  have payload : Decoder.value.optional.Accepts n (fun j => some (Value.ofJson j) = e.payload)
      e.payload := by
    cases hv : e.payload with
    | none => exact fun j hj => nomatch hj
    | some v =>
      have present : ¬ Value.ofJson .null = v := fun null => h (hv.trans (congrArg some null.symm))
      intro j hj within
      exact (Decoder.accepts_value v).optional present j (Option.some.inj hj) within
  exact Decoder.accepts_record_within _ <| (Layout.accepts_pure n _)
    |>.required e.kind.accepts
    |>.required (Decoder.restores_string e.message).accepts
    |>.defaulted payload Eq.symm

end WorkflowError

/-! ## Operations -/

namespace Operation

/-- The fields of an operation. The name of a new cell is left out if it has none. -/
def components : Operation → List Component
  | .sleep millis => [.count "millis" millis]
  | .log message => [.string "message" message]
  | .logFormat format args => [.string "format" format, .values "args" args]
  | .workerCount | .processId | .workerId => []
  | .invoke function arg => [.string "function" function, .value "arg" arg]
  | .cellNew value name =>
    [.value "value" value,
      { name := "name", Written := (∃ s, name = some s ∧ · = .string s),
        Omissible := name = none }]
  | .cellValue cell => [{ name := "cell", Written := cell.Spelt }]
  | .cellParse name => [.string "name" name]
  | .sequenceNew items => [.values "items" items]
  | .sequenceItems sequence => [{ name := "sequence", Written := sequence.Spelt }]
  | .sequenceGet sequence index =>
    [{ name := "sequence", Written := sequence.Spelt }, .count "index" index]
  | .vectorOf partitions => [.list "partitions" Sequence.Spelt partitions]
  | .vectorItems vector => [{ name := "vector", Written := vector.Spelt }]
  | .atomNew value => [.value "value" value]
  | .atomRead atom | .atomFree atom => [{ name := "atom", Written := atom.Spelt }]
  | .atomSet atom update | .atomTransact atom update =>
    [{ name := "atom", Written := atom.Spelt }, { name := "update", Written := update.Spelt }]
  | .atomForce atom value => [{ name := "atom", Written := atom.Spelt }, .value "value" value]

def Spelt (op : Operation) : Json → Prop := Tagged "op" op.parts.1 op.components

theorem spelt_toJson (op : Operation) : op.Spelt op.toJson := by
  cases op with
  | cellNew v name =>
    cases name <;>
      simp [Spelt, Tagged, components, toJson, parts, Json.valuesAt, Component.value]
  | _ =>
    simp [Spelt, Tagged, components, toJson, parts, Json.valuesAt, valuesJson, Component.string,
      Component.count, Component.value, Component.values, Component.list, Cell.spelt_toJson,
      Atom.spelt_toJson, Sequence.spelt_toJson, PartitionVector.spelt_toJson,
      FunctionRef.spelt_toJson]

theorem accepts_values (vs : List Value) :
    Decoder.value.list.Accepts n (Component.values "" vs).Written vs :=
  Decoder.accepts_list fun v _ => Decoder.accepts_value v

theorem accepts_name (name : Option String) :
    Decoder.string.optional.Accepts n (fun j => ∃ s, name = some s ∧ j = .string s) name := by
  rintro _ ⟨s, rfl, rfl⟩ -
  rfl

/-- The name of an operation is that of the variant that accepts the spellings of its fields. -/
theorem exists_accepting (op : Operation) :
    ∃ variant, Variant.find variants op.parts.1 = .ok variant ∧
      variant.content.Accepts n (Spells op.components) op := by
  have pure {α : Type} (a : α) := Layout.accepts_pure n a
  have string (s : String) := (Decoder.restores_string s).accepts (n := n)
  have value (v : Value) := Decoder.accepts_value (n := n) v
  cases op with
  | sleep millis =>
    exact ⟨_, rfl, Decoder.accepts_record_within _ <| (pure _)
      |>.required (Decoder.restores_uint64 _ millis).accepts⟩
  | log message =>
    exact ⟨_, rfl, Decoder.accepts_record_within _ <| (pure _).required (string message)⟩
  | logFormat format args =>
    exact ⟨_, rfl, Decoder.accepts_record_within _ <| (pure _)
      |>.required (string format)
      |>.required (accepts_values args)⟩
  | workerCount => exact ⟨_, rfl, Decoder.accepts_empty _ _⟩
  | processId => exact ⟨_, rfl, Decoder.accepts_empty _ _⟩
  | workerId => exact ⟨_, rfl, Decoder.accepts_empty _ _⟩
  | invoke function arg =>
    exact ⟨_, rfl, Decoder.accepts_record_within _ <| (pure _)
      |>.required (string function)
      |>.required (value arg)⟩
  | cellNew v name =>
    exact ⟨_, rfl, Decoder.accepts_record_within _ <| (pure _)
      |>.required (value v)
      |>.defaulted (accepts_name name) Eq.symm⟩
  | cellValue cell =>
    exact ⟨_, rfl, Decoder.accepts_record_within _ <| (pure _).required cell.accepts⟩
  | cellParse name =>
    exact ⟨_, rfl, Decoder.accepts_record_within _ <| (pure _).required (string name)⟩
  | sequenceNew items =>
    exact ⟨_, rfl, Decoder.accepts_record_within _ <| (pure _).required (accepts_values items)⟩
  | sequenceItems sequence =>
    exact ⟨_, rfl, Decoder.accepts_record_within _ <| (pure _).required sequence.accepts⟩
  | sequenceGet sequence index =>
    exact ⟨_, rfl, Decoder.accepts_record_within _ <| (pure _)
      |>.required sequence.accepts
      |>.required (Decoder.restores_uint64 _ index).accepts⟩
  | vectorOf partitions =>
    exact ⟨_, rfl, Decoder.accepts_record_within _ <| (pure _)
      |>.required (Decoder.accepts_list fun q _ => q.accepts)⟩
  | vectorItems vector =>
    exact ⟨_, rfl, Decoder.accepts_record_within _ <| (pure _).required vector.accepts⟩
  | atomNew v => exact ⟨_, rfl, Decoder.accepts_record_within _ <| (pure _).required (value v)⟩
  | atomRead atom =>
    exact ⟨_, rfl, Decoder.accepts_record_within _ <| (pure _).required atom.accepts⟩
  | atomSet atom update =>
    exact ⟨_, rfl, Decoder.accepts_record_within _ <| (pure _)
      |>.required atom.accepts
      |>.required update.accepts⟩
  | atomForce atom v =>
    exact ⟨_, rfl, Decoder.accepts_record_within _ <| (pure _)
      |>.required atom.accepts
      |>.required (value v)⟩
  | atomTransact atom update =>
    exact ⟨_, rfl, Decoder.accepts_record_within _ <| (pure _)
      |>.required atom.accepts
      |>.required update.accepts⟩
  | atomFree atom =>
    exact ⟨_, rfl, Decoder.accepts_record_within _ <| (pure _).required atom.accepts⟩

theorem apart (op : Operation) : ∀ c ∈ op.components, c.name ≠ "op" := by
  cases op <;> simp [components, Component.string, Component.count, Component.value,
    Component.values, Component.list]

theorem accepts (op : Operation) : Operation.decoder.Accepts n op.Spelt op := by
  obtain ⟨variant, known, content⟩ := op.exists_accepting
  exact fun j spelt within =>
    (Decoder.tagged_of_spelling known op.apart content spelt within).kept

end Operation

/-! ## Workflows -/

namespace Workflow

mutual
/-- The spellings of a workflow. -/
def Spelt : Workflow → Json → Prop
  | .ret value => Tagged "type" "return" [.value "value" value]
  | .bind body f => Tagged "type" "bind"
      [{ name := "workflow", Written := body.Spelt },
        { name := "continuation", Written := f.Spelt }]
  | .parallel children => Tagged "type" "parallel"
      [{ name := "workflows", Written := (∃ js, · = .array js ∧ AllSpelt children js) }]
  | .choice children => Tagged "type" "choice"
      [{ name := "workflows", Written := (∃ js, · = .array js ∧ AllSpelt children js) }]
  | .perform op => Tagged "type" "of_external_async" [{ name := "op", Written := op.Spelt }]
  | .tryWith body f => Tagged "type" "try_with"
      [{ name := "body", Written := body.Spelt }, { name := "handler", Written := f.Spelt }]
  | .raise error => Tagged "type" "raise" [{ name := "error", Written := error.Spelt }]

def AllSpelt : List Workflow → List Json → Prop
  | [], js => js = []
  | w :: ws, js => ∃ j rest, w.Spelt j ∧ AllSpelt ws rest ∧ js = j :: rest
end

theorem allSpelt_iff {ws : List Workflow} {js : List Json} :
    AllSpelt ws js ↔ List.Forall₂ Spelt ws js := by
  induction ws generalizing js with
  | nil => exact List.forall₂_nil_left_iff.symm
  | cons w ws ih => simp only [AllSpelt, List.forall₂_cons_left_iff, ih]

mutual
theorem spelt_toJson : (w : Workflow) → w.Spelt w.toJson
  | .ret value => by simp [Spelt, Tagged, toJson, Json.valuesAt, Component.value]
  | .bind body f => by
    simp [Spelt, Tagged, toJson, Json.valuesAt, body.spelt_toJson, f.spelt_toJson]
  | .parallel children | .choice children => by
    simp [Spelt, Tagged, toJson, Json.valuesAt, allSpelt_toJson children]
  | .perform op => by simp [Spelt, Tagged, toJson, Json.valuesAt, op.spelt_toJson]
  | .tryWith body f => by
    simp [Spelt, Tagged, toJson, Json.valuesAt, body.spelt_toJson, f.spelt_toJson]
  | .raise error => by simp [Spelt, Tagged, toJson, Json.valuesAt, error.spelt_toJson]

theorem allSpelt_toJson : (ws : List Workflow) → AllSpelt ws (allToJson ws)
  | [] => rfl
  | w :: ws => by simp [AllSpelt, allToJson, w.spelt_toJson, allSpelt_toJson ws]
end

theorem accepts_all {ws : List Workflow} (h : ∀ w ∈ ws, (decoderTo n).Accepts n w.Spelt w) :
    (decoderTo n).list.Accepts n (fun j => ∃ js, j = .array js ∧ AllSpelt ws js) ws := by
  simp only [allSpelt_iff]
  exact Decoder.accepts_list h

/-- A spelling of a tagged record is decoded within as many levels as it is deep. -/
theorem decoderTo_of_spelling {name : String} {cs : List Component} {w : Workflow} {j : Json}
    (spelt : Tagged "type" name cs j) (within : j.depth ≤ n) (apart : ∀ c ∈ cs, c.name ≠ "type")
    (content : ∀ m, ∃ variant, Variant.find (variants (decoderTo m)) name = .ok variant ∧
      variant.content.Accepts (m + 1) (Spells cs) w) : (decoderTo n).Reads j w := by
  have pos := spelt.depth_pos
  obtain ⟨m, rfl⟩ : ∃ m, n = m + 1 := ⟨n - 1, by omega⟩
  obtain ⟨variant, known, content⟩ := content m
  exact Decoder.tagged_of_spelling known apart content spelt within

mutual
/-- The spellings of a workflow are decoded wherever there is room for them, and nowhere else,
unless the payload of an error is null. -/
theorem decoderTo_spelt : (w : Workflow) → (quiet : ¬ w.RaisesNull) → {n : Nat} → {j : Json} →
    (spelt : w.Spelt j) → (within : j.depth ≤ n) → (decoderTo n).Reads j w
  | .ret value, _, _, _, spelt, within =>
    decoderTo_of_spelling spelt within (by simp [Component.value]) fun m =>
      ⟨_, rfl, Decoder.accepts_record _ <|
        (Layout.accepts_pure m _).required (Decoder.accepts_value value)⟩
  | .bind body f, quiet, _, _, spelt, within =>
    decoderTo_of_spelling spelt within (by simp) fun m =>
      ⟨_, rfl, Decoder.accepts_record _ <| (Layout.accepts_pure m _)
        |>.required (fun _ inner depth => (decoderTo_spelt body quiet inner depth).kept)
        |>.required f.accepts⟩
  | .parallel children, quiet, _, _, spelt, within =>
    decoderTo_of_spelling spelt within (by simp) fun m =>
      ⟨_, rfl, Decoder.accepts_record _ <|
        (Layout.accepts_pure m _).required (accepts_all (allAccepts children quiet))⟩
  | .choice children, quiet, _, _, spelt, within =>
    decoderTo_of_spelling spelt within (by simp) fun m =>
      ⟨_, rfl, Decoder.accepts_record _ <|
        (Layout.accepts_pure m _).required (accepts_all (allAccepts children quiet))⟩
  | .perform op, _, _, _, spelt, within =>
    decoderTo_of_spelling spelt within (by simp) fun m =>
      ⟨_, rfl, Decoder.accepts_record _ <| (Layout.accepts_pure m _).required op.accepts⟩
  | .tryWith body f, quiet, _, _, spelt, within =>
    decoderTo_of_spelling spelt within (by simp) fun m =>
      ⟨_, rfl, Decoder.accepts_record _ <| (Layout.accepts_pure m _)
        |>.required (fun _ inner depth => (decoderTo_spelt body quiet inner depth).kept)
        |>.required f.accepts⟩
  | .raise error, quiet, _, _, spelt, within =>
    decoderTo_of_spelling spelt within (by simp) fun m =>
      ⟨_, rfl, Decoder.accepts_record _ <|
        (Layout.accepts_pure m _).required (WorkflowError.accepts quiet)⟩

theorem allAccepts : (ws : List Workflow) → (quiet : ¬ SomeRaisesNull ws) → {n : Nat} →
    ∀ w ∈ ws, (decoderTo n).Accepts n w.Spelt w
  | [], _, _ => fun _ hw => nomatch hw
  | w :: ws, quiet, _ => List.forall_mem_cons.2
      ⟨fun _ spelt within => (decoderTo_spelt w (fun h => quiet (.inl h)) spelt within).kept,
        allAccepts ws fun h => quiet (.inr h)⟩
end

theorem decoder_spelt {w : Workflow} (quiet : ¬ w.RaisesNull) {j : Json} (spelt : w.Spelt j) :
    decoder.Reads j w := by
  have within : j.depth ≤ (Json.Draft.ofJson j).depth + 1 := by
    rw [Json.Draft.depth_ofJson]
    exact Nat.le_succ _
  exact decoderTo_spelt w quiet spelt within

/-- Texts that are read as spellings of a workflow are decoded as it. -/
theorem decode_of_spelling {w : Workflow} (quiet : ¬ w.RaisesNull) {text : String} {j : Json}
    (read : Json.read text = .ok j) (spelt : w.Spelt j) : decode text = .ok w := by
  have room : (Source.text Json.depthLimit).Holds j.depth := (Json.ofChars_of_read read).1
  rw [decode, Decoder.ofText_of_read decoder read, (decoder_spelt quiet spelt).restores _ room]
  rfl

/-- The text of a spelling is decoded unless it is too deep. -/
theorem decode_text_of_spelling {w : Workflow} (quiet : ¬ w.RaisesNull) {j : Json}
    (exact : j.Exact) (spelt : w.Spelt j) :
    decode j.text = if j.depth ≤ Json.depthLimit then .ok w
      else .error (.ofDecode (.malformed .tooDeep)) := by
  unfold decode
  rw [Decoder.ofText_text _ exact, decoder_spelt quiet spelt]
  by_cases room : (Source.text Json.depthLimit).Holds j.depth
  · rw [if_pos room, if_pos (show j.depth ≤ Json.depthLimit from room)]
    rfl
  · rw [if_neg room, if_neg (show ¬ j.depth ≤ Json.depthLimit from room)]
    rfl

/-- The document of a workflow is one of its spellings, and unless an error has null as its payload
all of them stand for the workflow: any text that is read as one of them is decoded as the workflow,
and the text of each with numbers that stand for themselves is decoded unless it is too deep. -/
theorem decode_respelt (w : Workflow) (quiet : ¬ w.RaisesNull) :
    w.Spelt w.toJson ∧
      (∀ text j, Json.read text = .ok j → w.Spelt j → decode text = .ok w) ∧
      ∀ j, w.Spelt j → j.Exact → decode j.text =
        if j.depth ≤ Json.depthLimit then .ok w else .error (.ofDecode (.malformed .tooDeep)) :=
  ⟨w.spelt_toJson, fun _ _ read spelt => decode_of_spelling quiet read spelt,
    fun _ spelt exact => decode_text_of_spelling quiet exact spelt⟩

set_option maxRecDepth 4000 in
/-- A handler as an array without what it captured, an entry more, the tag behind other entries, a
choice as an array, and an error with its entries and its kind written in another way. -/
theorem decode_respelt_handler :
    ∃ w : Workflow, ¬ w.RaisesNull ∧ decode
      (" \x7b\"handler\":[\"f\\u006f\"],\"x\":[],\"type\":\"try_with\"," ++
        "\"body\":[\"choice\",[[\"return\",true],\x7b\"error\":" ++
        "\x7b\"message\":\"m\",\"kind\":\x7b\"store\":null\x7d\x7d,\"type\":\"raise\"\x7d]]\x7d") =
      .ok w := by
  let w : Workflow :=
    .tryWith (.choice [.ret (.bool true), .raise (.store "m")]) ⟨"fo", .null⟩
  let error : Json :=
    .object [("message", .string "m"), ("kind", .object [("store", .null)])]
  let j : Json := .object [("handler", .array [.string "fo"]), ("x", .array []),
    ("type", .string "try_with"), ("body", .array [.string "choice", .array [
      .array [.string "return", .bool true],
      .object [("error", error), ("type", .string "raise")]]])]
  have quiet : ¬ w.RaisesNull := by
    simp [w, RaisesNull, SomeRaisesNull, WorkflowError.store]
  have value : Value.ofJson (.bool true) = .bool true := rfl
  have kind : ErrorKind.store.Spelt (.object [("store", .null)]) := .withNull (by simp)
  have spelt : w.Spelt j := by
    simp [w, j, error, Spelt, Tagged, AllSpelt, Json.valuesAt, FunctionRef.Spelt,
      FunctionRef.components, WorkflowError.components, WorkflowError.store, Component.string,
      Component.value, value, kind]
  exact ⟨w, quiet, (decode_respelt w quiet).2.1 _ j (by cbv) spelt⟩

theorem kind_of_decode_error {text : String} {e : WorkflowError} (h : decode text = .error e) :
    e.kind = .serialization := by
  unfold decode at h
  cases hdecoded : decoder.ofText text with
  | error cause =>
    rw [hdecoded] at h
    cases h
    rfl
  | ok w =>
    rw [hdecoded] at h
    cases h

/-- A document inside choices of one branch each. -/
def branched : Nat → Json → Json
  | 0, j => j
  | n + 1, j => .object [("type", .string "choice"), ("workflows", .array [branched n j])]

theorem depth_branched (n : Nat) (j : Json) : (branched n j).depth = j.depth + 2 * n := by
  induction n with
  | zero => rfl
  | succ n ih =>
    simp only [branched, Json.depth, Json.depthEntries, Json.depthItems, ih]
    omega

theorem exact_branched {j : Json} (h : j.Exact) (n : Nat) : (branched n j).Exact := by
  induction n with
  | zero => exact h
  | succ n ih => exact ⟨trivial, ⟨ih, trivial⟩, trivial⟩

/-- An error of the store, whose kind is written in some way, under a continuation. -/
def failing (kind : Json) : Json :=
  .object [("type", .string "bind"),
    ("workflow", .object [("type", .string "raise"),
      ("error", .object [("kind", kind), ("message", .string "gone")])]),
    ("continuation", .object [("name", .string "f"), ("env", .null)])]

theorem spelt_branched (n : Nat) : ∃ w : Workflow, ¬ w.RaisesNull ∧
    w.toJson = branched n (failing (.string "store")) ∧
    w.Spelt (branched n (failing (.object [("store", .null)]))) := by
  induction n with
  | zero =>
    have kind : ErrorKind.store.Spelt (.object [("store", .null)]) := .withNull (by simp)
    have null : Value.ofJson .null = .null := rfl
    refine ⟨.bind (.raise (.store "gone")) ⟨"f", .null⟩, ?_, rfl, ?_⟩
    · simp [RaisesNull, WorkflowError.store]
    · simp [branched, failing, Spelt, Tagged, Json.valuesAt, FunctionRef.components,
        WorkflowError.components, WorkflowError.store, Component.string, kind, null]
  | succ n ih =>
    obtain ⟨w, quiet, written, spelt⟩ := ih
    refine ⟨.choice [w], ?_, ?_, ?_⟩
    · simp [RaisesNull, SomeRaisesNull, quiet]
    · simp [toJson, allToJson, branched, written]
    · simp [branched, Spelt, Tagged, AllSpelt, Json.valuesAt, spelt]

/-- A kind of errors with a null is one container deeper than the kind alone, an entry that nothing
asks for must be readable all the same, and some doubles are read from their own text as others. -/
theorem respelling_refused :
    (∃ w : Workflow, ¬ w.RaisesNull ∧ w.toJson = branched 62 (failing (.string "store")) ∧
      decode w.encode = .ok w ∧
      ∃ e, decode (branched 62 (failing (.object [("store", .null)]))).text = .error e ∧
        e.kind = .serialization) ∧
    (encode (.ret .null) = "\x7b\"type\":\"return\",\"value\":null\x7d" ∧
      ∃ e, decode "\x7b\"type\":\"return\",\"value\":null,\"extra\":1e999\x7d" = .error e ∧
        e.kind = .serialization) ∧
    ∃ x : Double,
      encode (.ret (.number (.float x))) =
        "\x7b\"type\":\"return\",\"value\":0.9090909090909091\x7d" ∧
      decode (encode (.ret (.number (.float x)))) ≠ .ok (.ret (.number (.float x))) := by
  refine ⟨?_, ⟨by decide +kernel, ?_⟩, ⟨false, 0x1d1745d1745d17, -53, by decide⟩,
    by decide +kernel, fun same => ?_⟩
  · obtain ⟨w, quiet, written, spelt⟩ := spelt_branched 62
    have exact (kind : Json) (h : kind.Exact) : (branched 62 (failing kind)).Exact :=
      exact_branched (by simp [failing, Json.Exact, Json.EntriesExact, h]) 62
    have fits : w.toJson.depth ≤ Json.depthLimit := by
      rw [written, depth_branched]
      decide
    have deep : ¬ (branched 62 (failing (.object [("store", .null)]))).depth ≤
        Json.depthLimit := by
      rw [depth_branched]
      decide
    refine ⟨w, quiet, written, ?_, ?_⟩
    · exact (decode_text_of_spelling quiet (written ▸ exact _ trivial) w.spelt_toJson).trans
        (if_pos fits)
    · have exact := exact (.object [("store", .null)]) ⟨trivial, trivial⟩
      exact ⟨_, (decode_text_of_spelling quiet exact spelt).trans (if_neg deep), rfl⟩
  · have refused : (decode "\x7b\"type\":\"return\",\"value\":null,\"extra\":1e999\x7d").isOk =
        false := by decide +kernel
    cases h : decode "\x7b\"type\":\"return\",\"value\":null,\"extra\":1e999\x7d" with
    | error e => exact ⟨e, rfl, kind_of_decode_error h⟩
    | ok w =>
      rw [h] at refused
      cases refused
  · -- Workflows cannot be told apart by computation, but their texts can.
    have reread := congrArg (fun r : Except WorkflowError Workflow => r.toOption.map encode) same
    revert reread
    decide +kernel

end Workflow

end WorkflowEngine
