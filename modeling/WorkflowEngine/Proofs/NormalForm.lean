import WorkflowEngine.Data.Settings
import WorkflowEngine.Proofs.DraftDepth
import WorkflowEngine.Proofs.OutcomeCodec
import WorkflowEngine.Proofs.Yields
/-!
The text of what was decoded is a normal form of the text that it was decoded from.
-/
set_option autoImplicit false

namespace WorkflowEngine

open Json (Draft)

namespace Decoder

variable {α : Type}

/-- Whether what is decoded is written no deeper than it was read. -/
def Shallow (d : Decoder α) (write : α → Json) : Prop := d.Yields fun n a => (write a).depth ≤ n

theorem Shallow.list {d : Decoder α} {write : α → Json} (h : d.Shallow write) :
    d.list.Shallow fun as => .array (as.map write) :=
  Yields.list h fun _ _ all => Nat.succ_le_succ (Json.depthItems_map_le all)

end Decoder

/-! ## Handles and functions -/

theorem Key.shallow : Key.decoder.Shallow Key.toJson := by
  refine Decoder.yields_record _ <| (Layout.yields_pure ?_)
    |>.required (Decoder.yields_any _)
    |>.required (Decoder.yields_any _)
  simp [toJson, Json.depth, Json.depthEntries]

theorem Cell.shallow : Cell.decoder.Shallow Cell.toJson := by
  refine Decoder.yields_record _ <| (Layout.yields_pure ?_) |>.required Key.shallow
  simp [toJson, Json.depth, Json.depthEntries]

theorem Atom.shallow : Atom.decoder.Shallow Atom.toJson := by
  refine Decoder.yields_record _ <| (Layout.yields_pure ?_) |>.required Key.shallow
  simp [toJson, Json.depth, Json.depthEntries]

theorem Sequence.shallow : Sequence.decoder.Shallow Sequence.toJson := by
  refine Decoder.Yields.refine <| Decoder.yields_record _ <| (Layout.yields_pure ?_)
    |>.required Key.shallow
    |>.required (Decoder.yields_any _)
    |>.required (Decoder.yields_any _)
  intro n key hkey length _ chunkSize _ s checked
  by_cases zero : chunkSize = 0
  · cases (dif_pos zero).symm.trans checked
  · cases (dif_neg zero).symm.trans checked
    simpa [toJson, Json.integer, Json.depth, Json.depthEntries] using hkey

theorem PartitionVector.shallow : PartitionVector.decoder.Shallow PartitionVector.toJson := by
  refine Decoder.yields_record _ <| (Layout.yields_pure ?_) |>.required Sequence.shallow.list
  simp [toJson, Json.depth, Json.depthEntries]

theorem FunctionRef.shallow : FunctionRef.decoder.Shallow FunctionRef.toJson := by
  refine Decoder.yields_record _ <| (Layout.yields_pure ?_)
    |>.required (Decoder.yields_any _)
    |>.defaulted Decoder.yields_value Nat.zero_le
  simp [toJson, Json.depth, Json.depthEntries]

/-! ## Operations -/

namespace Operation

theorem shallow_values : Decoder.value.list.Shallow valuesJson :=
  Decoder.Shallow.list Decoder.yields_value

theorem yields_variants :
    ∀ variant ∈ variants, variant.Yields fun n op => op.toJson.depth ≤ n := by
  simp only [variants, List.forall_mem_cons]
  refine ⟨
    Variant.yields_record _ _ <| (Layout.yields_pure ?_) |>.required (Decoder.yields_any _),
    Variant.yields_record _ _ <| (Layout.yields_pure ?_) |>.required (Decoder.yields_any _),
    Variant.yields_record _ _ <| (Layout.yields_pure ?_)
      |>.required (Decoder.yields_any _) |>.required shallow_values,
    Variant.yields_empty _ ?_,
    Variant.yields_empty _ ?_,
    Variant.yields_empty _ ?_,
    Variant.yields_record _ _ <| (Layout.yields_pure ?_)
      |>.required (Decoder.yields_any _) |>.required Decoder.yields_value,
    Variant.yields_record _ _ <| (Layout.yields_pure ?_)
      |>.required Decoder.yields_value |>.defaulted (Decoder.yields_any _) fun _ => trivial,
    Variant.yields_record _ _ <| (Layout.yields_pure ?_) |>.required Cell.shallow,
    Variant.yields_record _ _ <| (Layout.yields_pure ?_) |>.required (Decoder.yields_any _),
    Variant.yields_record _ _ <| (Layout.yields_pure ?_) |>.required shallow_values,
    Variant.yields_record _ _ <| (Layout.yields_pure ?_) |>.required Sequence.shallow,
    Variant.yields_record _ _ <| (Layout.yields_pure ?_)
      |>.required Sequence.shallow |>.required (Decoder.yields_any _),
    Variant.yields_record _ _ <| (Layout.yields_pure ?_) |>.required Sequence.shallow.list,
    Variant.yields_record _ _ <| (Layout.yields_pure ?_) |>.required PartitionVector.shallow,
    Variant.yields_record _ _ <| (Layout.yields_pure ?_) |>.required Decoder.yields_value,
    Variant.yields_record _ _ <| (Layout.yields_pure ?_) |>.required Atom.shallow,
    Variant.yields_record _ _ <| (Layout.yields_pure ?_)
      |>.required Atom.shallow |>.required FunctionRef.shallow,
    Variant.yields_record _ _ <| (Layout.yields_pure ?_)
      |>.required Atom.shallow |>.required Decoder.yields_value,
    Variant.yields_record _ _ <| (Layout.yields_pure ?_)
      |>.required Atom.shallow |>.required FunctionRef.shallow,
    Variant.yields_record _ _ <| (Layout.yields_pure ?_) |>.required Atom.shallow,
    fun _ none => nomatch none⟩
  case refine_8 =>
    intro n value hvalue name _
    cases name <;> simpa [toJson, parts, Json.depth, Json.depthEntries] using hvalue
  all_goals simp +contextual [toJson, parts, Json.integer, Json.depth, Json.depthEntries]

theorem shallow : decoder.Shallow toJson := Decoder.yields_tagged _ _ yields_variants

end Operation

/-! ## Errors and outcomes -/

theorem ErrorKind.shallow : ErrorKind.decoder.Shallow toJson := by
  refine Decoder.yields_alternative ?_
  simp only [List.forall_mem_cons]
  exact ⟨Nat.zero_le, Nat.zero_le, Nat.zero_le, Nat.zero_le, Nat.zero_le, Nat.zero_le,
    ((Decoder.yields_any _).imp fun n tag _ => by simp [toJson, Json.depth, Json.depthEntries]).map,
    fun _ none => nomatch none⟩

theorem WorkflowError.yields :
    decoder.Yields fun n e => e.toJson.depth ≤ n ∧ e.withoutNull = e := by
  refine Decoder.yields_record _ <| (Layout.yields_pure ?_)
    |>.required ErrorKind.shallow
    |>.required (Decoder.yields_any _)
    |>.defaulted Decoder.yields_optional_value fun _ _ none => nomatch none
  intro n kind hkind message _ payload hpayload
  rw [withoutNull_eq_self]
  cases payload with
  | none => exact ⟨by simpa [toJson, Json.depth, Json.depthEntries] using hkind, nofun⟩
  | some v =>
    obtain ⟨hv, present⟩ := hpayload v rfl
    exact ⟨by simpa [toJson, Json.depth, Json.depthEntries] using ⟨hkind, hv⟩,
      fun null => present (Option.some.inj null)⟩

theorem Fault.yields : decoder.Yields fun n f => f.toJson.depth ≤ n ∧ f.withoutNull = f := by
  refine Decoder.yields_split _ _ <| (Decoder.yields_named _).imp ?_
  rintro - variant ⟨name, mem⟩
  simp only [List.mem_cons, Prod.mk.injEq, List.not_mem_nil, or_false] at mem
  obtain ⟨-, rfl⟩ | ⟨-, rfl⟩ := mem
  · refine ⟨Decoder.Yields.map (WorkflowError.yields.imp ?_), fun _ none => nomatch none⟩
    rintro n e ⟨shallow, kept⟩
    exact ⟨by simpa [toJson, Json.depth, Json.depthEntries] using shallow, congrArg error kept⟩
  · have cancelled : ∀ n, Fault.cancelled.toJson.depth ≤ n + 1 ∧
        Fault.cancelled.withoutNull = .cancelled := fun n => ⟨n.succ_pos, rfl⟩
    refine ⟨Decoder.yields_emptyContent _ cancelled, ?_⟩
    rintro _ ⟨⟩
    exact cancelled

theorem Outcome.yields : decoder.Yields fun n o => o.toJson.depth ≤ n ∧ o.withoutNull = o := by
  refine Decoder.yields_alternative ?_
  simp only [List.forall_mem_cons]
  refine ⟨Decoder.Yields.map (Decoder.yields_value.imp ?_),
    Decoder.Yields.map (Fault.yields.imp ?_), fun _ none => nomatch none⟩
  · intro n v shallow
    exact ⟨by simpa [toJson, Json.depth, Json.depthEntries] using shallow, rfl⟩
  · rintro n f ⟨shallow, kept⟩
    exact ⟨by simpa [toJson, Json.depth, Json.depthEntries] using shallow,
      congrArg Except.error kept⟩

/-! ## Workflows -/

namespace Workflow

theorem yields_all {inner : Decoder Workflow}
    (h : inner.Yields fun n w => w.toJson.depth ≤ n ∧ w.withoutNulls = w) :
    inner.list.Yields fun n ws =>
      (Json.array (allToJson ws)).depth ≤ n ∧ allWithoutNulls ws = ws := by
  refine h.list fun n ws all => ?_
  rw [allToJson_eq_map, allWithoutNulls_eq_map]
  exact ⟨Nat.succ_le_succ (Json.depthItems_map_le fun w hw => (all w hw).1),
    (List.map_congr_left fun w hw => (all w hw).2).trans (List.map_id ws)⟩

theorem yields_variants {inner : Decoder Workflow}
    (h : inner.Yields fun n w => w.toJson.depth ≤ n ∧ w.withoutNulls = w) :
    ∀ variant ∈ variants inner,
      variant.Yields fun n w => w.toJson.depth ≤ n ∧ w.withoutNulls = w := by
  simp only [variants, List.forall_mem_cons]
  refine ⟨
    Variant.yields_record _ _ <| (Layout.yields_pure ?_) |>.required Decoder.yields_value,
    Variant.yields_record _ _ <| (Layout.yields_pure ?_)
      |>.required h |>.required FunctionRef.shallow,
    Variant.yields_record _ _ <| (Layout.yields_pure ?_) |>.required (yields_all h),
    Variant.yields_record _ _ <| (Layout.yields_pure ?_) |>.required (yields_all h),
    Variant.yields_record _ _ <| (Layout.yields_pure ?_) |>.required Operation.shallow,
    Variant.yields_record _ _ <| (Layout.yields_pure ?_)
      |>.required h |>.required FunctionRef.shallow,
    Variant.yields_record _ _ <| (Layout.yields_pure ?_) |>.required WorkflowError.yields,
    fun _ none => nomatch none⟩
  all_goals simp +contextual [toJson, withoutNulls, Json.depth, Json.depthEntries]

theorem decoderTo_yields (levels : Nat) :
    (decoderTo levels).Yields fun n w => w.toJson.depth ≤ n ∧ w.withoutNulls = w := by
  induction levels with
  | zero => exact fun _ _ _ _ _ h => nomatch h
  | succ levels ih => exact Decoder.yields_tagged _ _ (yields_variants ih)

theorem yields : decoder.Yields fun n w => w.toJson.depth ≤ n ∧ w.withoutNulls = w :=
  fun _ draft _ _ caps hw => decoderTo_yields (draft.depth + 1) caps hw

theorem restores (w : Workflow) : decoder.Restores w.toJson w.withoutNulls := by
  intro source room
  unfold decoder
  rw [Draft.depth_ofJson, decoderTo_toJson w (Nat.le_refl _), if_pos room]

end Workflow

/-! ## Texts -/

/-- The characters that bytes are read as, and the one that stands for bytes that are none. -/
def Bytes.characters (bytes : Bytes) : Option Char × List Char :=
  match bytes.text? with
  | some text => (none, text.toList)
  | none => (some (Text.decodeMarked bytes).1, (Text.decodeMarked bytes).2)

/-- The most brackets that are open at once in a text given as bytes. -/
def Bytes.nesting (bytes : Bytes) : Nat := Json.nestingFrom .outside 0 bytes.characters.2

theorem Bytes.nesting_ofText (text : String) : (Bytes.ofText text).nesting = Json.nesting text := by
  unfold Bytes.nesting Bytes.characters
  rw [text?_ofText]
  rfl

namespace Decoder

variable {α : Type} {d : Decoder α} {P : Nat → α → Prop} {bytes : Bytes} {a : α}

theorem ofBytes_eq_ofChars (d : Decoder α) (bytes : Bytes) :
    d.ofBytes bytes = d.ofChars bytes.characters.1 bytes.characters.2 := by
  unfold ofBytes Bytes.characters Bytes.text?
  cases String.fromUTF8? ⟨bytes.toArray⟩ <;> rfl

/-- What is decoded of a text is bounded by its brackets and by the most that may be nested. -/
theorem Yields.ofBytes (h : d.Yields P) (accepted : d.ofBytes bytes = .ok a) :
    P bytes.nesting a ∧ P Json.depthLimit a := by
  rw [ofBytes_eq_ofChars] at accepted
  obtain ⟨b, hb, accepted⟩ := Except.of_bind_ok accepted
  obtain ⟨_, -, accepted⟩ := Except.of_bind_ok accepted
  cases accepted
  exact ⟨h (.inl (Json.depth_ofChars_le _ _)) hb, h (.inr rfl) hb⟩

end Decoder

/-- Writes anew what a text is decoded as. -/
def rewrite {ε α : Type} (decode : Bytes → Except ε α) (write : α → Json) (bytes : Bytes) :
    Except ε Bytes :=
  (decode bytes).map fun a => (write a).toBytes

/-- Whether a text that is decoded, however it is spelt, is written anew as one that nests no deeper
and is decoded as the same, so that writing it anew once more leaves it as it is. Floats are assumed
to be read back as themselves. -/
def HasNormalForms {ε α : Type} (decode : Bytes → Except ε α) (write : α → Json) : Prop :=
  ∀ (bytes : Bytes) (a : α), decode bytes = .ok a → (write a).Exact →
    (write a).toBytes.nesting ≤ bytes.nesting ∧ decode (write a).toBytes = .ok a ∧
      rewrite decode write bytes >>= rewrite decode write = rewrite decode write bytes

theorem HasNormalForms.of_decoded {ε α : Type} {decode : Bytes → Except ε α} {write : α → Json}
    (h : ∀ {bytes a}, decode bytes = .ok a → (write a).Exact →
      (write a).toBytes.nesting ≤ bytes.nesting ∧ decode (write a).toBytes = .ok a) :
    HasNormalForms decode write := by
  intro bytes a accepted exact
  obtain ⟨shallow, again⟩ := h accepted exact
  refine ⟨shallow, again, ?_⟩
  have first : rewrite decode write bytes = .ok (write a).toBytes :=
    congrArg (Except.map fun a => (write a).toBytes) accepted
  have second : rewrite decode write (write a).toBytes = .ok (write a).toBytes :=
    congrArg (Except.map fun a => (write a).toBytes) again
  rw [first]
  exact second

namespace Decoder

variable {α : Type} {d : Decoder α} {write : α → Json} {drop : α → α}

theorem ofBytes_toBytes (d : Decoder α) {j : Json} (exact : j.Exact) :
    d.ofBytes j.toBytes = d (.text Json.depthLimit) (.ofJson j) :=
  (d.ofBytes_ofText j.text).trans (d.ofText_text exact)

/-- The written form of what was decoded is decoded as the same if nothing was dropped, as there is
room for it. -/
theorem ofBytes_of_yields (yields : d.Yields fun n a => (write a).depth ≤ n ∧ drop a = a)
    (restores : ∀ a, d.Restores (write a) (drop a)) {bytes : Bytes} {a : α}
    (accepted : d.ofBytes bytes = .ok a) (exact : (write a).Exact) :
    (write a).toBytes.nesting ≤ bytes.nesting ∧ d.ofBytes (write a).toBytes = .ok a := by
  obtain ⟨⟨shallow, kept⟩, within, -⟩ := yields.ofBytes accepted
  rw [d.ofBytes_toBytes exact, restores a (.text Json.depthLimit) within, kept, Json.toBytes,
    Bytes.nesting_ofText, Json.nesting_text exact]
  exact ⟨shallow, rfl⟩

theorem hasNormalForms (yields : d.Yields fun n a => (write a).depth ≤ n ∧ drop a = a)
    (restores : ∀ a, d.Restores (write a) (drop a)) : HasNormalForms d.ofBytes write :=
  .of_decoded fun accepted exact => ofBytes_of_yields yields restores accepted exact

end Decoder

namespace Workflow

theorem decodeBytes_ofText (text : String) : decodeBytes (Bytes.ofText text) = decode text := by
  unfold decodeBytes decode
  rw [Decoder.ofBytes_ofText]

theorem hasNormalForms : HasNormalForms decodeBytes toJson := by
  refine .of_decoded fun accepted exact => ?_
  obtain ⟨shallow, again⟩ :=
    Decoder.ofBytes_of_yields yields restores (Except.of_mapError_ok accepted) exact
  refine ⟨shallow, ?_⟩
  unfold decodeBytes
  rw [again]
  rfl

end Workflow

/-- Every outcome that is received can be sent on, also the one that a refused reply stands for. -/
theorem Outcome.decode_encode_received (text : String) (exact : (decode text).toJson.Exact) :
    decode (decode text).encode = decode text := by
  suffices h : (decode text).toJson.depth ≤ Json.depthLimit ∧
      (decode text).withoutNull = decode text by
    rw [decode_text _ exact, if_pos h.1, h.2]
  unfold decode
  cases hread : decoder.ofText text with
  | error e => exact ⟨by rw [depth_refused]; decide, rfl⟩
  | ok o => exact (yields.ofBytes ((decoder.ofBytes_ofText text).trans hread)).2

/-- Texts of workflows, operations, errors and outcomes have normal forms, which nest no deeper and
are decoded as the same. What a reply is taken for is taken for the same again even if the reply was
no outcome. -/
theorem normal_forms :
    HasNormalForms Workflow.decodeBytes Workflow.toJson ∧
      HasNormalForms Operation.decoder.ofBytes Operation.toJson ∧
      HasNormalForms WorkflowError.decoder.ofBytes WorkflowError.toJson ∧
      HasNormalForms Outcome.decoder.ofBytes Outcome.toJson ∧
      (∀ text w, Workflow.decode text = .ok w → w.toJson.Exact →
        Json.nesting w.encode ≤ Json.nesting text ∧ Workflow.decode w.encode = .ok w) ∧
      ∀ text, (Outcome.decode text).toJson.Exact →
        Outcome.decode (Outcome.decode text).encode = Outcome.decode text := by
  refine ⟨Workflow.hasNormalForms,
    Decoder.hasNormalForms (Operation.shallow.imp fun _ _ h => ⟨h, rfl⟩) Operation.restores,
    Decoder.hasNormalForms WorkflowError.yields fun e => e.reads.restores,
    Decoder.hasNormalForms Outcome.yields fun o => o.reads.restores,
    fun text w accepted exact => ?_, Outcome.decode_encode_received⟩
  obtain ⟨shallow, again, -⟩ :=
    Workflow.hasNormalForms _ w ((Workflow.decodeBytes_ofText text).trans accepted) exact
  rw [Bytes.nesting_ofText] at shallow
  exact ⟨(Bytes.nesting_ofText w.encode).symm.trans_le shallow,
    (Workflow.decodeBytes_ofText w.encode).symm.trans again⟩

/-- Two workflows at once in an array, the first with its tag last, the second an array with an
error that has an entry to be passed over, a payload of null and its kind in an object; an operation
with its tag last; an error as an array; and an outcome whose fault stands behind its error. -/
theorem normal_forms_respelt :
    ∃ (workflow operation error outcome : Json) (w : Workflow) (op : Operation)
      (e : WorkflowError) (o : Outcome),
      (Workflow.decodeBytes workflow.toBytes = .ok w ∧ w.toJson.Exact ∧ w.toJson ≠ workflow ∧
        Workflow.decodeBytes w.toJson.toBytes = .ok w ∧ Workflow.decode w.encode = .ok w) ∧
      (Operation.decoder.ofBytes operation.toBytes = .ok op ∧ op.toJson.Exact ∧
        op.toJson ≠ operation ∧ Operation.decoder.ofBytes op.toJson.toBytes = .ok op) ∧
      (WorkflowError.decoder.ofBytes error.toBytes = .ok e ∧ e.toJson.Exact ∧ e.toJson ≠ error ∧
        WorkflowError.decoder.ofBytes e.toJson.toBytes = .ok e) ∧
      (Outcome.decoder.ofBytes outcome.toBytes = .ok o ∧ o.toJson.Exact ∧ o.toJson ≠ outcome ∧
        Outcome.decoder.ofBytes o.toJson.toBytes = .ok o ∧ Outcome.decode o.encode = o) := by
  let half : Number := .float ⟨false, 0x18000000000000, -52, by decide⟩
  have exactHalf : half.Exact := by
    unfold Number.Exact
    decide +kernel
  let gone : Json := .object [("note", .array [.array []]), ("message", .string "gone"),
    ("payload", .null), ("kind", .object [("store", .null)])]
  let workflow : Json := .array [.string "parallel", .array [
    .object [("value", .number half), ("type", .string "return")],
    .array [.string "raise", gone]]]
  let operation : Json := .object [("millis", .integer 5), ("op", .string "sleep")]
  let error : Json := .array [.object [("user", .string "late")], .string "gone"]
  let outcome : Json := .object [("Err", .object [("error", error), ("fault", .string "error")])]
  let w : Workflow := .parallel [.ret (.number half), .raise (.store "gone")]
  let late : WorkflowError := .user "late" "gone"
  have exactNote : (Json.array [.array []]).Exact := ⟨trivial, trivial⟩
  have exactGone : gone.Exact := ⟨exactNote, trivial, trivial, ⟨trivial, trivial⟩, trivial⟩
  have exactWorkflow : workflow.Exact :=
    ⟨trivial, ⟨⟨exactHalf, trivial, trivial⟩, ⟨trivial, exactGone, trivial⟩, trivial⟩, trivial⟩
  have exactOperation : operation.Exact := ⟨trivial, trivial, trivial⟩
  have exactError : error.Exact := ⟨⟨trivial, trivial⟩, trivial, trivial⟩
  have exactOutcome : outcome.Exact := ⟨⟨exactError, trivial, trivial⟩, trivial⟩
  have exactLate : late.toJson.Exact := ⟨⟨trivial, trivial⟩, trivial, trivial⟩
  have exactSent : (Outcome.toJson (.error (.error late))).Exact :=
    ⟨⟨trivial, exactLate, trivial⟩, trivial⟩
  have exactSleep : (Operation.sleep 5).toJson.Exact := ⟨trivial, trivial, trivial⟩
  have exactW : w.toJson.Exact :=
    ⟨trivial, ⟨⟨trivial, exactHalf, trivial⟩, ⟨trivial, ⟨trivial, trivial, trivial⟩, trivial⟩,
      trivial⟩, trivial⟩
  have readWorkflow : Workflow.decodeBytes workflow.toBytes = .ok w := by
    unfold Workflow.decodeBytes
    rw [Decoder.ofBytes_toBytes _ exactWorkflow]
    rfl
  have readOperation : Operation.decoder.ofBytes operation.toBytes = .ok (.sleep 5) :=
    Decoder.ofBytes_toBytes _ exactOperation
  have readError : WorkflowError.decoder.ofBytes error.toBytes = .ok late :=
    Decoder.ofBytes_toBytes _ exactError
  have readOutcome : Outcome.decoder.ofBytes outcome.toBytes = .ok (.error (.error late)) :=
    Decoder.ofBytes_toBytes _ exactOutcome
  have readText : Workflow.decode workflow.text = .ok w :=
    (Workflow.decodeBytes_ofText _).symm.trans readWorkflow
  have received : Outcome.decode outcome.text = .error (.error late) := by
    unfold Outcome.decode
    rw [Decoder.ofText_text _ exactOutcome]
    rfl
  obtain ⟨workflows, operations, errors, outcomes, texts, replies⟩ := normal_forms
  have again := replies outcome.text (received ▸ exactSent)
  rw [received] at again
  exact ⟨workflow, operation, error, outcome, w, .sleep 5, late, .error (.error late),
    ⟨readWorkflow, exactW, nofun, (workflows _ w readWorkflow exactW).2.1,
      (texts _ w readText exactW).2⟩,
    ⟨readOperation, exactSleep, by simp [Operation.toJson, operation, Operation.parts],
      (operations _ _ readOperation exactSleep).2.1⟩,
    ⟨readError, exactLate, nofun, (errors _ _ readError exactLate).2.1⟩,
    ⟨readOutcome, exactSent, by simp [Outcome.toJson, Fault.toJson, outcome],
      (outcomes _ _ readOutcome exactSent).2.1, again⟩⟩

end WorkflowEngine
