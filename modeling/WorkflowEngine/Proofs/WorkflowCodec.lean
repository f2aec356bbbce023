import WorkflowEngine.Workflow.Codec
import WorkflowEngine.Proofs.DepthLimits
import WorkflowEngine.Proofs.Nesting
/-!
What the text of a workflow is decoded as: the workflow itself, but for errors that carry null,
which lose it, and only if its document is not nested deeper than a text may be.
-/
set_option autoImplicit false

namespace WorkflowEngine

open Json (Draft)

/-! ## Handles and functions -/

theorem Key.restores (k : Key) : Key.decoder.Restores k.toJson k :=
  Decoder.restores_record _ <| (Layout.restores_pure _ _)
    |>.required rfl (Decoder.restores_string k.container)
    |>.required rfl (Decoder.restores_string k.name)

theorem Cell.restores (c : Cell) : Cell.decoder.Restores c.toJson c :=
  Decoder.restores_record _ <| (Layout.restores_pure _ _)
    |>.required rfl c.key.restores

theorem Atom.restores (a : Atom) : Atom.decoder.Restores a.toJson a :=
  Decoder.restores_record _ <| (Layout.restores_pure _ _)
    |>.required rfl a.key.restores

theorem Sequence.restores (s : Sequence) : Sequence.decoder.Restores s.toJson s := by
  have parts : (Decoder.record "struct SequenceHandle" Sequence.layout).Restores s.toJson
      (s.key, s.length, s.chunkSize) :=
    Decoder.restores_record _ <| (Layout.restores_pure _ _)
      |>.required rfl s.key.restores
      |>.required rfl (Decoder.restores_uint64 _ s.length)
      |>.required rfl (Decoder.restores_uint64 _ s.chunkSize)
  exact parts.refine (dif_neg s.chunkSize_ne_zero)

theorem Sequence.restores_list (ss : List Sequence) :
    Sequence.decoder.list.Restores (.array (ss.map Sequence.toJson)) ss := by
  have list : Sequence.decoder.list.Restores (.array (ss.map Sequence.toJson)) (ss.map id) :=
    Decoder.Restores.list fun s _ => s.restores
  rwa [List.map_id] at list

theorem PartitionVector.restores (v : PartitionVector) :
    PartitionVector.decoder.Restores v.toJson v :=
  Decoder.restores_record _ <| (Layout.restores_pure _ _)
    |>.required rfl (Sequence.restores_list v.partitions)

theorem FunctionRef.restores (f : FunctionRef) : FunctionRef.decoder.Restores f.toJson f :=
  Decoder.restores_record _ <| (Layout.restores_pure _ _)
    |>.required rfl (Decoder.restores_string f.name)
    |>.defaulted rfl (Decoder.restores_value f.env)

/-! ## Operations -/

namespace Operation

theorem restores_values (vs : List Value) : Decoder.value.list.Restores (valuesJson vs) vs := by
  have list : Decoder.value.list.Restores (valuesJson vs) (vs.map id) :=
    Decoder.Restores.list fun v _ => Decoder.restores_value v
  rwa [List.map_id] at list

/-- The name of an operation is that of the variant that reads its fields. -/
theorem exists_variant (op : Operation) :
    ∃ variant, Variant.find variants op.parts.1 = .ok variant ∧
      Json.valuesAt "op" op.parts.2 = [] ∧ variant.content.Restores (.object op.parts.2) op := by
  cases op with
  | sleep millis =>
    exact ⟨_, rfl, rfl, Variant.restores_record _ _ <| (Layout.restores_pure _ _)
      |>.required rfl (Decoder.restores_uint64 _ millis)⟩
  | log message =>
    exact ⟨_, rfl, rfl, Variant.restores_record _ _ <| (Layout.restores_pure _ _)
      |>.required rfl (Decoder.restores_string message)⟩
  | logFormat format args =>
    exact ⟨_, rfl, rfl, Variant.restores_record _ _ <| (Layout.restores_pure _ _)
      |>.required rfl (Decoder.restores_string format)
      |>.required rfl (restores_values args)⟩
  | workerCount => exact ⟨_, rfl, rfl, Variant.restores_empty _ _⟩
  | processId => exact ⟨_, rfl, rfl, Variant.restores_empty _ _⟩
  | workerId => exact ⟨_, rfl, rfl, Variant.restores_empty _ _⟩
  | invoke function arg =>
    exact ⟨_, rfl, rfl, Variant.restores_record _ _ <| (Layout.restores_pure _ _)
      |>.required rfl (Decoder.restores_string function)
      |>.required rfl (Decoder.restores_value arg)⟩
  | cellNew value name =>
    cases name with
    | none =>
      exact ⟨_, rfl, rfl, Variant.restores_record _ _ <| (Layout.restores_pure _ _)
        |>.required rfl (Decoder.restores_value value)
        |>.absent rfl⟩
    | some name =>
      have present := (Decoder.restores_string name).optional (by simp)
      exact ⟨_, rfl, rfl, Variant.restores_record _ _ <| (Layout.restores_pure _ _)
        |>.required rfl (Decoder.restores_value value)
        |>.defaulted rfl present⟩
  | cellValue cell =>
    exact ⟨_, rfl, rfl, Variant.restores_record _ _ <| (Layout.restores_pure _ _)
      |>.required rfl cell.restores⟩
  | cellParse name =>
    exact ⟨_, rfl, rfl, Variant.restores_record _ _ <| (Layout.restores_pure _ _)
      |>.required rfl (Decoder.restores_string name)⟩
  | sequenceNew items =>
    exact ⟨_, rfl, rfl, Variant.restores_record _ _ <| (Layout.restores_pure _ _)
      |>.required rfl (restores_values items)⟩
  | sequenceItems sequence =>
    exact ⟨_, rfl, rfl, Variant.restores_record _ _ <| (Layout.restores_pure _ _)
      |>.required rfl sequence.restores⟩
  | sequenceGet sequence index =>
    exact ⟨_, rfl, rfl, Variant.restores_record _ _ <| (Layout.restores_pure _ _)
      |>.required rfl sequence.restores
      |>.required rfl (Decoder.restores_uint64 _ index)⟩
  | vectorOf partitions =>
    exact ⟨_, rfl, rfl, Variant.restores_record _ _ <| (Layout.restores_pure _ _)
      |>.required rfl (Sequence.restores_list partitions)⟩
  | vectorItems vector =>
    exact ⟨_, rfl, rfl, Variant.restores_record _ _ <| (Layout.restores_pure _ _)
      |>.required rfl vector.restores⟩
  | atomNew value =>
    exact ⟨_, rfl, rfl, Variant.restores_record _ _ <| (Layout.restores_pure _ _)
      |>.required rfl (Decoder.restores_value value)⟩
  | atomRead atom =>
    exact ⟨_, rfl, rfl, Variant.restores_record _ _ <| (Layout.restores_pure _ _)
      |>.required rfl atom.restores⟩
  | atomSet atom update =>
    exact ⟨_, rfl, rfl, Variant.restores_record _ _ <| (Layout.restores_pure _ _)
      |>.required rfl atom.restores
      |>.required rfl update.restores⟩
  | atomForce atom value =>
    exact ⟨_, rfl, rfl, Variant.restores_record _ _ <| (Layout.restores_pure _ _)
      |>.required rfl atom.restores
      |>.required rfl (Decoder.restores_value value)⟩
  | atomTransact atom update =>
    exact ⟨_, rfl, rfl, Variant.restores_record _ _ <| (Layout.restores_pure _ _)
      |>.required rfl atom.restores
      |>.required rfl update.restores⟩
  | atomFree atom =>
    exact ⟨_, rfl, rfl, Variant.restores_record _ _ <| (Layout.restores_pure _ _)
      |>.required rfl atom.restores⟩

theorem restores (op : Operation) : decoder.Restores op.toJson op := by
  obtain ⟨variant, known, untagged, content⟩ := op.exists_variant
  exact content.tagged _ known untagged

end Operation

/-! ## Errors -/

theorem ErrorKind.reads (kind : ErrorKind) : ErrorKind.decoder.Reads kind.toJson kind := by
  cases kind with
  | user tag => exact Decoder.reads_entry rfl ((Decoder.restores_string tag).reads rfl).map
  | evaluation | store | notFound | unknownFunction | serialization | transport =>
    exact (Decoder.restores_name rfl).reads rfl

namespace WorkflowError

/-- The error without its payload if that is null: a payload of null is read as none. -/
def withoutNull (e : WorkflowError) : WorkflowError :=
  { e with payload := e.payload.filter fun v => !v.isNull }

theorem withoutNull_eq_self {e : WorkflowError} :
    e.withoutNull = e ↔ e.payload ≠ some Value.null := by
  obtain ⟨kind, message, payload⟩ := e
  cases payload with
  | none => simp [withoutNull]
  | some v =>
    cases hv : v.isNull with
    | true =>
      obtain rfl := Value.eq_null_of_isNull hv
      simp [withoutNull, Option.filter, hv]
    | false =>
      have hne : v ≠ Value.null := by
        rintro rfl
        cases hv
      simp [withoutNull, Option.filter, hv, hne]

theorem reads (e : WorkflowError) : decoder.Reads e.toJson e.withoutNull := by
  obtain ⟨kind, message, payload⟩ := e
  have head : ∀ es : List (String × Json), Json.valuesAt "kind" es = [] →
    Json.valuesAt "message" es = [] →
    Layout.Reads (Layout.pure WorkflowError.mk |>.required "kind" ErrorKind.decoder
      |>.required "message" Decoder.string)
      ([("kind", kind.toJson), ("message", .string message)] ++ es)
      kind.toJson.depth (WorkflowError.mk kind message) := by
    intro es hk hm
    have depth : kind.toJson.depth = max (max 0 kind.toJson.depth) (Json.string message).depth := by
      simp [Json.depth]
    rw [depth]
    exact (Layout.reads_pure _ _)
      |>.required (by simp [Json.valuesAt, hk]) kind.reads
      |>.required (by simp [Json.valuesAt, hm]) ((Decoder.restores_string message).reads rfl)
  cases payload with
  | none =>
    have depth : Json.depthEntries [("kind", kind.toJson), ("message", .string message)] =
        kind.toJson.depth := by
      simp [Json.depth, Json.depthEntries]
    exact Decoder.reads_record _ (depth ▸ (head [] rfl rfl).absent rfl)
  | some v =>
    have depth : Json.depthEntries
        [("kind", kind.toJson), ("message", .string message), ("payload", v.json)] =
          max kind.toJson.depth v.json.depth := by
      simp [Json.depth, Json.depthEntries]
    refine Decoder.reads_record _
      (depth ▸ (head [("payload", v.json)] rfl rfl).defaulted rfl ?_)
    cases hv : v.isNull with
    | true =>
      obtain rfl := Value.eq_null_of_isNull hv
      exact Decoder.restores_optional_null.reads rfl
    | false =>
      have hne : v.json ≠ .null := by
        intro hnull
        simp [Value.isNull, hnull] at hv
      have kept : (some v).filter (fun v => !v.isNull) = some v := by simp [Option.filter, hv]
      exact kept.symm ▸ (Decoder.reads_value v).optional hne

end WorkflowError

namespace Workflow

mutual
/-- The workflow with no null as a payload of an error it raises. -/
def withoutNulls : Workflow → Workflow
  | .ret value => .ret value
  | .bind body continuation => .bind body.withoutNulls continuation
  | .parallel children => .parallel (allWithoutNulls children)
  | .choice children => .choice (allWithoutNulls children)
  | .perform operation => .perform operation
  | .tryWith body handler => .tryWith body.withoutNulls handler
  | .raise error => .raise error.withoutNull

def allWithoutNulls : List Workflow → List Workflow
  | [] => []
  | w :: ws => w.withoutNulls :: allWithoutNulls ws
end

mutual
/-- Whether a workflow raises an error whose payload is null, at any place in it. -/
def RaisesNull : Workflow → Prop
  | .ret _ | .perform _ => False
  | .bind body _ | .tryWith body _ => body.RaisesNull
  | .parallel children | .choice children => SomeRaisesNull children
  | .raise error => error.payload = some Value.null

def SomeRaisesNull : List Workflow → Prop
  | [] => False
  | w :: ws => w.RaisesNull ∨ SomeRaisesNull ws
end

mutual
theorem withoutNulls_eq_self : (w : Workflow) → (w.withoutNulls = w ↔ ¬ w.RaisesNull)
  | .ret _ | .perform _ => ⟨fun _ => not_false, fun _ => rfl⟩
  | .bind body f => by
    simp only [withoutNulls, RaisesNull, bind.injEq, and_true, withoutNulls_eq_self body]
  | .tryWith body f => by
    simp only [withoutNulls, RaisesNull, tryWith.injEq, and_true, withoutNulls_eq_self body]
  | .parallel children => by
    simp only [withoutNulls, RaisesNull, parallel.injEq, allWithoutNulls_eq_self children]
  | .choice children => by
    simp only [withoutNulls, RaisesNull, choice.injEq, allWithoutNulls_eq_self children]
  | .raise error => by
    simp only [withoutNulls, RaisesNull, raise.injEq, WorkflowError.withoutNull_eq_self, ne_eq]

theorem allWithoutNulls_eq_self : (ws : List Workflow) →
    (allWithoutNulls ws = ws ↔ ¬ SomeRaisesNull ws)
  | [] => ⟨fun _ => not_false, fun _ => rfl⟩
  | w :: ws => by
    simp only [allWithoutNulls, SomeRaisesNull, List.cons.injEq, not_or, withoutNulls_eq_self w,
      allWithoutNulls_eq_self ws]
end

variable {levels : Nat}

theorem decoderTo_of_variant {name : String} {es : List (String × Json)} {w : Workflow}
    {variant : Variant Workflow}
    (known : Variant.find (variants (decoderTo levels)) name = .ok variant)
    (untagged : Json.valuesAt "type" es = []) (content : variant.content.Restores (.object es) w)
    (source : Source) :
    decoderTo (levels + 1) source (.ofJson (.object (("type", .string name) :: es))) =
      if source.Holds (Json.object (("type", .string name) :: es)).depth then .ok w
      else .error (.malformed .tooDeep) := by
  have hdepth : (Json.object (("type", .string name) :: es)).depth = Json.depthEntries es + 1 :=
    congrArg (· + 1) (Nat.zero_max _)
  rw [hdepth, ← content .kept trivial]
  exact Decoder.tagged_ofJson "Workflow" known untagged source

theorem allToJson_eq_map (ws : List Workflow) : allToJson ws = ws.map toJson := by
  induction ws with
  | nil => rfl
  | cons w ws ih => rw [allToJson, ih, List.map_cons]

theorem allWithoutNulls_eq_map (ws : List Workflow) : allWithoutNulls ws = ws.map withoutNulls := by
  induction ws with
  | nil => rfl
  | cons w ws ih => rw [allWithoutNulls, ih, List.map_cons]

theorem restores_all {ws : List Workflow}
    (h : ∀ w ∈ ws, (decoderTo levels).Restores w.toJson w.withoutNulls) :
    (decoderTo levels).list.Restores (.array (allToJson ws)) (allWithoutNulls ws) := by
  rw [allToJson_eq_map, allWithoutNulls_eq_map]
  exact Decoder.Restores.list h

theorem restores_of_decoderTo {j : Json} {w : Workflow}
    (h : ∀ {levels : Nat}, j.depth ≤ levels → ∀ source : Source,
      decoderTo (levels + 1) source (.ofJson j) =
        if source.Holds j.depth then .ok w else .error (.malformed .tooDeep))
    (enough : j.depth < levels) : (decoderTo levels).Restores j w := by
  intro source room
  obtain ⟨n, rfl⟩ : ∃ n, levels = n + 1 := ⟨levels - 1, by omega⟩
  rw [h (Nat.le_of_lt_succ enough), if_pos room]

mutual
/-- Within enough levels a workflow is decoded wherever there is room for it, and nowhere else. -/
theorem decoderTo_toJson : (w : Workflow) → {levels : Nat} → (enough : w.toJson.depth ≤ levels) →
    (source : Source) → decoderTo (levels + 1) source (.ofJson w.toJson) =
      if source.Holds w.toJson.depth then .ok w.withoutNulls else .error (.malformed .tooDeep)
  | .ret value, _, _ => decoderTo_of_variant rfl rfl <| Variant.restores_record _ _ <|
      (Layout.restores_pure _ _).required rfl (Decoder.restores_value value)
  | .bind body f, levels, enough => by
    have hbody : body.toJson.depth < levels := by
      simp only [toJson, Json.depth, Json.depthEntries] at enough
      omega
    exact decoderTo_of_variant rfl rfl <| Variant.restores_record _ _ <| (Layout.restores_pure _ _)
      |>.required rfl (restores_of_decoderTo (decoderTo_toJson body) hbody)
      |>.required rfl f.restores
  | .parallel children, levels, enough => by
    have hchildren : Json.depthItems (allToJson children) < levels := by
      simp only [toJson, Json.depth, Json.depthEntries] at enough
      omega
    exact decoderTo_of_variant rfl rfl <| Variant.restores_record _ _ <| (Layout.restores_pure _ _)
      |>.required rfl (restores_all (all_restores_within children hchildren))
  | .choice children, levels, enough => by
    have hchildren : Json.depthItems (allToJson children) < levels := by
      simp only [toJson, Json.depth, Json.depthEntries] at enough
      omega
    exact decoderTo_of_variant rfl rfl <| Variant.restores_record _ _ <| (Layout.restores_pure _ _)
      |>.required rfl (restores_all (all_restores_within children hchildren))
  | .perform operation, _, _ => decoderTo_of_variant rfl rfl <| Variant.restores_record _ _ <|
      (Layout.restores_pure _ _).required rfl operation.restores
  | .tryWith body f, levels, enough => by
    have hbody : body.toJson.depth < levels := by
      simp only [toJson, Json.depth, Json.depthEntries] at enough
      omega
    exact decoderTo_of_variant rfl rfl <| Variant.restores_record _ _ <| (Layout.restores_pure _ _)
      |>.required rfl (restores_of_decoderTo (decoderTo_toJson body) hbody)
      |>.required rfl f.restores
  | .raise error, _, _ => decoderTo_of_variant rfl rfl <| Variant.restores_record _ _ <|
      (Layout.restores_pure _ _).required rfl error.reads.restores

theorem all_restores_within : (ws : List Workflow) → {levels : Nat} →
    (enough : Json.depthItems (allToJson ws) < levels) →
    ∀ w ∈ ws, (decoderTo levels).Restores w.toJson w.withoutNulls
  | [], _, _ => fun _ hw => nomatch hw
  | w :: ws, levels, enough => by
    simp only [allToJson, Json.depthItems, Nat.max_lt] at enough
    exact List.forall_mem_cons.2 ⟨restores_of_decoderTo (decoderTo_toJson w) enough.1,
      all_restores_within ws enough.2⟩
end

theorem decode_text (w : Workflow) (exact : w.toJson.Exact) :
    decode w.encode =
      if w.toJson.depth ≤ Json.depthLimit then .ok w.withoutNulls
      else .error (.ofDecode (.malformed .tooDeep)) := by
  unfold decode encode
  rw [Decoder.ofText_text _ exact]
  show (decoderTo ((Draft.ofJson w.toJson).depth + 1) (.text Json.depthLimit) _).mapError _ = _
  rw [Draft.depth_ofJson, decoderTo_toJson w (Nat.le_refl _)]
  by_cases h : w.toJson.depth ≤ Json.depthLimit
  · rw [if_pos h, if_pos (show (Source.text Json.depthLimit).Holds _ from h)]
    rfl
  · rw [if_neg h, if_neg (show ¬ (Source.text Json.depthLimit).Holds _ from h)]
    rfl

/-- The text of a workflow is decoded as the workflow without its null payloads if at most 127
containers are nested in it, and is refused otherwise. Hence only workflows that raise no error with
null are decoded as themselves, and no others take their place. -/
theorem decode_encode (w : Workflow) (exact : w.toJson.Exact) :
    (Json.nesting w.encode ≤ 127 → decode w.encode = .ok w.withoutNulls) ∧
      (127 < Json.nesting w.encode → ∃ e, decode w.encode = .error e ∧ e.kind = .serialization) ∧
      (decode w.encode = .ok w ↔ Json.nesting w.encode ≤ 127 ∧ ¬ w.RaisesNull) := by
  have nesting : Json.nesting w.encode = w.toJson.depth := Json.nesting_text exact
  rw [nesting, decode_text w exact, Json.depthLimit]
  by_cases h : w.toJson.depth ≤ 127
  · rw [if_pos h]
    refine ⟨fun _ => rfl, fun hlt => absurd hlt (Nat.not_lt.2 h), ?_⟩
    rw [Except.ok.injEq, withoutNulls_eq_self]
    exact ⟨fun hw => ⟨h, hw⟩, And.right⟩
  · rw [if_neg h]
    exact ⟨fun hle => absurd hle h, fun _ => ⟨_, rfl, rfl⟩, fun heq => (nomatch heq),
      fun hle => absurd hle.1 h⟩

/-- A branch that raises an error with null comes back without it behind 61 choices of one branch
each; behind 62 there are too many containers. -/
theorem decode_encode_branches :
    ∃ w deep : Workflow, w.toJson.Exact ∧ deep.toJson.Exact ∧ w.RaisesNull ∧
      decode w.encode = .ok w.withoutNulls ∧
      ∃ e, decode deep.encode = .error e ∧ e.kind = .serialization := by
  let late := (WorkflowError.user "late" "gone").withPayload .null
  let behind (n : Nat) : Workflow := Nat.repeat (fun w => .choice [w]) n
    (.parallel [.ret (.number (.float ⟨false, 0x18000000000000, -52, by decide⟩)), .raise late])
  have half : (Number.float ⟨false, 0x18000000000000, -52, by decide⟩).Exact := by
    unfold Number.Exact
    decide +kernel
  have error : late.toJson.Exact := by
    simp [late, WorkflowError.toJson, WorkflowError.user, WorkflowError.withPayload,
      ErrorKind.toJson, Json.Exact, Json.EntriesExact, Value.null]
  have exact : ∀ n, (behind n).toJson.Exact := by
    intro n
    induction n with
    | zero =>
      exact ⟨trivial, ⟨⟨trivial, half, trivial⟩, ⟨trivial, error, trivial⟩, trivial⟩, trivial⟩
    | succ n ih => exact ⟨trivial, ⟨ih, trivial⟩, trivial⟩
  have raises : ∀ n, (behind n).RaisesNull := by
    intro n
    induction n with
    | zero => exact .inr (.inl rfl)
    | succ n ih => exact .inl ih
  have fits : Json.nesting (behind 61).encode ≤ 127 := by
    rw [encode, Json.nesting_text (exact 61)]
    decide +kernel
  have deep : 127 < Json.nesting (behind 62).encode := by
    rw [encode, Json.nesting_text (exact 62)]
    decide +kernel
  exact ⟨behind 61, behind 62, exact 61, exact 62, raises 61,
    (decode_encode _ (exact 61)).1 fits, (decode_encode _ (exact 62)).2.1 deep⟩

end Workflow

end WorkflowEngine
