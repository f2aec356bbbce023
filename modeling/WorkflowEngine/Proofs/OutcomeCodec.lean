import WorkflowEngine.Proofs.OutcomeText
import WorkflowEngine.Proofs.WorkflowCodec
/-!
What the text of an outcome is decoded as: the outcome itself, but for an error that carries null,
which loses it, and only if its document is not nested deeper than a text may be.
-/
set_option autoImplicit false

namespace WorkflowEngine

/-! ## Faults -/

namespace Fault

/-- The fault without a payload of null. -/
def withoutNull : Fault → Fault
  | .error e => .error e.withoutNull
  | .cancelled => .cancelled

theorem reads (f : Fault) : decoder.Reads f.toJson f.withoutNull := by
  cases f with
  | error e =>
    have known : variants.Restores (.string "error")
        ⟨WorkflowError.decoder.map .error, none⟩ := Decoder.restores_name rfl
    exact Decoder.reads_split "Fault" ⟨"fault", "error"⟩ (by decide) known e.reads.map
  | cancelled =>
    have known : variants.Restores (.string "cancelled")
        ⟨.emptyContent "Fault::Cancelled" .cancelled, some .cancelled⟩ := Decoder.restores_name rfl
    exact Decoder.reads_split_absent "Fault" ⟨"fault", "error"⟩ known rfl

end Fault

/-! ## Outcomes -/

namespace Outcome

/-- The outcome without a payload of null. -/
def withoutNull : Outcome → Outcome
  | .ok v => .ok v
  | .error f => .error f.withoutNull

/-- Whether an outcome is an error whose payload is null. -/
def CarriesNull : Outcome → Prop
  | .error (.error e) => e.payload = some Value.null
  | _ => False

theorem withoutNull_eq_self {o : Outcome} : o.withoutNull = o ↔ ¬ o.CarriesNull := by
  rcases o with (e | -) | v
  · simp only [withoutNull, Fault.withoutNull, CarriesNull, Except.error.injEq,
      Fault.error.injEq, WorkflowError.withoutNull_eq_self, ne_eq]
  · exact ⟨fun _ => not_false, fun _ => rfl⟩
  · exact ⟨fun _ => not_false, fun _ => rfl⟩

theorem reads (o : Outcome) : decoder.Reads o.toJson o.withoutNull := by
  cases o with
  | ok v => exact Decoder.reads_entry rfl (Decoder.reads_value v).map
  | error f => exact Decoder.reads_entry rfl f.reads.map

theorem decode_text (o : Outcome) (exact : o.toJson.Exact) :
    decode o.encode =
      if o.toJson.depth ≤ Json.depthLimit then o.withoutNull
      else .error (.error (.ofDecode (.malformed .tooDeep))) := by
  unfold decode encode
  rw [Decoder.ofText_text _ exact, o.reads]
  by_cases h : o.toJson.depth ≤ Json.depthLimit
  · rw [if_pos h, if_pos (show (Source.text Json.depthLimit).Holds _ from h)]
  · rw [if_neg h, if_neg (show ¬ (Source.text Json.depthLimit).Holds _ from h)]

variable {o : Outcome} {f : Fault} {v : Value}

/-- A value that is received was sent. -/
theorem of_withoutNull_eq_ok (h : o.withoutNull = .ok v) : o = .ok v := by
  cases o with
  | ok w => exact h
  | error f => cases h

theorem of_withoutNull_eq_error (h : o.withoutNull = .error f) :
    ∃ sent : Fault, o = .error sent ∧ sent.withoutNull = f := by
  cases o with
  | ok w => cases h
  | error sent => exact ⟨sent, rfl, Except.error.inj h⟩

theorem depth_refused (e : DecodeError) :
    (toJson (.error (.error (.ofDecode e)))).depth = 3 := rfl

/-- An outcome crosses as itself if at most 127 containers are nested in its text, except that an
error that carries null loses it; a deeper one is received as a serialization error. Hence a value
that is received was sent, an error that is received was sent or stands for an outcome that is too
deep, only a cancellation is received as one, and of two outcomes that fit and carry no null neither
is received as the other. -/
theorem decode_of_encode (o : Outcome) (exact : o.toJson.Exact) :
    (Json.nesting o.encode ≤ 127 → decode o.encode = o.withoutNull) ∧
      (127 < Json.nesting o.encode →
        ∃ e : WorkflowError, decode o.encode = .error (.error e) ∧ e.kind = .serialization) ∧
      (decode o.encode = o ↔ Json.nesting o.encode ≤ 127 ∧ ¬ o.CarriesNull) ∧
      (∀ v, decode o.encode = .ok v → o = .ok v) ∧
      (∀ f, decode o.encode = .error f →
        (∃ sent : Fault, o = .error sent ∧ sent.withoutNull = f) ∨
          127 < Json.nesting o.encode ∧
            ∃ e : WorkflowError, f = .error e ∧ e.kind = .serialization) ∧
      (decode o.encode = .error .cancelled ↔ o = .error .cancelled) ∧
      (∀ other : Outcome, other.toJson.Exact → Json.nesting o.encode ≤ 127 →
        Json.nesting other.encode ≤ 127 → ¬ o.CarriesNull → ¬ other.CarriesNull →
        decode o.encode = decode other.encode → o = other) := by
  have nesting : ∀ {o : Outcome}, o.toJson.Exact → Json.nesting o.encode = o.toJson.depth :=
    fun exact => Json.nesting_text exact
  have within : ∀ {o : Outcome}, o.toJson.Exact → Json.nesting o.encode ≤ 127 →
      decode o.encode = o.withoutNull := by
    intro o exact fits
    rw [decode_text o exact, if_pos (nesting exact ▸ fits)]
  have beyond : 127 < Json.nesting o.encode →
      decode o.encode = .error (.error (.ofDecode (.malformed .tooDeep))) := by
    intro deep
    rw [decode_text o exact, if_neg (Nat.not_le.2 (nesting exact ▸ deep))]
  refine ⟨within exact, fun deep => ⟨_, beyond deep, rfl⟩, ⟨fun same => ?_, fun kept => ?_⟩,
    fun v received => ?_, fun f received => ?_, ⟨decode_eq_cancelled, ?_⟩,
    fun other exact' fits fits' kept kept' same => ?_⟩
  · by_cases fits : Json.nesting o.encode ≤ 127
    · exact ⟨fits, withoutNull_eq_self.1 ((within exact fits).symm.trans same)⟩
    · obtain rfl := (beyond (Nat.lt_of_not_le fits)).symm.trans same
      rw [nesting exact, depth_refused] at fits
      exact absurd (by decide) fits
  · rw [within exact kept.1, withoutNull_eq_self.2 kept.2]
  · by_cases fits : Json.nesting o.encode ≤ 127
    · exact of_withoutNull_eq_ok ((within exact fits).symm.trans received)
    · cases (beyond (Nat.lt_of_not_le fits)).symm.trans received
  · by_cases fits : Json.nesting o.encode ≤ 127
    · exact .inl (of_withoutNull_eq_error ((within exact fits).symm.trans received))
    · cases (beyond (Nat.lt_of_not_le fits)).symm.trans received
      exact .inr ⟨Nat.lt_of_not_le fits, _, rfl, rfl⟩
  · rintro rfl
    exact within exact (by rw [nesting exact]; decide)
  · rw [within exact fits, within exact' fits', withoutNull_eq_self.2 kept,
      withoutNull_eq_self.2 kept'] at same
    exact same

/-- A float in 126 lists crosses and in 127 it is too deep; an error that carries null is received
without it. -/
theorem decode_of_encode_nested :
    ∃ fits deep late : Outcome, fits.toJson.Exact ∧ deep.toJson.Exact ∧ late.toJson.Exact ∧
      late.CarriesNull ∧ decode fits.encode = fits ∧
      (∃ e : WorkflowError, decode deep.encode = .error (.error e) ∧ e.kind = .serialization) ∧
      decode late.encode = late.withoutNull ∧ decode late.encode ≠ late := by
  let lists (n : Nat) : Json := Nat.repeat (fun j => .array [j]) n
    (.number (.float ⟨false, 0x18000000000000, -52, by decide⟩))
  have canonical : ∀ n, (lists n).isCanonical = true := by
    intro n
    induction n with
    | zero => rfl
    | succ n ih => exact Bool.and_eq_true_iff.2 ⟨ih, rfl⟩
  have half : (Number.float ⟨false, 0x18000000000000, -52, by decide⟩).Exact := by
    unfold Number.Exact
    decide +kernel
  have exact : ∀ n, (lists n).Exact := by
    intro n
    induction n with
    | zero => exact half
    | succ n ih => exact ⟨ih, trivial⟩
  let sent (n : Nat) : Outcome := .ok ⟨lists n, canonical n⟩
  have exactSent : ∀ n, (sent n).toJson.Exact := fun n => ⟨exact n, trivial⟩
  let late : Outcome := .error (.error ((WorkflowError.user "late" "gone").withPayload .null))
  have exactLate : late.toJson.Exact := by
    simp [late, toJson, Fault.toJson, WorkflowError.toJson, WorkflowError.user,
      WorkflowError.withPayload, ErrorKind.toJson, Json.Exact, Json.EntriesExact, Value.null]
  have depth : ∀ n, (lists n).depth = n := by
    intro n
    induction n with
    | zero => rfl
    | succ n ih => exact congrArg (· + 1) ((Nat.max_zero _).trans ih)
  have nesting : ∀ n, Json.nesting (sent n).encode = n + 1 := by
    intro n
    rw [encode, Json.nesting_text (exactSent n)]
    exact congrArg (· + 1) ((Nat.max_zero _).trans (depth n))
  have shallow : Json.nesting late.encode ≤ 127 := by
    rw [encode, Json.nesting_text exactLate]
    decide +kernel
  exact ⟨sent 126, sent 127, late, exactSent 126, exactSent 127, exactLate, rfl,
    (decode_of_encode _ (exactSent 126)).1 (nesting 126).le,
    (decode_of_encode _ (exactSent 127)).2.1 (nesting 127).ge,
    (decode_of_encode _ exactLate).1 shallow,
    fun same => ((decode_of_encode _ exactLate).2.2.1.1 same).2 rfl⟩

end Outcome

end WorkflowEngine
