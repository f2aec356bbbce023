import WorkflowEngine.Registry.Builtin
import WorkflowEngine.Proofs.Calm
import WorkflowEngine.Proofs.KeyOrder
/-!
Registries that hold the functions of another one, as every registry does with the standard one, and
what the standard functions reply. The values that they build around a value or an error still tell
which one it was.
-/
set_option autoImplicit false

namespace WorkflowEngine

namespace Registry

variable {r r' s : Registry}

/-- Whether all that is found in one table is found in another. -/
def Covers {α : Type} (table other : List (String × α)) : Prop :=
  ∀ name a, other.lookup name = some a → table.lookup name = some a

/-- Whether a registry holds all functions of another one. -/
structure Includes (r s : Registry) : Prop where
  continuations : Covers r.continuations s.continuations
  handlers : Covers r.handlers s.handlers
  updates : Covers r.updates s.updates
  functions : Covers r.functions s.functions

theorem Includes.refl (r : Registry) : r.Includes r :=
  ⟨fun _ _ => id, fun _ _ => id, fun _ _ => id, fun _ _ => id⟩

/-- Adding a function takes none away. -/
theorem Covers.addTo {α : Type} {table table' other : List (String × α)} {name : String} {a : α}
    (h : Covers table other) (added : addTo table name a = .ok table') : Covers table' other := by
  unfold Registry.addTo at added
  split at added
  · cases added
  · cases added
    intro known b hb
    rw [List.lookup_append, h known b hb]
    rfl

theorem of_map_ok {α : Type} {x : Except WorkflowError α} {f : α → Registry}
    (h : x.map f = .ok r) : ∃ a, x = .ok a ∧ r = f a := by
  cases x with
  | error e => cases h
  | ok a =>
    cases h
    exact ⟨a, rfl, rfl⟩

theorem Includes.addContinuation {name : String} {f : Continuation} (h : r.Includes s)
    (added : r.addContinuation name f = .ok r') : r'.Includes s := by
  obtain ⟨table, htable, rfl⟩ := of_map_ok added
  exact { h with continuations := h.continuations.addTo htable }

theorem Includes.addHandler {name : String} {f : Handler} (h : r.Includes s)
    (added : r.addHandler name f = .ok r') : r'.Includes s := by
  obtain ⟨table, htable, rfl⟩ := of_map_ok added
  exact { h with handlers := h.handlers.addTo htable }

theorem Includes.addUpdate {name : String} {f : Update} (h : r.Includes s)
    (added : r.addUpdate name f = .ok r') : r'.Includes s := by
  obtain ⟨table, htable, rfl⟩ := of_map_ok added
  exact { h with updates := h.updates.addTo htable }

theorem Includes.addFunction {name : String} {f : Function} (h : r.Includes s)
    (added : r.addFunction name f = .ok r') : r'.Includes s := by
  obtain ⟨table, htable, rfl⟩ := of_map_ok added
  exact { h with functions := h.functions.addTo htable }

theorem Includes.continueWith (h : r.Includes s) {f : FunctionRef} {function : Continuation}
    (known : s.continuations.lookup f.name = some function) (v : Value) :
    r.continueWith f v = function v f.env := by
  simp only [Registry.continueWith, find, h.continuations _ _ known]

theorem Includes.handle (h : r.Includes s) {f : FunctionRef} {function : Handler}
    (known : s.handlers.lookup f.name = some function) (e : WorkflowError) :
    r.handle f e = function e f.env := by
  simp only [Registry.handle, find, h.handlers _ _ known]

/-! ## What the standard functions reply -/

section

variable (h : r.Includes .standard)

include h

theorem Includes.continueWith_thenDo (next : Workflow) (v : Value) :
    r.continueWith ⟨Builtin.thenDo, next.toValue⟩ v = .ok next.withoutNulls := by
  rw [h.continueWith rfl]
  exact congrArg Reply.ofExcept next.ofValue_toValue

theorem Includes.continueWith_ignore (v : Value) :
    r.continueWith ⟨Builtin.ignore, .null⟩ v = .ok .unit := by
  rw [h.continueWith rfl]

theorem Includes.continueWith_ok (v : Value) :
    r.continueWith ⟨Builtin.ok, .null⟩ v = .ok (.ret (.object [("ok", v)])) := by
  rw [h.continueWith rfl]

theorem Includes.continueWith_someIf (item v : Value) :
    r.continueWith ⟨Builtin.someIf, item⟩ v = Builtin.keepIf v item := by
  rw [h.continueWith rfl]

theorem Includes.handle_err (e : WorkflowError) :
    r.handle ⟨Builtin.err, .null⟩ e = .ok (.ret (.object [("err", e.toValue)])) := by
  rw [h.handle rfl]

theorem Includes.handle_recover (fallback : Value) (e : WorkflowError) :
    r.handle ⟨Builtin.recover, fallback⟩ e = .ok (.ret fallback) := by
  rw [h.handle rfl]

end

theorem mem_of_find {α : Type} {table : List (String × α)} {name : String} {a : α}
    (h : find table name = .ok a) : (name, a) ∈ table := by
  unfold find at h
  split at h
  · next known =>
    cases h
    obtain ⟨before, after, rfl, -⟩ := List.lookup_eq_some_iff.1 known
    exact List.mem_append_right _ List.mem_cons_self
  · cases h

/-- No standard function aborts. -/
theorem calm_standard : standard.Calm where
  continueWith {f v message} h := by
    have mild : ∀ entry ∈ standard.continuations, entry.2 v f.env ≠ .aborted message := by
      simp only [standard, Builtin.continuations, List.forall_mem_cons]
      refine ⟨?_, nofun, nofun, nofun, ?_, nofun, nofun, fun _ none => nomatch none⟩
      · cases hw : Workflow.ofValue f.env <;> simp [Reply.ofExcept]
      · unfold Builtin.keepIf
        split <;> simp
    unfold Registry.continueWith at h
    split at h
    · next function known => exact mild _ (mem_of_find known) h
    · cases h
  handle {f e message} h := by
    have mild : ∀ entry ∈ standard.handlers, entry.2 e f.env ≠ .aborted message := by
      simp only [standard, Builtin.handlers, List.forall_mem_cons]
      exact ⟨nofun, nofun, fun _ none => nomatch none⟩
    unfold Registry.handle at h
    split at h
    · next function known => exact mild _ (mem_of_find known) h
    · cases h
  update {f u v message} found h := by
    have mild : ∀ entry ∈ standard.updates, entry.2 v f.env ≠ .aborted message := by
      simp only [standard, Builtin.updates, List.forall_mem_cons]
      refine ⟨?_, fun _ none => nomatch none⟩
      cases hsum : Builtin.sum v f.env <;> simp [Except.map, Reply.ofExcept]
    unfold Registry.update at found
    cases known : find standard.updates f.name with
    | error e =>
      rw [known] at found
      cases found
    | ok function =>
      rw [known] at found
      cases found
      exact mild _ (mem_of_find known) h
  invoke {name arg a message} found := by
    cases found

end Registry

/-! ## Values under a key -/

namespace Value

theorem json_object_single (key : String) (v : Value) :
    (object [(key, v)]).json = .object [(key, v.json)] := by
  show Json.object [(key, v.json.canonical)] = _
  rw [v.json.canonical_of_isCanonical v.canonical]

theorem object_single_inj {key key' : String} {v w : Value} :
    object [(key, v)] = object [(key', w)] ↔ key = key' ∧ v = w := by
  constructor
  · intro h
    have hjson := congrArg Value.json h
    rw [json_object_single, json_object_single] at hjson
    simp only [Json.object.injEq, List.cons.injEq, Prod.mk.injEq, and_true] at hjson
    exact ⟨hjson.1, Value.ext hjson.2⟩
  · rintro ⟨rfl, rfl⟩
    rfl

end Value

theorem ErrorKind.toJson_injective {kind kind' : ErrorKind} (h : kind.toJson = kind'.toJson) :
    kind = kind' := by
  cases kind <;> cases kind' <;> simp_all [toJson, text]

theorem ErrorKind.isCanonical_toJson (kind : ErrorKind) : kind.toJson.isCanonical = true := by
  cases kind <;> rfl

namespace WorkflowError

/-- The entries of an error are written in the order of their keys. -/
theorem isCanonical_toJson (e : WorkflowError) : e.toJson.isCanonical = true := by
  obtain ⟨kind, message, payload⟩ := e
  have order : "kind" < "message" ∧ "message" < "payload" := by decide
  cases payload with
  | none =>
    simp [toJson, Json.isCanonical, Json.entriesCanonical, Json.before, kind.isCanonical_toJson,
      order]
  | some v =>
    simp [toJson, Json.isCanonical, Json.entriesCanonical, Json.before, kind.isCanonical_toJson,
      v.canonical, order]

/-- An error is known from its value. -/
theorem toValue_injective {d e : WorkflowError} (h : d.toValue = e.toValue) : d = e := by
  have hjson : d.toJson = e.toJson := by
    rw [← Json.canonical_of_isCanonical _ d.isCanonical_toJson,
      ← Json.canonical_of_isCanonical _ e.isCanonical_toJson]
    exact congrArg Value.json h
  obtain ⟨kind, message, payload⟩ := d
  obtain ⟨kind', message', payload'⟩ := e
  simp only [toJson, Json.object.injEq, List.cons_append, List.nil_append, List.cons.injEq,
    Prod.mk.injEq, true_and, Json.string.injEq] at hjson
  obtain ⟨hkind, rfl, hpayload⟩ := hjson
  obtain rfl := ErrorKind.toJson_injective hkind
  have same : payload = payload' := by
    cases payload with
    | none => cases payload' <;> simp_all
    | some v =>
      cases payload' with
      | none => simp at hpayload
      | some w => exact congrArg some (Value.ext (by simpa using hpayload))
  rw [same]

end WorkflowError

end WorkflowEngine
