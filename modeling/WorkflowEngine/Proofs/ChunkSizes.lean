import Mathlib
import WorkflowEngine.Data.PartitionVector
import WorkflowEngine.Proofs.Aborts
import WorkflowEngine.Proofs.Acceptance
import WorkflowEngine.Proofs.OneWriter
import WorkflowEngine.Proofs.SequenceReads
import WorkflowEngine.Workflow.Codec
/-!
The chunk sizes of sequences. A sequence can be made, found by its name and decoded; wherever it
comes from, its chunk size is not zero. The operations that divide by it are written here again for
the bare parts of a handle, with the faults that division by zero and an index beyond a list are.
-/
set_option autoImplicit false

namespace WorkflowEngine

@[simp] theorem Variant.name_record {α : Type} (name title : String) (layout : Layout α) :
    (Variant.record name title layout).name = name := rfl

@[simp] theorem Variant.name_empty {α : Type} (name : String) (a : α) :
    (Variant.empty name a).name = name := rfl

/-! ## Handles in documents -/

/-- The key, the length and the chunk size of a sequence. -/
abbrev Sequence.Parts := Key × UInt64 × UInt64

namespace Sequence

namespace Parts

def key (p : Parts) : Key := p.1

def length (p : Parts) : UInt64 := p.2.1

def chunkSize (p : Parts) : UInt64 := p.2.2

def decoder : Decoder Parts := .record "struct SequenceHandle" layout

end Parts

def parts (q : Sequence) : Parts := (q.key, q.length, q.chunkSize)

theorem parts_of_ofParts {key : Key} {length chunkSize : UInt64} {q : Sequence}
    (h : ofParts key length chunkSize = .ok q) : q.parts = (key, length, chunkSize) := by
  unfold ofParts at h
  split at h
  · cases h
  · cases h
    rfl

theorem ofParts_parts (q : Sequence) : ofParts q.key q.length q.chunkSize = .ok q :=
  dif_neg q.chunkSize_ne_zero

theorem refines_parts : decoder.Refines Parts.decoder fun q p => q.parts = p :=
  Decoder.refines_refine fun _ _ => parts_of_ofParts

theorem refines_partitions :
    decoder.list.Refines Parts.decoder.list fun qs ps => qs.map parts = ps :=
  refines_parts.list.mono fun qs ps all => by
    induction all with
    | nil => rfl
    | cons first _ ih => rw [List.map_cons, first, ih]

end Sequence

open Sequence (Parts)

namespace PartitionVector

def partsDecoder : Decoder (List Parts) :=
  .record "struct CloudVector" (Layout.pure id |>.required "partitions" Parts.decoder.list)

theorem refines_parts :
    decoder.Refines partsDecoder fun v ps => v.partitions.map Sequence.parts = ps :=
  Decoder.refines_record _ <|
    (Layout.refines_pure fun _ _ => id).required Sequence.refines_partitions

end PartitionVector

namespace Operation

/-- The handles of sequences in an operation. -/
def handles : Operation → List Sequence
  | .sequenceItems q | .sequenceGet q _ => [q]
  | .vectorOf partitions => partitions
  | .vectorItems v => v.partitions
  | _ => []

/-- The variants whose fields are handles, read without a check. -/
def partsVariants : List (Variant (List Parts)) :=
  [ .record "sequence_enumerate" "ExternalOp::SequenceEnumerate"
      (Layout.pure (fun p => [p]) |>.required "sequence" Parts.decoder),
    .record "sequence_get" "ExternalOp::SequenceGet"
      (Layout.pure (fun p _ => [p]) |>.required "sequence" Parts.decoder
        |>.required "index" Decoder.count),
    .record "vector_of_partitions" "ExternalOp::VectorOfPartitions"
      (Layout.pure id |>.required "partitions" Parts.decoder.list),
    .record "vector_enumerate" "ExternalOp::VectorEnumerate"
      (Layout.pure id |>.required "vector" PartitionVector.partsDecoder) ]

/-- A variant without handles. -/
def silent (variant : Variant Operation) : Variant (List Parts) :=
  ⟨variant.name, variant.content.map fun _ => []⟩

/-- A variant read without a check of its handles. -/
def uncheckedVariant (variant : Variant Operation) : Variant (List Parts) :=
  (partsVariants.find? (·.name == variant.name)).getD (silent variant)

def partsDecoder : Decoder (List Parts) :=
  .tagged "ExternalOp" "op" (variants.map uncheckedVariant)

/-- What an unchecked reading says of the handles of an operation. -/
abbrev HasParts (op : Operation) (ps : List Parts) : Prop := op.handles.map Sequence.parts = ps

theorem refines_silent {variant : Variant Operation}
    (h : variant.Yields fun _ op => op.handles = []) :
    variant.Refines (silent variant) HasParts := by
  refine ⟨rfl, fun source draft op hop => ⟨[], ?_, ?_⟩⟩
  · simp only [silent, Decoder.map, hop]
    rfl
  · rw [HasParts, h (n := draft.depth + 1) (.inl (Nat.le_succ _)) hop (Nat.succ_pos _)]
    rfl

section Silent

variable {α β : Type} {name title : String} {d : Decoder α} {d' : Decoder β} {field field' : String}

theorem silent_record {layout : Layout Operation} (h : layout.Yields fun _ op => op.handles = []) :
    (Variant.record name title layout).Refines (silent (.record name title layout)) HasParts :=
  refines_silent (Variant.yields_record name title h)

theorem silent_empty {op : Operation} (h : op.handles = []) :
    (Variant.empty name op).Refines (silent (.empty name op)) HasParts :=
  refines_silent (Variant.yields_empty name fun _ => h)

theorem silent_one {make : α → Operation} (h : ∀ a, (make a).handles = []) :
    (Variant.record name title (Layout.pure make |>.required field d)).Refines
      (silent (.record name title (Layout.pure make |>.required field d))) HasParts :=
  silent_record ((Layout.yields_pure fun _ a _ => h a).required d.yields_any)

theorem silent_two {make : α → β → Operation} (h : ∀ a b, (make a b).handles = []) :
    (Variant.record name title
        (Layout.pure make |>.required field d |>.required field' d')).Refines
      (silent (.record name title (Layout.pure make |>.required field d |>.required field' d')))
      HasParts :=
  silent_record <|
    ((Layout.yields_pure fun _ a _ b _ => h a b).required d.yields_any).required d'.yields_any

end Silent

theorem refines_unchecked :
    ∀ variant ∈ variants, variant.Refines (uncheckedVariant variant) HasParts := by
  have cellNew : (Layout.pure cellNew |>.required "value" Decoder.value
      |>.defaulted "name" none Decoder.string.optional).Yields fun _ op => op.handles = [] :=
    ((Layout.yields_pure fun _ _ _ _ _ => rfl).required (Decoder.yields_any _)).defaulted
      (Decoder.yields_any _) fun _ => trivial
  -- The name of each variant says whether it is one of those with handles.
  simp only [variants, List.forall_mem_cons, uncheckedVariant, partsVariants, Variant.name_record,
    Variant.name_empty, List.find?_cons, List.find?_nil, String.reduceBEq, Option.getD_some,
    Option.getD_none]
  refine ⟨silent_one fun _ => rfl, silent_one fun _ => rfl, silent_two fun _ _ => rfl,
    silent_empty rfl, silent_empty rfl, silent_empty rfl, silent_two fun _ _ => rfl,
    silent_record cellNew, silent_one fun _ => rfl, silent_one fun _ => rfl,
    silent_one fun _ => rfl, ?enumerate, ?get, ?partitions, ?vector, silent_one fun _ => rfl,
    silent_one fun _ => rfl, silent_two fun _ _ => rfl, silent_two fun _ _ => rfl,
    silent_two fun _ _ => rfl, silent_one fun _ => rfl, nofun⟩
  case enumerate =>
    exact Variant.refines_record _ _ <|
      (Layout.refines_pure fun _ _ h => congrArg ([·]) h).required Sequence.refines_parts
  case get =>
    exact Variant.refines_record _ _ <|
      ((Layout.refines_pure fun _ _ h _ _ _ => congrArg ([·]) h).required
        Sequence.refines_parts).required (Decoder.refines_any _)
  case partitions =>
    exact Variant.refines_record _ _ <|
      (Layout.refines_pure fun _ _ h => h).required Sequence.refines_partitions
  case vector =>
    exact Variant.refines_record _ _ <|
      (Layout.refines_pure fun _ _ h => h).required PartitionVector.refines_parts

theorem refines_parts : decoder.Refines partsDecoder HasParts :=
  Decoder.refines_tagged _ _ <|
    List.forall₂_map_right_iff.2 <| List.forall₂_same.2 refines_unchecked

end Operation

/-! ## Workflows -/

namespace Workflow

mutual
/-- The handles of sequences in the operations of a workflow. -/
def handles : Workflow → List Sequence
  | .ret _ | .raise _ => []
  | .bind body _ | .tryWith body _ => body.handles
  | .parallel children | .choice children => allHandles children
  | .perform op => op.handles

def allHandles : List Workflow → List Sequence
  | [] => []
  | w :: ws => w.handles ++ allHandles ws
end

/-- The variants of workflows, without a check of the handles. -/
def partsVariants (inner : Decoder (List Parts)) : List (Variant (List Parts)) :=
  [ .record "return" "Workflow::Return"
      (Layout.pure (fun _ => []) |>.required "value" Decoder.value),
    .record "bind" "Workflow::Bind"
      (Layout.pure (fun ps _ => ps) |>.required "workflow" inner
        |>.required "continuation" FunctionRef.decoder),
    .record "parallel" "Workflow::Parallel"
      (Layout.pure List.flatten |>.required "workflows" inner.list),
    .record "choice" "Workflow::Choice"
      (Layout.pure List.flatten |>.required "workflows" inner.list),
    .record "of_external_async" "Workflow::OfExternalAsync"
      (Layout.pure id |>.required "op" Operation.partsDecoder),
    .record "try_with" "Workflow::TryWith"
      (Layout.pure (fun ps _ => ps) |>.required "body" inner
        |>.required "handler" FunctionRef.decoder),
    .record "raise" "Workflow::Raise"
      (Layout.pure (fun _ => []) |>.required "error" WorkflowError.decoder) ]

def partsTo : Nat → Decoder (List Parts)
  | 0 => fun _ _ => .error (.malformed .tooDeep)
  | levels + 1 => .tagged "Workflow" "type" (partsVariants (partsTo levels))

def partsDecoder : Decoder (List Parts) := fun source d => partsTo (d.depth + 1) source d

abbrev HasParts (w : Workflow) (ps : List Parts) : Prop := w.handles.map Sequence.parts = ps

theorem hasParts_all {ws : List Workflow} {pss : List (List Parts)}
    (h : List.Forall₂ HasParts ws pss) : (allHandles ws).map Sequence.parts = pss.flatten := by
  induction h with
  | nil => rfl
  | cons first _ ih => rw [allHandles, List.map_append, first, ih, List.flatten_cons]

theorem refines_partsTo (levels : Nat) : (decoderTo levels).Refines (partsTo levels) HasParts := by
  induction levels with
  | zero => exact fun _ _ => refines_error
  | succ levels ih =>
    have function := FunctionRef.decoder.refines_any
    have children := ih.list.mono fun _ _ => hasParts_all
    refine Decoder.refines_tagged _ _ (.cons ?ret <| .cons ?bind <| .cons ?parallel <|
      .cons ?choice <| .cons ?perform <| .cons ?tryWith <| .cons ?raise .nil) <;>
      apply Variant.refines_record
    case ret => exact (Layout.refines_pure fun _ _ _ => rfl).required (Decoder.refines_any _)
    case bind => exact ((Layout.refines_pure fun _ _ h _ _ _ => h).required ih).required function
    case parallel => exact (Layout.refines_pure fun _ _ h => h).required children
    case choice => exact (Layout.refines_pure fun _ _ h => h).required children
    case perform => exact (Layout.refines_pure fun _ _ h => h).required Operation.refines_parts
    case tryWith =>
      exact ((Layout.refines_pure fun _ _ h _ _ _ => h).required ih).required function
    case raise => exact (Layout.refines_pure fun _ _ _ => rfl).required (Decoder.refines_any _)

theorem refines_parts : decoder.Refines partsDecoder HasParts :=
  fun source draft => refines_partsTo _ source draft

end Workflow

/-! ## Arithmetic that can fail -/

/-- What ends a worker in the middle of an operation. -/
inductive Trap where
  | divisionByZero
  | outOfBounds

namespace Trap

def divide (n d : Nat) : Except Trap Nat :=
  if d = 0 then .error .divisionByZero else .ok (n / d)

def remainder (n d : Nat) : Except Trap Nat :=
  if d = 0 then .error .divisionByZero else .ok (n % d)

/-- The quotient, rounded up. -/
def divideUp (n d : Nat) : Except Trap Nat := do
  let quotient ← divide n d
  let rest ← remainder n d
  return if 0 < rest then quotient + 1 else quotient

def item {α : Type} (xs : List α) (i : Nat) : Except Trap α :=
  match xs[i]? with
  | some a => .ok a
  | none => .error .outOfBounds

theorem divideUp_of_pos {n d : Nat} (pos : 0 < d) : divideUp n d = .ok ((n + d - 1) / d) := by
  have whole := Nat.div_add_mod n d
  have less := Nat.mod_lt n pos
  have quotient : (n + d - 1) / d = if 0 < n % d then n / d + 1 else n / d := by
    split
    · rw [Nat.div_eq_iff pos]
      constructor <;> rw [Nat.add_mul] <;> rw [Nat.mul_comm] at whole <;> omega
    · rw [Nat.div_eq_iff pos]
      rw [Nat.mul_comm] at whole
      omega
  simp only [divideUp, divide, remainder, if_neg pos.ne', bind, Except.bind, quotient]
  rfl

end Trap

/-- How an operation on the bare parts of a handle fails. -/
inductive Mishap where
  | trap (t : Trap)
  | store (e : StoreError)

def Mishap.ofTrap {α : Type} (x : Except Trap α) : ExceptT Mishap Program α :=
  ExceptT.mk (pure (x.mapError .trap))

namespace Sequence

namespace Parts

def chunkCount (p : Parts) : Except Trap Nat :=
  Trap.divideUp p.length.toNat (max p.chunkSize 1).toNat

def readChunk (element : Decoder Value) (p : Parts) (i : Nat) : StoreProgram (List Value) := do
  StoreProgram.decode element.list (← StoreProgram.readImmutable (chunkKey p.key i))

/-- The item at an index, read without a check of the chunk size. -/
def get (element : Decoder Value) (p : Parts) (index : Nat) : ExceptT Mishap Program Value := do
  if p.length.toNat ≤ index then
    throw (.store (.notFound (p.key.text ++ "[" ++ toString index ++ "]")))
  let i ← Mishap.ofTrap (Trap.divide index p.chunkSize.toNat)
  let items ← (p.readChunk element i).adapt .store
  let place ← Mishap.ofTrap (Trap.remainder index p.chunkSize.toNat)
  if items.length ≤ place then
    throw (.store (.backend ("chunk " ++ toString i ++ " of " ++ p.key.text ++
      " is shorter than expected")))
  Mishap.ofTrap (Trap.item items place)

end Parts

theorem adapt_bind {ε ε' α β : Type} (f : ε → ε') (p : ExceptT ε Program α)
    (g : α → ExceptT ε Program β) : (p >>= g).adapt f = p.adapt f >>= fun a => (g a).adapt f := by
  change Except.mapError f <$> (p >>= g).run = (Except.mapError f <$> p.run) >>= _
  rw [ExceptT.run_bind, Program.map_bind, Program.bind_map]
  congr 1
  funext result
  cases result <;> rfl

/-- With a chunk size that is not zero no operation of it fails, whatever the store holds. -/
theorem get_parts (element : Decoder Value) (q : Sequence) (index : Nat) :
    q.parts.get element index = (q.get element index).adapt .store := by
  have divided : Trap.divide index q.chunkSize.toNat = .ok (index / q.chunkSize.toNat) :=
    if_neg q.chunkSize_pos.ne'
  have remains : Trap.remainder index q.chunkSize.toNat = .ok (index % q.chunkSize.toNat) :=
    if_neg q.chunkSize_pos.ne'
  unfold Parts.get Sequence.get
  by_cases past : q.length.toNat ≤ index
  · rw [if_pos past, if_pos (show q.parts.length.toNat ≤ index from past)]
    rfl
  rw [if_neg past, if_neg (show ¬ q.parts.length.toNat ≤ index from past)]
  change Mishap.ofTrap (Trap.divide index q.chunkSize.toNat) >>= _ = _
  rw [divided, adapt_bind]
  refine congrArg (fun next => (q.readChunk element _).adapt Mishap.store >>= next)
    (funext fun items => ?_)
  change Mishap.ofTrap (Trap.remainder index q.chunkSize.toNat) >>= _ = _
  rw [remains]
  change (if items.length ≤ index % q.chunkSize.toNat then _ else Mishap.ofTrap _) = _
  by_cases short : items.length ≤ index % q.chunkSize.toNat
  · rw [if_pos short, List.getElem?_eq_none short]
    rfl
  · rw [if_neg short, Trap.item, List.getElem?_eq_getElem (Nat.lt_of_not_le short)]
    rfl

theorem not_traps (element : Decoder Value) (q : Sequence) (index : Nat) (t : Trap) :
    ¬ (q.parts.get element index).run.Gives (.error (.trap t)) := by
  rw [get_parts]
  intro h
  obtain ⟨result, -, h⟩ := Program.gives_bind.1 h
  cases result with
  | ok v => cases Program.gives_pure.1 h
  | error e => cases Program.gives_pure.1 h

/-- Without the check a forged handle would end the worker that reads it. -/
theorem get_of_zero (element : Decoder Value) {p : Parts} {index : Nat} (zero : p.chunkSize = 0)
    (within : index < p.length.toNat) :
    p.get element index = throw (.trap .divisionByZero) := by
  unfold Parts.get
  rw [if_neg (Nat.not_le.2 within), zero]
  rfl

theorem max_one (n : UInt64) : max n 1 = if n = 0 then 1 else n := by
  change (if n ≤ 1 then 1 else n) = _
  have zero : n = 0 ↔ n.toNat = 0 := UInt64.toNat_inj.symm
  have one : n = 1 ↔ n.toNat = 1 := UInt64.toNat_inj.symm
  by_cases h : n ≤ 1
  · have le : n.toNat ≤ 1 := UInt64.le_iff_toNat_le.1 h
    rw [if_pos h]
    split
    · rfl
    · next some' =>
      have pos := mt zero.2 some'
      exact (one.2 (by omega)).symm
  · rw [if_neg h, if_neg]
    rintro rfl
    exact h (by decide)

theorem chunkCount_parts (q : Sequence) : q.parts.chunkCount = .ok q.chunkCount := by
  rw [Parts.chunkCount, max_one, if_neg (show q.parts.chunkSize ≠ 0 from q.chunkSize_ne_zero)]
  exact Trap.divideUp_of_pos q.chunkSize_pos

/-! ## Where handles come from -/

/-- A new sequence has chunks of the size that is set, or of size one if that is zero. -/
theorem parts_of_create {container : String} {n : UInt64} {retries : UInt32} {items : List Value}
    {q : Sequence} (h : (create (.ofParts container n retries) items).run.Gives (.ok q)) :
    ∃ key, q.parts = (key, UInt64.ofNat items.length, max n 1) := by
  obtain ⟨key, -, h⟩ := gives_ok_bind h
  obtain ⟨_, -, h⟩ := gives_ok_bind h
  obtain ⟨_, -, h⟩ := gives_ok_bind h
  obtain rfl := gives_ok h
  refine ⟨key, ?_⟩
  rw [parts, max_one, DataSettings.ofParts]
  split <;> rfl

/-- A sequence that is found has the length and the chunk size of the stored header. -/
theorem header_of_find {t : DataSettings} {name : String} {q : Sequence}
    (h : (find t name).run.Gives (.ok q)) :
    ∃ data, (StoreProgram.readImmutable (t.key name)).run.Gives (.ok data) ∧
      headerDecoder.ofBytes data = .ok (q.length, q.chunkSize) := by
  obtain ⟨data, found, h⟩ := gives_ok_bind h
  refine ⟨data, found, ?_⟩
  have header : Program.Gives (.done (ofHeader (t.key name) data)) (.ok q) :=
    cast (congrArg (Program.Gives · (.ok q)) (run_header (t.key name) data)) h
  have made := (Program.gives_pure.1 header).symm
  unfold ofHeader at made
  split at made
  · cases made
  · next length chunkSize read =>
    have same := congrArg Prod.snd (parts_of_ofParts (Except.of_mapError_ok made))
    exact read.trans (congrArg Except.ok same.symm)

theorem find_of_zero {t : DataSettings} {name : String} {w : Session} {data : Bytes}
    {length : UInt64} (stored : w.lookup (t.key name) = .ok data)
    (zero : headerDecoder.ofBytes data = .ok (length, 0)) :
    (w.run (find t name).run).1 = .error (.backend (zeroChunk (t.key name))) := by
  have read := w.reads_readImmutable (t.key name)
  rw [stored] at read
  have whole : w.Reads (· = .get (t.key name)) (find t name).run _ :=
    read.andThen_ok fun w' _ =>
      cast (congrArg (fun p => w'.Reads _ p (ofHeader (t.key name) data)) (run_header _ _).symm)
        (Session.reads_done _)
  rw [whole.result, ofHeader, zero]
  rfl

/-- Whether a decoder gives the handles that stand in a document, and refuses a document in which a
handle has chunks of size zero. -/
structure Vouches {α : Type} (d : Decoder α) (raw : Decoder (List Parts))
    (handles : α → List Sequence) : Prop where
  reads : ∀ {c : Carrier} {a : α}, d.receive c = .ok a →
    raw.receive c = .ok ((handles a).map parts)
  refuses : ∀ {c : Carrier} {ps : List Parts}, raw.receive c = .ok ps →
    (∃ p ∈ ps, p.chunkSize = 0) → ∃ e, d.receive c = .error e

theorem vouches {α : Type} {d : Decoder α} {raw : Decoder (List Parts)}
    {handles : α → List Sequence} (h : d.Refines raw fun a ps => (handles a).map parts = ps) :
    Vouches d raw handles := by
  have reads : ∀ {c : Carrier} {a : α}, d.receive c = .ok a →
      raw.receive c = .ok ((handles a).map parts) := by
    intro c a ha
    obtain ⟨ps, hps, rfl⟩ := h.receive c a ha
    exact hps
  refine ⟨reads, ?_⟩
  rintro c ps hps ⟨p, hp, zero⟩
  cases hd : d.receive c with
  | error e => exact ⟨e, rfl⟩
  | ok a =>
    -- What is decoded are handles, of which none has such chunks.
    cases hps.symm.trans (reads hd)
    obtain ⟨q, -, rfl⟩ := List.mem_map.1 hp
    exact absurd zero q.chunkSize_ne_zero

theorem vouches_alone : Vouches decoder (Parts.decoder.map ([·])) ([·]) :=
  vouches fun source draft q hq => by
    obtain ⟨p, hp, rfl⟩ := refines_parts source draft q hq
    exact ⟨[q.parts], by rw [Decoder.map, hp]; rfl, rfl⟩

/-- Handles of sequences never divide by zero. A new one has chunks of the size that is set, or of
size one if that is zero; one that is found has the chunk size of its header, and no header with a
chunk size of zero is accepted; one that is decoded, alone or inside a vector, an operation or a
workflow, is what stands in the document, and no document with a chunk size of zero is accepted; a
copy has the same parts. So the count of the chunks is defined, and reading an item neither divides
by zero nor looks beyond a chunk, whatever the store answers. -/
theorem handles_divide_safely :
    (∀ container n retries items q,
      (create (.ofParts container n retries) items).run.Gives (.ok q) →
        ∃ key, q.parts = (key, UInt64.ofNat items.length, max n 1)) ∧
    (∀ t name q, (find t name).run.Gives (.ok q) →
      ∃ data, (StoreProgram.readImmutable (t.key name)).run.Gives (.ok data) ∧
        headerDecoder.ofBytes data = .ok (q.length, q.chunkSize)) ∧
    (∀ t name data length (w : Session), w.lookup (t.key name) = .ok data →
      headerDecoder.ofBytes data = .ok (length, 0) →
        (w.run (find t name).run).1 = .error (.backend (zeroChunk (t.key name)))) ∧
    Vouches decoder (Parts.decoder.map ([·])) ([·]) ∧
    Vouches PartitionVector.decoder PartitionVector.partsDecoder PartitionVector.partitions ∧
    Vouches Operation.decoder Operation.partsDecoder Operation.handles ∧
    Vouches Workflow.decoder Workflow.partsDecoder Workflow.handles ∧
    ∀ q : Sequence, 1 ≤ q.chunkSize ∧ ofParts q.key q.length q.chunkSize = .ok q ∧
      q.parts.chunkCount = .ok q.chunkCount ∧
      ∀ element index, q.parts.get element index = (q.get element index).adapt .store ∧
        ∀ t, ¬ (q.parts.get element index).run.Gives (.error (.trap t)) := by
  refine ⟨fun _ _ _ _ _ => parts_of_create, fun _ _ _ => header_of_find,
    fun _ _ _ _ _ => find_of_zero, vouches_alone, vouches PartitionVector.refines_parts,
    vouches Operation.refines_parts, vouches Workflow.refines_parts, fun q => ⟨?_, ?_, ?_, ?_⟩⟩
  · exact UInt64.le_iff_toNat_le.2 q.chunkSize_pos
  · exact q.ofParts_parts
  · exact q.chunkCount_parts
  · exact fun element index => ⟨get_parts element q index, not_traps element q index⟩

end Sequence

end WorkflowEngine
