import WorkflowEngine.Proofs.Decoders
/-!
Decoding documents where a limit of depth may stand in the way. `Decoder.Reads` says more than
`Decoder.Restores`: where there is no room for a document, its depth is what it is refused for.
-/
set_option autoImplicit false

namespace WorkflowEngine

open Json (Draft Lexeme)

namespace Source

theorem holds_zero (source : Source) : source.Holds 0 := by
  cases source with
  | text levels => exact Nat.zero_le levels
  | kept | memory | settings => trivial

end Source

/-! ## What is read, and what is too deep -/

namespace Decoder

variable {α β : Type} {d : Decoder α} {j : Json} {a : α}

/-- Whether a document is decoded as a value wherever there is room for it and is too deep
everywhere else. -/
def Reads (d : Decoder α) (j : Json) (a : α) : Prop :=
  ∀ source : Source, d source (.ofJson j) =
    if source.Holds j.depth then .ok a else .error (.malformed .tooDeep)

theorem Reads.restores (h : d.Reads j a) : d.Restores j a := fun source room =>
  (h source).trans (if_pos room)

theorem Reads.kept (h : d.Reads j a) : d .kept (.ofJson j) = .ok a := h.restores .kept trivial

/-- There is room for a document without containers everywhere. -/
theorem Restores.reads (h : d.Restores j a) (flat : j.depth = 0) : d.Reads j a := by
  intro source
  have room : source.Holds j.depth := flat ▸ source.holds_zero
  rw [if_pos room, h source room]

theorem reads_value (v : Value) : Decoder.value.Reads v.json v := by
  intro source
  unfold Decoder.value
  rw [Source.read_ofJson]
  by_cases room : source.Holds v.json.depth
  · rw [if_pos room, if_pos room]
    exact congrArg Except.ok v.ofJson_json
  · rw [if_neg room, if_neg room]
    rfl

theorem Reads.map {f : α → β} (h : d.Reads j a) : (d.map f).Reads j (f a) := by
  intro source
  unfold Decoder.map
  rw [h source]
  split <;> rfl

theorem Reads.optional (h : d.Reads j a) (present : j ≠ .null) :
    d.optional.Reads j (some a) := by
  intro source
  have hoptional : d.optional source (.ofJson j) = (d source (.ofJson j)).map some := by
    cases j with
    | null => exact absurd rfl present
    | bool | number | string | array | object => rfl
  rw [hoptional, h source]
  split <;> rfl

end Decoder

namespace Layout

variable {α β : Type} {f : Layout (α → β)} {g : α → β} {d : Decoder α} {a : α} {j : Json}
  {name : String} {es : List (String × Json)} {m n : Nat}

/-- Whether the fields that the entries of an object stand for are read wherever there is room for
some depth and are too deep everywhere else. -/
def Reads (layout : Layout α) (es : List (String × Json)) (depth : Nat) (a : α) : Prop :=
  ∀ (source : Source) (described : String) (index : Nat),
    (source.Holds depth →
      layout.read source described index (.entries (Draft.ofEntries es)) = .ok a) ∧
    (¬ source.Holds depth → ∃ place,
      layout.read source described index (.entries (Draft.ofEntries es)) =
        .error (place, .malformed .tooDeep))

theorem reads_pure (a : α) (es : List (String × Json)) : (Layout.pure a).Reads es 0 a :=
  fun source _ _ => ⟨fun _ => rfl, fun deep => absurd source.holds_zero deep⟩

theorem reads_field {absence : Absence α} (present : Json.valuesAt name es = [j])
    (h : d.Reads j a) : (field name absence d).Reads es j.depth a := by
  intro source described index
  refine ⟨fun room => readEntry_of_single present (h.restores source room), fun deep => ?_⟩
  obtain ⟨place, rest, hfirst, -⟩ := firstEntry_of_cons present 0
  have refused : d source (.ofJson j) = .error (.malformed .tooDeep) :=
    (h source).trans (if_neg deep)
  refine ⟨2 * place + 1, ?_⟩
  show readEntry name absence d source (Draft.ofEntries es) = _
  simp only [readEntry, hfirst, refused]
  rfl

/-- Of two faults for depth either is one. -/
theorem Reads.seq {x : Layout α} (hf : f.Reads es m g) (hx : x.Reads es n a) :
    (f.seq x).Reads es (max m n) (g a) := by
  intro source described index
  obtain ⟨fits, deep⟩ := hf source described index
  obtain ⟨fits', deep'⟩ := hx source described (index + f.width)
  rw [Source.holds_max]
  constructor
  · rintro ⟨room, room'⟩
    simp only [Layout.seq, fits room, fits' room']
    rfl
  · intro none
    by_cases room : source.Holds m
    · obtain ⟨place, refused⟩ := deep' fun room' => none ⟨room, room'⟩
      exact ⟨place, by simp only [Layout.seq, fits room, refused]; rfl⟩
    · obtain ⟨place, refused⟩ := deep room
      by_cases room' : source.Holds n
      · exact ⟨place, by simp only [Layout.seq, refused, fits' room']; rfl⟩
      · obtain ⟨place', refused'⟩ := deep' room'
        simp only [Layout.seq, refused, refused', Placed.both]
        split
        · exact ⟨place', rfl⟩
        · exact ⟨place, rfl⟩

theorem Reads.required (hf : f.Reads es m g) (present : Json.valuesAt name es = [j])
    (h : d.Reads j a) : (f.required name d).Reads es (max m j.depth) (g a) :=
  hf.seq (reads_field present h)

theorem Reads.defaulted {default : α} (hf : f.Reads es m g)
    (present : Json.valuesAt name es = [j]) (h : d.Reads j a) :
    (f.defaulted name default d).Reads es (max m j.depth) (g a) :=
  hf.seq (reads_field present h)

theorem Reads.absent (hf : f.Reads es m g) (absent : Json.valuesAt name es = []) :
    (f.defaulted name a d).Reads es m (g a) := by
  have field : (field name (.defaulted a) d).Reads es 0 a := fun source _ _ =>
    ⟨fun _ => readEntry_of_absent absent, fun deep => absurd source.holds_zero deep⟩
  rw [← Nat.max_zero m]
  exact hf.seq field

end Layout

namespace Decoder

variable {α : Type} {j : Json} {a : α} {es : List (String × Json)}

/-- A container is too deep where it may not open, and where what it holds is too deep inside. -/
theorem reads_container {d : Decoder α} {k : Source → Except DecodeError α} {n : Nat}
    (depth : j.depth = n + 1)
    (opens : ∀ source, d source (.ofJson j) = source.inside >>= k)
    (inner : ∀ source, k source =
      if source.Holds n then .ok a else .error (.malformed .tooDeep)) : d.Reads j a := by
  intro source
  rw [opens, depth]
  by_cases room : source.Holds (n + 1)
  · obtain ⟨inside, hinside, hinner⟩ := Source.inside_of_holds room
    rw [if_pos room, hinside]
    exact (inner inside).trans (if_pos hinner)
  · rw [if_neg room]
    obtain hinside | ⟨inside, hinside, hinner⟩ := Source.inside_of_not_holds room
    · rw [hinside]
      rfl
    · rw [hinside]
      exact (inner inside).trans (if_neg hinner)

theorem reads_record {layout : Layout α} (title : String)
    (h : layout.Reads es (Json.depthEntries es) a) :
    (Decoder.record title layout).Reads (.object es) a := by
  refine reads_container rfl (fun _ => rfl) fun source => ?_
  obtain ⟨fits, deep⟩ := h source (title ++ " with " ++ countOf layout.width "element") 0
  simp only [checkEntries_ofEntries]
  by_cases room : source.Holds (Json.depthEntries es)
  · rw [if_pos room, fits room]
    rfl
  · obtain ⟨place, refused⟩ := deep room
    rw [if_neg room, refused]
    rfl

theorem reads_entry {variants : List (String × Content α)} {name : String} {content : Content α}
    (known : variants.lookup name = some content) (h : content.decoder.Reads j a) :
    (alternative variants).Reads (.object [(name, j)]) a := by
  have hfind : findContent variants name = .ok content := by
    unfold findContent
    rw [known]
  have hdepth : (Json.object [(name, j)]).depth = j.depth + 1 := congrArg (· + 1) (Nat.max_zero _)
  refine reads_container hdepth (k := fun source => content.decoder source (.ofJson j))
    (fun source => ?_) h
  cases source with
  | text levels =>
    show (do
      let inner ← Source.inside (.text levels)
      let content ← findContent variants name
      let a ← content.decoder inner (.ofJson j)
      checkSingle [] .closed
      return a) = _
    rw [hfind]
    cases Source.inside (.text levels) with
    | error e => rfl
    | ok inner =>
      show (content.decoder inner (.ofJson j) >>= fun a => .ok a) =
        content.decoder inner (.ofJson j)
      cases content.decoder inner (.ofJson j) <;> rfl
  | kept | memory | settings =>
    show (do (← findContent variants name).decoder _ (.ofJson j)) = _
    rw [hfind]
    rfl

/-! ## Tag and content as two entries -/

variable {variants : Decoder (SplitVariant α)} {variant : SplitVariant α} {name : String}

theorem next_tag (keys : SplitKeys) (d : Draft) (more : Entries) :
    keys.next .closed ((.of keys.tag, d) :: more) = .ok (some (true, d, more)) := by
  simp [SplitKeys.next, Lexeme.of, ofReading, Except.mapError, bind, Except.bind]
  rfl

theorem next_content {keys : SplitKeys} (apart : keys.content ≠ keys.tag) (d : Draft)
    (more : Entries) :
    keys.next .closed ((.of keys.content, d) :: more) = .ok (some (false, d, more)) := by
  simp [SplitKeys.next, Lexeme.of, ofReading, Except.mapError, bind, Except.bind, apart]
  rfl

/-- A variant that stands before its content decides how that is decoded. -/
theorem reads_split (title : String) (keys : SplitKeys) (apart : keys.content ≠ keys.tag)
    (known : variants.Restores (.string name) variant) (h : variant.content.Reads j a) :
    (split title keys variants).Reads
      (.object [(keys.tag, .string name), (keys.content, j)]) a := by
  have hdepth : (Json.object [(keys.tag, .string name), (keys.content, j)]).depth =
      j.depth + 1 := by
    simp [Json.depth, Json.depthEntries]
  refine reads_container hdepth
    (k := fun source => keys.decode variants source .closed
      (Draft.ofEntries [(keys.tag, .string name), (keys.content, j)]))
    (fun _ => rfl) fun source => ?_
  simp only [Draft.ofEntries, SplitKeys.decode, next_tag, next_content apart,
    known source source.holds_zero, h source, bind, Except.bind]
  by_cases room : source.Holds j.depth
  · rw [if_pos room]
    rfl
  · rw [if_neg room]

theorem reads_split_absent (title : String) (keys : SplitKeys)
    (known : variants.Restores (.string name) variant) (absent : variant.absent = some a) :
    (split title keys variants).Reads (.object [(keys.tag, .string name)]) a := by
  refine reads_container rfl
    (k := fun source => keys.decode variants source .closed
      (Draft.ofEntries [(keys.tag, .string name)]))
    (fun _ => rfl) fun source => ?_
  have room : source.Holds (Json.depthEntries [(keys.tag, .string name)]) := source.holds_zero
  simp only [Draft.ofEntries, SplitKeys.decode, next_tag, known source source.holds_zero,
    bind, Except.bind, absent, if_pos room]
  rfl

end Decoder

end WorkflowEngine
