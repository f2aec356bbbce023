import WorkflowEngine.Log.Sink
import WorkflowEngine.Proofs.LogEntries
import WorkflowEngine.Proofs.OutcomeText
import WorkflowEngine.Proofs.Yields
/-!
Logs in files of lines. What is appended to a file is a line of its own if nothing but blanks stands
behind the last line break, as is always so in a file that holds nothing but what was appended;
then the log is what a log in memory would be. Behind a line that was not finished an entry is lost.
-/
set_option autoImplicit false

namespace WorkflowEngine

/-! ## What is read of a line -/

namespace Json

variable {blanks : List Char} {f : Frame}

theorem skipBlanks_append (blank : blanks.all isBlank = true) (cs : List Char) :
    skipBlanks (blanks ++ cs) = skipBlanks cs := by
  induction blanks with
  | nil => rfl
  | cons c blanks ih =>
    obtain ⟨hc, hrest⟩ := Bool.and_eq_true_iff.1 blank
    exact (List.dropWhile_cons_of_pos hc).trans (ih hrest)

theorem draftPart_skipBlanks (fuel : Nat) (cs : List Char) :
    draftPart f fuel (skipBlanks cs) = draftPart f fuel cs := by
  cases fuel with
  | zero => rfl
  | succ fuel =>
    have again : skipBlanks (skipBlanks cs) = skipBlanks cs := List.dropWhile_idempotent isBlank cs
    simp only [draftPart, again]

/-- Blanks in front of a document count for nothing. -/
theorem ofChars_blank_write {j : Json} (exact : j.Exact) (blank : blanks.all isBlank = true) :
    Draft.ofChars none (blanks ++ j.write []) = (Draft.ofJson j, some []) := by
  unfold Draft.ofChars
  rw [← draftPart_skipBlanks, skipBlanks_append blank, draftPart_skipBlanks]
  refine draftPart_write rfl j exact ends_nil ?_ ?_
  · simp
  · simp only [List.length_append]
    omega

theorem isBlank_of_text {c : Char} (h : isBlank c = true) : Text.isBlank c = true := by
  simp only [isBlank, Bool.or_eq_true, beq_iff_eq] at h
  obtain ((rfl | rfl) | rfl) | rfl := h <;> decide

theorem not_isDigit_of_blank {c : Char} (h : Text.isBlank c = true) : c.isDigit = false := by
  cases hdigit : c.isDigit with
  | false => rfl
  | true =>
    simp only [Char.isDigit, Bool.and_eq_true, decide_eq_true_eq] at hdigit
    simp only [Text.isBlank, Bool.or_eq_true, Bool.and_eq_true, decide_eq_true_eq,
      beq_iff_eq] at h
    have low : 48 ≤ c.toNat := hdigit.1
    have high : c.toNat ≤ 57 := hdigit.2
    omega

/-- There are more blanks in texts than in documents. -/
theorem exists_strange (blank : blanks.all Text.isBlank = true)
    (strange : ¬ blanks.all isBlank = true) (more : List Char) :
    ∃ c cs, skipBlanks (blanks ++ more) = c :: cs ∧ Text.isBlank c = true ∧
      isBlank c = false := by
  induction blanks with
  | nil => exact absurd rfl strange
  | cons c blanks ih =>
    obtain ⟨hc, hrest⟩ := Bool.and_eq_true_iff.1 blank
    cases hb : isBlank c with
    | false => exact ⟨c, blanks ++ more, List.dropWhile_cons_of_neg (by simp [hb]), hc, hb⟩
    | true =>
      obtain ⟨d, cs, hskip, hd⟩ := ih hrest fun all => strange (Bool.and_eq_true_iff.2 ⟨hb, all⟩)
      exact ⟨d, cs, (List.dropWhile_cons_of_pos hb).trans hskip, hd⟩

/-- Behind one that is no blank of a document, no document starts. -/
theorem ofChars_strange (blank : blanks.all Text.isBlank = true)
    (strange : ¬ blanks.all isBlank = true) (more : List Char) :
    Draft.ofChars none (blanks ++ more) = (.absent .expectedValue, none) := by
  obtain ⟨c, cs, hskip, hc, hb⟩ := exists_strange blank strange more
  have other : ∀ d : Char, Text.isBlank d = false → c ≠ d := by
    rintro d hd rfl
    exact nomatch hd.symm.trans hc
  unfold Draft.ofChars
  rw [← draftPart_skipBlanks, hskip, draftPart_scalar hb (other '[' (by decide))
    (other '\x7b' (by decide))]
  simp only [draftScalar, other 'n' (by decide), other 't' (by decide), other 'f' (by decide),
    other '"' (by decide), other '-' (by decide), not_isDigit_of_blank hc, if_false, or_self,
    Bool.false_eq_true]

end Json

namespace LogEntry

variable {e : LogEntry} {begun : List Char}

theorem decoder_text (exact : e.timestamp.Exact) :
    decoder (.text Json.depthLimit) (.ofJson e.toJson) = .ok e := by
  have depth : e.toJson.depth = 1 := rfl
  have room : Source.Holds 1 (.text Json.depthLimit) := by decide
  exact restores_decoder exact _ (depth ▸ room)

theorem ofChars_write (exact : e.timestamp.Exact) (blank : begun.all Json.isBlank = true) :
    decoder.ofChars none (begun ++ e.toJson.write []) = .ok e := by
  unfold Decoder.ofChars
  simp only [Json.ofChars_blank_write e.exact_toJson blank, decoder_text exact]
  rfl

theorem ofChars_strange (blank : begun.all Text.isBlank = true)
    (strange : ¬ begun.all Json.isBlank = true) (more : List Char) :
    decoder.ofChars none (begun ++ more) = .error (.malformed .expectedValue) := by
  unfold Decoder.ofChars
  rw [Json.ofChars_strange blank strange]
  rfl

end LogEntry

/-! ## Lines -/

namespace LineLog

variable {line : List Char}

/-- What stands behind the last line break. -/
def unfinished (content : List Char) : List Char := content.rtakeWhile (· ≠ '\n')

theorem linesFrom_append (apart : '\n' ∉ line) (before rest : List Char) :
    linesFrom before (line ++ rest) = linesFrom (line.reverse ++ before) rest := by
  induction line generalizing before with
  | nil => rfl
  | cons c line ih =>
    simp only [List.mem_cons, not_or] at apart
    have next : linesFrom before (c :: (line ++ rest)) = linesFrom (c :: before) (line ++ rest) :=
      if_neg (Ne.symm apart.1)
    rw [List.cons_append, next, ih apart.2, List.reverse_cons, List.append_assoc,
      List.singleton_append]

theorem linesFrom_nil (before : List Char) :
    linesFrom before [] = if before.isEmpty then [] else [before.reverse] := rfl

/-- A carriage return that is not in front of a line break stays. -/
theorem linesFrom_newline {c : Char} (hc : c ≠ '\r') (before rest : List Char) :
    linesFrom (c :: before) ('\n' :: rest) = (c :: before).reverse :: linesFrom [] rest := by
  simp only [linesFrom, if_true]
  split
  · next heq => exact absurd (List.cons.inj heq).1 hc
  · rfl

/-- A text is some whole lines and one that goes on with what follows. -/
theorem exists_whole (content : List Char) : ∃ whole : List (List Char), ∀ rest,
    linesOf (content ++ rest) = whole ++ linesFrom (unfinished content).reverse rest := by
  -- The last line break counts, so that the text grows at its end.
  induction content using List.reverseRecOn with
  | nil => exact ⟨[], fun _ => rfl⟩
  | append_singleton content c ih =>
    obtain ⟨whole, hwhole⟩ := ih
    by_cases hc : c = '\n'
    · subst hc
      have started : unfinished (content ++ ['\n']) = [] :=
        List.rtakeWhile_concat_neg _ _ _ (by simp)
      obtain ⟨last, hlast⟩ : ∃ last, ∀ rest, linesFrom (unfinished content).reverse
          ('\n' :: rest) = last :: linesFrom [] rest := ⟨_, fun _ => rfl⟩
      refine ⟨whole ++ [last], fun rest => ?_⟩
      rw [List.append_assoc, List.singleton_append, hwhole, hlast, started]
      simp
    · have goesOn : unfinished (content ++ [c]) = unfinished content ++ [c] :=
        List.rtakeWhile_concat_pos _ _ _ (by simp [hc])
      have apart : '\n' ∉ [c] := by simpa using Ne.symm hc
      refine ⟨whole, fun rest => ?_⟩
      rw [List.append_assoc, hwhole, goesOn, linesFrom_append apart]
      simp

theorem entryLine_eq (e : LogEntry) : entryLine e = e.toJson.write [] ++ ['\n'] :=
  Json.write_append e.toJson [] ['\n']

/-- An entry goes on the line that was begun, and ends it. -/
theorem linesFrom_entryLine (e : LogEntry) (begun : List Char) :
    linesFrom begun.reverse (entryLine e) = [begun ++ e.toJson.write []] := by
  have oneLine := e.oneLine_write
  obtain ⟨c, before, hlast⟩ : ∃ c before, (e.toJson.write []).reverse = c :: before :=
    List.exists_cons_of_ne_nil (by simp [LogEntry.toJson, Json.write])
  have hc : c ≠ '\r' := by
    rintro rfl
    exact oneLine.notMem (c := '\r') (by decide)
      (List.mem_reverse.1 (hlast ▸ List.mem_cons_self))
  rw [entryLine_eq, linesFrom_append (oneLine.notMem (by decide)), hlast, List.cons_append,
    linesFrom_newline hc, ← List.cons_append, ← hlast, ← List.reverse_append, List.reverse_reverse]
  rfl

variable {content : List Char} {e : LogEntry} {es : List LogEntry}

theorem readLines_append_iff {lines more : List (List Char)} :
    readLines (lines ++ more) = .ok es ↔
      ∃ before last, readLines lines = .ok before ∧ readLines more = .ok last ∧
        es = before ++ last := by
  induction lines generalizing es with
  | nil => simp [readLines]
  | cons line lines ih =>
    rw [List.cons_append, readLines, readLines]
    split
    · exact ih
    · constructor
      · intro h
        obtain ⟨e, he, h⟩ := Except.of_bind_ok h
        obtain ⟨es', hes, h⟩ := Except.of_bind_ok h
        obtain ⟨before, last, hbefore, hlast, rfl⟩ := ih.1 hes
        cases h
        exact ⟨e :: before, last, by rw [he, hbefore]; rfl, hlast, rfl⟩
      · rintro ⟨before, last, h, hlast, rfl⟩
        obtain ⟨e, he, h⟩ := Except.of_bind_ok h
        obtain ⟨before, hbefore, h⟩ := Except.of_bind_ok h
        cases h
        rw [he, ih.2 ⟨before, last, hbefore, hlast, rfl⟩]
        rfl

theorem readLines_blank {line : List Char} (blank : line.all Text.isBlank = true) :
    readLines [line] = .ok [] := if_pos blank

theorem readLines_single_iff {line : List Char} (present : ¬ line.all Text.isBlank = true) :
    readLines [line] = .ok es ↔ ∃ e, LogEntry.decoder.ofChars none line = .ok e ∧ es = [e] := by
  have single : readLines [line] = (LogEntry.decoder.ofChars none line).map fun e => [e] := by
    rw [readLines, if_neg present]
    cases LogEntry.decoder.ofChars none line <;> rfl
  rw [single]
  cases LogEntry.decoder.ofChars none line with
  | error err => exact ⟨nofun, nofun⟩
  | ok e =>
    constructor
    · rintro ⟨⟩
      exact ⟨e, rfl, rfl⟩
    · rintro ⟨_, ⟨⟩, rfl⟩
      rfl

/-! ## Appending -/

/-- A file before and after an entry is appended: the entry goes on the line that was begun. -/
theorem exists_lines (content : List Char) : ∃ whole,
    linesOf content = whole ++ linesFrom (unfinished content).reverse [] ∧
      ∀ e, linesOf (content ++ entryLine e) =
        whole ++ [unfinished content ++ e.toJson.write []] := by
  obtain ⟨whole, hwhole⟩ := exists_whole content
  refine ⟨whole, ?_, fun e => ?_⟩
  · rw [← hwhole, List.append_nil]
  · rw [hwhole, linesFrom_entryLine]

theorem not_blank_entry (begun : List Char) (e : LogEntry) :
    ¬ (begun ++ e.toJson.write []).all Text.isBlank = true := by
  simp [LogEntry.toJson, Json.write, Text.isBlank]

theorem readLines_last_blank {begun : List Char} (blank : begun.all Text.isBlank = true) :
    readLines (linesFrom begun.reverse []) = .ok [] := by
  cases begun with
  | nil => rfl
  | cons c begun => simpa [linesFrom_nil] using readLines_blank blank

/-- Behind blanks an entry is added to what is read. -/
theorem readLines_entryLine (exact : e.timestamp.Exact) (h : readLines (linesOf content) = .ok es)
    (blank : (unfinished content).all Json.isBlank = true) :
    readLines (linesOf (content ++ entryLine e)) = .ok (es ++ [e]) := by
  obtain ⟨whole, hcontent, happended⟩ := exists_lines content
  have nothing : (unfinished content).all Text.isBlank = true :=
    List.all_eq_true.2 fun c hc => Json.isBlank_of_text (List.all_eq_true.1 blank c hc)
  rw [hcontent, readLines_append_iff] at h
  obtain ⟨before, last, hbefore, hlast, rfl⟩ := h
  rw [readLines_last_blank nothing] at hlast
  cases hlast
  have hnew := (readLines_single_iff (not_blank_entry _ e)).2
    ⟨e, LogEntry.ofChars_write exact blank, rfl⟩
  rw [happended, readLines_append_iff]
  exact ⟨before, [e], hbefore, hnew, by rw [List.append_nil]⟩

/-- Behind anything else it makes no further line. -/
theorem isBlank_of_readLines (h : readLines (linesOf content) = .ok es)
    (appended : readLines (linesOf (content ++ entryLine e)) = .ok (es ++ [e])) :
    (unfinished content).all Json.isBlank = true := by
  obtain ⟨whole, hcontent, happended⟩ := exists_lines content
  rw [hcontent, readLines_append_iff] at h
  rw [happended, readLines_append_iff] at appended
  obtain ⟨before, last, hbefore, hlast, rfl⟩ := h
  obtain ⟨before', new, hbefore', hnew, heq⟩ := appended
  obtain rfl : before = before' := Except.ok.inj (hbefore.symm.trans hbefore')
  obtain ⟨e', hdecoded, rfl⟩ := (readLines_single_iff (not_blank_entry _ e)).1 hnew
  by_contra strange
  by_cases blank : (unfinished content).all Text.isBlank = true
  · exact nomatch (LogEntry.ofChars_strange blank strange _).symm.trans hdecoded
  -- The line that was begun was an entry, and the new one has taken its place.
  · have begun : linesFrom (unfinished content).reverse [] = [unfinished content] := by
      have nonempty : unfinished content ≠ [] := fun hnil => blank (by rw [hnil]; rfl)
      simp [linesFrom_nil, nonempty]
    rw [begun] at hlast
    obtain ⟨e'', -, rfl⟩ := (readLines_single_iff blank).1 hlast
    simpa using congrArg List.length heq

variable {s : LineLog} {job : JobId}

/-- What stands in the file of a job, which is nothing before the file is made. -/
def file (s : LineLog) (job : JobId) : List Char := (s.file? job).getD []

theorem read_eq (s : LineLog) (job : JobId) :
    s.read job = (readLines (linesOf (s.file job))).mapError .serialization := by
  unfold read file
  cases s.file? job <;> rfl

theorem read_iff : s.read job = .ok es ↔ readLines (linesOf (s.file job)) = .ok es := by
  rw [read_eq]
  constructor
  · exact Except.of_mapError_ok
  · intro h
    rw [h]
    rfl

theorem file_append (s : LineLog) (e : LogEntry) (job : JobId) : (s.append e).file job =
    if e.job = job then s.file job ++ entryLine e else s.file job := by
  unfold file append writeFile file?
  rw [Table.get?_insert]
  by_cases hjob : e.job = job
  · subst hjob
    simp only [if_true, Option.getD_some]
  · simp only [if_neg hjob]

/-- What a file holds is read with an appended entry behind it exactly if the line that the entry
is written on was blank. -/
theorem read_append_iff (exact : e.timestamp.Exact) (readable : s.read e.job = .ok es) :
    (s.append e).read e.job = .ok (es ++ [e]) ↔
      (unfinished (s.file e.job)).all Json.isBlank = true := by
  rw [read_iff, file_append, if_pos rfl]
  have before := read_iff.1 readable
  exact ⟨isBlank_of_readLines before, readLines_entryLine exact before⟩

/-- Two spaces without a line break do no harm. -/
theorem read_append_spaces :
    let e : LogEntry := ⟨⟨⟨1⟩⟩, ⟨"worker-0"⟩, ⟨1704164645, 0⟩, "done"⟩
    ((LineLog.empty.writeFile e.job [' ', ' ']).append e).read e.job = .ok [e] := by
  intro e
  have readable : (LineLog.empty.writeFile e.job [' ', ' ']).read e.job = .ok [] := rfl
  exact (read_append_iff (by decide) readable).2 (by decide)

theorem unfinished_entryLine (content : List Char) (e : LogEntry) :
    unfinished (content ++ entryLine e) = [] := by
  rw [entryLine_eq, ← List.append_assoc]
  exact List.rtakeWhile_concat_neg _ _ _ (by simp)

/-- Two entries on one line are none. -/
theorem readLines_two {first : LogEntry} (exact : first.timestamp.Exact) (e : LogEntry) :
    readLines [first.toJson.write [] ++ e.toJson.write []] =
      .error (.malformed .trailingCharacters) := by
  have together : first.toJson.write [] ++ e.toJson.write [] =
      first.toJson.write (e.toJson.write []) :=
    (Json.write_append first.toJson [] (e.toJson.write [])).symm
  have draft : Json.Draft.ofChars none (first.toJson.write (e.toJson.write [])) =
      (.ofJson first.toJson, some (e.toJson.write [])) :=
    Json.draftPart_write rfl first.toJson first.exact_toJson (by rintro c ⟨⟩; decide)
      (Nat.le_refl _) (Nat.le_add_right _ _)
  rw [readLines, if_neg (not_blank_entry _ e), together]
  unfold Decoder.ofChars
  simp only [draft, LogEntry.decoder_text exact]
  rfl

/-- Where the line break of the last entry is missing, one more entry makes the file unreadable. -/
theorem append_unreadable :
    let job : JobId := ⟨⟨0x00000001000040008000000000000001⟩⟩
    let first : LogEntry := ⟨job, ⟨"worker-3"⟩, ⟨1704164645, 0⟩, "a"⟩
    let e : LogEntry := ⟨job, ⟨"w"⟩, ⟨1704164645, 0⟩, "appended"⟩
    let s := LineLog.empty.writeFile job (first.toJson.write [])
    s.read job = .ok [first] ∧
      (s.append e).read job = .error (.serialization (.malformed .trailingCharacters)) := by
  intro job first e s
  have exact : first.timestamp.Exact := by decide
  have held : s.file job = first.toJson.write [] := rfl
  have begun : ∀ rest, linesOf (first.toJson.write [] ++ rest) =
      linesFrom (first.toJson.write []).reverse rest := fun rest => by
    rw [linesOf, linesFrom_append (first.oneLine_write.notMem (by decide)), List.append_nil]
  constructor
  · have lines : linesOf (first.toJson.write []) = [first.toJson.write []] := by
      simpa [linesFrom_nil, LogEntry.toJson, Json.write] using begun []
    have decoded : LogEntry.decoder.ofChars none ([] ++ first.toJson.write []) = .ok first :=
      LogEntry.ofChars_write exact rfl
    rw [read_iff, held, lines]
    exact (readLines_single_iff (not_blank_entry [] first)).2 ⟨first, decoded, rfl⟩
  · rw [read_eq, file_append, if_pos rfl, held, begun, linesFrom_entryLine, readLines_two exact]
    rfl

end LineLog

/-! ## Files and memory -/

namespace LogSink

variable {entries : List LogEntry} {job : JobId} {es : List LogEntry}

/-- The sink after some entries. -/
def appendAll : LogSink → List LogEntry → LogSink
  | s, [] => s
  | s, e :: rest => (s.append e).2.appendAll rest

/-- The entries of a job, in their order. -/
def entriesOf (job : JobId) (entries : List LogEntry) : List LogEntry :=
  entries.filter fun e => e.job = job

theorem entriesOf_cons (job : JobId) (e : LogEntry) (rest : List LogEntry) :
    entriesOf job (e :: rest) =
      if e.job = job then e :: entriesOf job rest else entriesOf job rest := by
  simp only [entriesOf, List.filter_cons, decide_eq_true_eq]

theorem read_appendAll_memory (m : MemoryLog) (entries : List LogEntry) (job : JobId) :
    ((memory m).appendAll entries).read job = .ok (m.read job ++ entriesOf job entries) := by
  induction entries generalizing m with
  | nil => exact congrArg Except.ok (List.append_nil _).symm
  | cons e rest ih =>
    refine (ih (m.append e)).trans (congrArg Except.ok ?_)
    rw [MemoryLog.read_append, entriesOf_cons]
    by_cases hjob : e.job = job
    · rw [if_pos hjob, if_pos hjob, List.append_assoc, List.singleton_append]
    · rw [if_neg hjob, if_neg hjob]

theorem read_appendAll_lines {s : LineLog} (exact : ∀ e ∈ entries, e.timestamp.Exact)
    (readable : s.read job = .ok es)
    (blank : (LineLog.unfinished (s.file job)).all Json.isBlank = true) :
    ((lines s).appendAll entries).read job = .ok (es ++ entriesOf job entries) := by
  induction entries generalizing s es with
  | nil => exact readable.trans (congrArg Except.ok (List.append_nil _).symm)
  | cons e rest ih =>
    have hrest : ∀ e ∈ rest, e.timestamp.Exact := fun e he => exact e (List.mem_cons_of_mem _ he)
    have hfile := s.file_append e job
    by_cases hjob : e.job = job
    · rw [if_pos hjob] at hfile
      have ended : LineLog.unfinished ((s.append e).file job) = [] := by
        rw [hfile, LineLog.unfinished_entryLine]
      have hread : (s.append e).read job = .ok (es ++ [e]) := by
        rw [LineLog.read_iff, hfile]
        exact LineLog.readLines_entryLine (exact e List.mem_cons_self)
          (LineLog.read_iff.1 readable) blank
      refine (ih hrest hread (by rw [ended]; rfl)).trans (congrArg Except.ok ?_)
      rw [entriesOf_cons, if_pos hjob, List.append_assoc, List.singleton_append]
    · rw [if_neg hjob] at hfile
      have hread : (s.append e).read job = .ok es := by
        rw [LineLog.read_iff, hfile]
        exact LineLog.read_iff.1 readable
      refine (ih hrest hread (by rwa [hfile])).trans (congrArg Except.ok ?_)
      rw [entriesOf_cons, if_neg hjob]

/-- Files of lines that were started empty and memory are read alike: as the entries of a job, all
of them, in the order in which they were appended. -/
theorem lines_agree (exact : ∀ e ∈ entries, e.timestamp.Exact) (job : JobId) :
    ((lines .empty).appendAll entries).read job = ((memory .empty).appendAll entries).read job ∧
      ((memory .empty).appendAll entries).read job = .ok (entriesOf job entries) := by
  have hmemory := read_appendAll_memory .empty entries job
  have hlines : ((lines .empty).appendAll entries).read job = .ok ([] ++ entriesOf job entries) :=
    read_appendAll_lines exact rfl rfl
  exact ⟨hlines.trans hmemory.symm, hmemory⟩

/-- Line breaks, quotes and other characters in the messages of two jobs. -/
theorem lines_agree_breaks :
    let first : LogEntry := ⟨⟨⟨1⟩⟩, ⟨"worker-0"⟩, ⟨1704164645, 0⟩, "a\r\n\"b\"\n"⟩
    let other : LogEntry := ⟨⟨⟨2⟩⟩, ⟨"worker\n1"⟩, ⟨1704164646, 500000000⟩, "\r"⟩
    let last : LogEntry := ⟨⟨⟨1⟩⟩, ⟨"worker-0"⟩, ⟨1704164647, 0⟩, "\u2028é\x07"⟩
    ((lines .empty).appendAll [first, other, last]).read first.job = .ok [first, last] := by
  intro first other last
  have exact : ∀ e ∈ [first, other, last], e.timestamp.Exact := by decide
  obtain ⟨hlines, hmemory⟩ := lines_agree exact first.job
  exact hlines.trans hmemory

end LogSink

end WorkflowEngine
