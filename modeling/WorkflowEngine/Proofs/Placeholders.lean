import WorkflowEngine.Log.Entry
import Mathlib
/-!
Messages and the placeholders of their formats. A format is cut at its placeholders from left to
right; the message is its pieces with the texts of the arguments between them, whatever stands in
these texts.
-/
set_option autoImplicit false

namespace WorkflowEngine

/-- What a format leaves open. -/
def placeholder : List Char := ['\x7b', '\x7d']

/-! ## Cutting a format -/

/-- What stands before and after the first placeholder of a text. -/
structure FirstPlaceholder (cs before after : List Char) : Prop where
  parts : cs = before ++ placeholder ++ after
  first : ∀ start, start ++ placeholder <+: cs → before.length ≤ start.length

/-- Whether pieces are what the placeholders of a text cut it into. The next placeholder is looked
for behind the one before it. -/
inductive Cut : List Char → List (List Char) → Prop
  | whole {cs : List Char} (none : ¬ placeholder <:+: cs) : Cut cs [cs]
  | next {cs before after : List Char} {pieces : List (List Char)}
      (first : FirstPlaceholder cs before after) (rest : Cut after pieces) :
      Cut cs (before :: pieces)

namespace FirstPlaceholder

variable {cs before after : List Char}

theorem occurs (h : FirstPlaceholder cs before after) : placeholder <:+: cs :=
  ⟨before, after, h.parts.symm⟩

theorem unique {before' after' : List Char} (h : FirstPlaceholder cs before after)
    (h' : FirstPlaceholder cs before' after') : before = before' ∧ after = after' := by
  have le := h.first before' ⟨after', h'.parts.symm⟩
  have ge := h'.first before ⟨after, h.parts.symm⟩
  have same : before ++ (placeholder ++ after) = before' ++ (placeholder ++ after') := by
    rw [← List.append_assoc, ← List.append_assoc, ← h.parts, h'.parts]
  obtain ⟨rfl, hrest⟩ := List.append_inj same (Nat.le_antisymm le ge)
  exact ⟨rfl, List.append_cancel_left hrest⟩

/-- A text that begins with no placeholder has the first one of what follows its first character. -/
theorem cons {c : Char} (starts : ¬ placeholder <+: c :: cs)
    (h : FirstPlaceholder cs before after) : FirstPlaceholder (c :: cs) (c :: before) after where
  parts := by rw [h.parts, List.cons_append, List.cons_append]
  first start hstart := by
    cases start with
    | nil => exact absurd hstart starts
    | cons d start =>
      obtain ⟨-, hstart⟩ := List.cons_prefix_cons.1 hstart
      exact Nat.succ_le_succ (h.first start hstart)

theorem tail {c : Char} (h : FirstPlaceholder (c :: cs) (c :: before) after) :
    FirstPlaceholder cs before after where
  parts := (List.cons.inj h.parts).2
  first start hstart :=
    Nat.le_of_succ_le_succ (h.first (c :: start) (List.cons_prefix_cons.2 ⟨rfl, hstart⟩))

theorem not_starts {c : Char} (h : FirstPlaceholder cs (c :: before) after) :
    ¬ placeholder <+: cs :=
  fun starts => absurd (h.first [] starts) (Nat.not_succ_le_zero _)

end FirstPlaceholder

theorem exists_firstPlaceholder {cs : List Char} (h : placeholder <:+: cs) :
    ∃ before after, FirstPlaceholder cs before after := by
  induction cs with
  | nil => cases List.eq_nil_of_infix_nil h
  | cons c cs ih =>
    by_cases starts : placeholder <+: c :: cs
    · obtain ⟨after, hafter⟩ := starts
      exact ⟨[], after, hafter.symm, fun start _ => Nat.zero_le _⟩
    · obtain ⟨before, after, first⟩ := ih ((List.infix_cons_iff.1 h).resolve_left starts)
      exact ⟨c :: before, after, first.cons starts⟩

theorem exists_cut (cs : List Char) : ∃ first others, Cut cs (first :: others) := by
  by_cases h : placeholder <:+: cs
  · obtain ⟨before, after, first⟩ := exists_firstPlaceholder h
    have shorter : after.length < cs.length := by
      rw [first.parts]
      simp [placeholder]
      omega
    obtain ⟨next, others, rest⟩ := exists_cut after
    exact ⟨before, next :: others, .next first rest⟩
  · exact ⟨cs, [], .whole h⟩
  termination_by cs.length

theorem Cut.unique {cs : List Char} {pieces pieces' : List (List Char)} (h : Cut cs pieces)
    (h' : Cut cs pieces') : pieces = pieces' := by
  induction h generalizing pieces' with
  | whole none =>
    cases h' with
    | whole => rfl
    | next first => exact absurd first.occurs none
  | next first rest ih =>
    cases h' with
    | whole none => exact absurd first.occurs none
    | next first' rest' =>
      obtain ⟨rfl, rfl⟩ := first.unique first'
      rw [ih rest']

/-! ## What is written -/

/-- Pieces with a text in each gap between them. A gap for which there is no text keeps its
placeholder, and a text for which there is no gap comes at the end, behind a space. -/
def interleave (first : List Char) (others texts : List (List Char)) : List Char :=
  first ++ (others.mapIdx fun i piece => texts.getD i placeholder ++ piece).flatten ++
    (texts.drop others.length).flatMap (' ' :: ·)

section Written

variable {cs before after : List Char}

theorem interleave_cons (first next text : List Char) (others texts : List (List Char)) :
    interleave first (next :: others) (text :: texts) =
      first ++ text ++ interleave next others texts := by
  simp [interleave, List.mapIdx_cons]

theorem interleave_nil (first next : List Char) (others : List (List Char)) :
    interleave first (next :: others) [] = first ++ placeholder ++ interleave next others [] := by
  simp [interleave, List.mapIdx_cons]

theorem formatChars_cons {c : Char} (starts : ¬ placeholder <+: c :: cs) (args : List Value) :
    formatChars (c :: cs) args = c :: formatChars cs args := by
  have apart : ∀ rest, c = '\x7b' → cs ≠ '\x7d' :: rest := by
    rintro rest rfl rfl
    exact starts ⟨rest, rfl⟩
  refine formatChars.eq_3 args c cs ?_ ?_
  · exact fun rest v args _ hc hcs => apart rest hc hcs
  · exact fun rest _ hc hcs => apart rest hc hcs

theorem formatChars_whole (none : ¬ placeholder <:+: cs) (args : List Value) :
    formatChars cs args = cs ++ args.flatMap fun v => ' ' :: v.display := by
  induction cs with
  | nil => exact formatChars.eq_4 args
  | cons c cs ih =>
    rw [List.infix_cons_iff, not_or] at none
    rw [formatChars_cons none.1, ih none.2, List.cons_append]

theorem FirstPlaceholder.formatChars_argument (h : FirstPlaceholder cs before after) (v : Value)
    (args : List Value) :
    formatChars cs (v :: args) = before ++ v.display ++ formatChars after args := by
  induction before generalizing cs with
  | nil =>
    rw [h.parts]
    exact formatChars.eq_1 after v args
  | cons c before ih =>
    obtain rfl : cs = c :: (before ++ placeholder ++ after) := h.parts
    rw [formatChars_cons h.not_starts, ih h.tail]
    rfl

theorem FirstPlaceholder.formatChars_literal (h : FirstPlaceholder cs before after) :
    formatChars cs [] = before ++ placeholder ++ formatChars after [] := by
  induction before generalizing cs with
  | nil =>
    rw [h.parts]
    exact formatChars.eq_2 after
  | cons c before ih =>
    obtain rfl : cs = c :: (before ++ placeholder ++ after) := h.parts
    rw [formatChars_cons h.not_starts, ih h.tail]
    rfl

theorem Cut.formatChars_eq {first : List Char} {others : List (List Char)}
    (h : Cut cs (first :: others)) (args : List Value) :
    formatChars cs args = interleave first others (args.map Value.display) := by
  induction others generalizing cs first args with
  | nil =>
    cases h with
    | whole none =>
      rw [formatChars_whole none]
      simp [interleave, List.flatMap_map]
    | next first rest => cases rest
  | cons next others ih =>
    cases h with
    | next before rest =>
      cases args with
      | nil => rw [before.formatChars_literal, ih rest, List.map_nil, interleave_nil]
      | cons v args =>
        rw [before.formatChars_argument, ih rest, List.map_cons, interleave_cons]

end Written

/-! ## The scan -/

/-- A scan for placeholders: what is written, the arguments that are left and the text that is. -/
structure Scan where
  written : List Char
  args : List Value
  rest : List Char

namespace Scan

/-- One round of the scan: what stands before the next placeholder is written, and the next
argument, or the placeholder if there is none. -/
inductive Round : Scan → Scan → Prop
  | argument {written cs before after : List Char} {v : Value} {args : List Value}
      (first : FirstPlaceholder cs before after) :
      Round ⟨written, v :: args, cs⟩ ⟨written ++ before ++ v.display, args, after⟩
  | literal {written cs before after : List Char} (first : FirstPlaceholder cs before after) :
      Round ⟨written, [], cs⟩ ⟨written ++ before ++ placeholder, [], after⟩

/-- A number of rounds. -/
def Rounds : Nat → Scan → Scan → Prop
  | 0, s, t => s = t
  | n + 1, s, t => ∃ u, s.Round u ∧ Rounds n u t

/-- What is written once no placeholder is left. -/
def message (s : Scan) : List Char :=
  s.written ++ s.rest ++ s.args.flatMap fun v => ' ' :: v.display

variable {s t : Scan}

theorem Round.first (h : s.Round t) : ∃ before, FirstPlaceholder s.rest before t.rest := by
  cases h with
  | argument first | literal first => exact ⟨_, first⟩

/-- A round does not change what the whole message will be. -/
theorem Round.formatChars_eq (h : s.Round t) :
    t.written ++ formatChars t.rest t.args = s.written ++ formatChars s.rest s.args := by
  cases h with
  | argument first =>
    simp only [first.formatChars_argument, List.append_assoc]
  | literal first =>
    simp only [first.formatChars_literal, List.append_assoc]

theorem Rounds.formatChars_eq {n : Nat} (h : Rounds n s t) :
    t.written ++ formatChars t.rest t.args = s.written ++ formatChars s.rest s.args := by
  induction n generalizing s with
  | zero =>
    cases h
    rfl
  | succ n ih =>
    obtain ⟨u, round, rounds⟩ := h
    rw [ih rounds, round.formatChars_eq]

theorem exists_round {before after : List Char} (h : FirstPlaceholder s.rest before after) :
    ∃ t, s.Round t ∧ t.rest = after := by
  obtain ⟨written, args, cs⟩ := s
  cases args with
  | nil => exact ⟨_, .literal h, rfl⟩
  | cons v args => exact ⟨_, .argument h, rfl⟩

/-- There are as many rounds as gaps between the pieces, and the scan stops behind the last. -/
theorem rounds_of_cut {first : List Char} {others : List (List Char)}
    (h : Cut s.rest (first :: others)) :
    (∃ t, Rounds others.length s t ∧ ¬ placeholder <:+: t.rest) ∧
      ∀ n t, Rounds n s t → n ≤ others.length := by
  induction others generalizing s first with
  | nil =>
    cases h with
    | whole none =>
      refine ⟨⟨s, rfl, none⟩, fun n t rounds => ?_⟩
      cases n with
      | zero => exact Nat.le_refl 0
      | succ n =>
        obtain ⟨u, round, -⟩ := rounds
        obtain ⟨before, first⟩ := round.first
        exact absurd first.occurs none
    | next first rest => cases rest
  | cons next others ih =>
    cases h with
    | next before rest =>
      refine ⟨?_, fun n t rounds => ?_⟩
      · obtain ⟨u, round, rfl⟩ := exists_round before
        obtain ⟨⟨t, rounds, none⟩, -⟩ := ih rest
        exact ⟨t, ⟨u, round, rounds⟩, none⟩
      · cases n with
        | zero => exact Nat.zero_le _
        | succ n =>
          obtain ⟨u, round, rounds⟩ := rounds
          -- Every scan stops first where the first gap is.
          obtain ⟨before', first'⟩ := round.first
          obtain ⟨-, hrest⟩ := before.unique first'
          exact Nat.succ_le_succ ((ih (hrest ▸ rest)).2 n t rounds)

end Scan

/-- A format is cut into pieces in one way, and whatever the arguments are, the message is these
pieces with the texts of the arguments between them. The scan that writes it makes one round for
each placeholder of the format, and no more. -/
theorem formatMessage_interleaves (format : String) :
    ∃ first others, (∀ pieces, Cut format.toList pieces ↔ pieces = first :: others) ∧
      ∀ args : List Value,
        formatMessage format args =
          String.ofList (interleave first others (args.map Value.display)) ∧
        (∃ s, Scan.Rounds others.length ⟨[], args, format.toList⟩ s ∧ (∀ t, ¬ s.Round t) ∧
          formatMessage format args = String.ofList s.message) ∧
        ∀ n s, Scan.Rounds n ⟨[], args, format.toList⟩ s → n ≤ others.length := by
  obtain ⟨first, others, cut⟩ := exists_cut format.toList
  refine ⟨first, others, fun pieces => ⟨fun h => h.unique cut, fun h => h ▸ cut⟩, fun args => ?_⟩
  obtain ⟨⟨s, rounds, none⟩, bound⟩ :=
    Scan.rounds_of_cut (s := ⟨[], args, format.toList⟩) (show Cut format.toList _ from cut)
  refine ⟨congrArg String.ofList (cut.formatChars_eq args), ⟨s, rounds, fun t round => ?_, ?_⟩,
    bound⟩
  · obtain ⟨before, first⟩ := round.first
    exact none first.occurs
  · have whole := rounds.formatChars_eq
    rw [formatChars_whole none, ← List.append_assoc] at whole
    exact congrArg String.ofList whole.symm

end WorkflowEngine
