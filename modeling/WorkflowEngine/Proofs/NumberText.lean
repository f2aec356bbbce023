import Mathlib.Data.Nat.Digits.Defs
import WorkflowEngine.Json.Lexeme
/-!
Reading back the texts of numbers. What is read of a text that a number fills is also read when
something follows that does not go on the number, and passing over it stops at the same place. The
texts of integers are read back; for doubles this is a property of each one, `Number.Exact`.
-/
set_option autoImplicit false

namespace WorkflowEngine

namespace Number

/-- Whether a text does not go on a number that stands before it. -/
def Ends (rest : List Char) : Prop :=
  ∀ c ∈ rest.head?, c.isDigit = false ∧ c ≠ '.' ∧ c ≠ 'e' ∧ c ≠ 'E'

variable {rest : List Char}

theorem startsWithDigit_append (h : Ends rest) (cs : List Char) :
    startsWithDigit (cs ++ rest) = startsWithDigit cs := by
  cases cs with
  | nil =>
    cases rest with
    | nil => rfl
    | cons c cs => exact (h c rfl).1
  | cons c cs => rfl

theorem takeWhile_append (h : Ends rest) (cs : List Char) :
    (cs ++ rest).takeWhile Char.isDigit = cs.takeWhile Char.isDigit := by
  induction cs with
  | nil =>
    cases rest with
    | nil => rfl
    | cons c cs => simp [(h c rfl).1]
  | cons c cs ih => cases hc : c.isDigit <;> simp [hc, ih]

theorem dropWhile_append (h : Ends rest) (cs : List Char) :
    (cs ++ rest).dropWhile Char.isDigit = cs.dropWhile Char.isDigit ++ rest := by
  induction cs with
  | nil =>
    cases rest with
    | nil => rfl
    | cons c cs => simp [(h c rfl).1]
  | cons c cs ih => cases hc : c.isDigit <;> simp [hc, ih]

theorem dropWhile_of_not_startsWithDigit {cs : List Char} (h : startsWithDigit cs = false) :
    cs.dropWhile Char.isDigit = cs := by
  cases cs with
  | nil => rfl
  | cons c cs =>
    have hc : c.isDigit = false := h
    simp [hc]

namespace DigitRun

theorem read_append (h : Ends rest) (bound value count : Nat) (cs : List Char) :
    read bound value count (cs ++ rest) =
      { read bound value count cs with rest := (read bound value count cs).rest ++ rest } := by
  induction cs generalizing value count with
  | nil =>
    cases rest with
    | nil => rfl
    | cons c cs => simp [read, (h c rfl).1]
  | cons c cs ih =>
    simp only [List.cons_append, read]
    split
    · exact ih _ _
    · rfl

/-- The digits that a run leaves over are passed over with it. -/
theorem dropWhile_rest (bound value count : Nat) (cs : List Char) :
    (read bound value count cs).rest.dropWhile Char.isDigit = cs.dropWhile Char.isDigit := by
  induction cs generalizing value count with
  | nil => rfl
  | cons c cs ih =>
    simp only [read]
    split
    · next hc =>
      rw [ih, List.dropWhile_cons, if_pos hc.1]
    · rfl

theorem read_of_not_startsWithDigit {cs : List Char} (h : startsWithDigit cs = false)
    (bound value count : Nat) : read bound value count cs = ⟨value, count, cs⟩ := by
  cases cs with
  | nil => rfl
  | cons c cs =>
    have hc : c.isDigit = false := h
    simp [read, hc]

theorem le_ofDigitChars (ds : List Char) (n : Nat) : n ≤ Nat.ofDigitChars 10 ds n := by
  induction ds generalizing n with
  | nil => simp
  | cons d ds ih =>
    rw [Nat.ofDigitChars_cons]
    have := ih (10 * n + (d.toNat - '0'.toNat))
    omega

/-- All digits of a number below the bound are read. -/
theorem read_digits (h : Ends rest) {bound : Nat} {ds : List Char}
    (digits : ∀ c ∈ ds, c.isDigit = true) {value : Nat}
    (fits : Nat.ofDigitChars 10 ds value < bound) (count : Nat) :
    read bound value count (ds ++ rest) =
      ⟨Nat.ofDigitChars 10 ds value, count + ds.length, rest⟩ := by
  induction ds generalizing value count with
  | nil =>
    cases rest with
    | nil => simp [read]
    | cons c cs => simp [read, (h c rfl).1]
  | cons d ds ih =>
    have hcons : Nat.ofDigitChars 10 (d :: ds) value =
        Nat.ofDigitChars 10 ds (value * 10 + digitValue d) := by
      rw [Nat.ofDigitChars_cons, Nat.mul_comm]
      rfl
    rw [hcons] at fits ⊢
    have hlt : value * 10 + digitValue d < bound :=
      Nat.lt_of_le_of_lt (le_ofDigitChars ds _) fits
    simp only [List.cons_append, read, digits d List.mem_cons_self, hlt, and_self, if_true]
    rw [ih (fun c hc => digits c (List.mem_cons_of_mem d hc)) fits]
    simp [Nat.add_comm 1, Nat.add_assoc]

end DigitRun

variable {negative : Bool} {significand : Nat} {exponent : Int} {cs r : List Char} {n : Number}

/-- What is read before the end of a text is also read before what ends it. -/
theorem finish_append (h : finish negative significand exponent cs = .ok (n, [])) :
    finish negative significand exponent (cs ++ rest) = .ok (n, rest) := by
  unfold finish at h ⊢
  cases hs : scale significand exponent with
  | error e => rw [hs] at h; cases h
  | ok x =>
    rw [hs] at h
    cases h
    rfl

/-- Reads the digits of an exponent. -/
def readPower (negative : Bool) (significand : Nat) (exponent : Int) (down : Bool)
    (cs : List Char) : Except ReadError (Number × List Char) :=
  match cs with
  | [] => .error .ended
  | c :: _ =>
    if c.isDigit then
      let run := DigitRun.read 0x80000000 0 0 cs
      if startsWithDigit run.rest then
        if significand ≠ 0 ∧ ¬ down then .error .outOfRange
        else .ok (.float (Double.zero negative), run.rest.dropWhile Char.isDigit)
      else finish negative significand
        (if down then exponent - run.value else exponent + run.value) run.rest
    else .error .invalid

theorem readExponent_unsigned {c : Char} (hm : c ≠ '-') (hp : c ≠ '+') (cs : List Char) :
    readExponent negative significand exponent (c :: cs) =
      readPower negative significand exponent false (c :: cs) := by
  unfold readExponent
  split
  next hsplit =>
    split at hsplit
    · next heq => exact absurd (List.cons.inj heq).1 hm
    · next heq => exact absurd (List.cons.inj heq).1 hp
    · cases hsplit
      rfl

theorem readPower_append {down : Bool} (ends : Ends rest)
    (h : readPower negative significand exponent down cs = .ok (n, [])) :
    readPower negative significand exponent down (cs ++ rest) = .ok (n, rest) := by
  cases cs with
  | nil => cases h
  | cons c cs =>
    simp only [readPower] at h
    have happend := DigitRun.read_append ends 0x80000000 0 0 (c :: cs)
    simp only [readPower, List.cons_append] at happend ⊢
    split at h
    · next hd =>
      rw [if_pos hd, happend]
      simp only [startsWithDigit_append ends]
      split at h
      · next hs =>
        rw [if_pos hs]
        split at h
        · cases h
        · next ho =>
          rw [if_neg ho, dropWhile_append ends]
          simp only [Except.ok.injEq, Prod.mk.injEq] at h
          simp [h.1, h.2]
      · next hs =>
        rw [if_neg hs]
        exact finish_append h
    · cases h

theorem readExponent_append (ends : Ends rest)
    (h : readExponent negative significand exponent cs = .ok (n, [])) :
    readExponent negative significand exponent (cs ++ rest) = .ok (n, rest) := by
  cases cs with
  | nil => cases h
  | cons c cs =>
    by_cases hm : c = '-'
    · subst hm
      exact readPower_append ends h
    · by_cases hp : c = '+'
      · subst hp
        exact readPower_append ends h
      · rw [readExponent_unsigned hm hp] at h
        rw [List.cons_append, readExponent_unsigned hm hp]
        exact readPower_append ends h

theorem readScaled_plain (plain : ∀ c ∈ cs.head?, c ≠ 'e' ∧ c ≠ 'E') :
    readScaled negative significand exponent cs = finish negative significand exponent cs := by
  unfold readScaled
  split
  · exact absurd rfl (plain 'e' rfl).1
  · exact absurd rfl (plain 'E' rfl).2
  · rfl

theorem readScaled_append (ends : Ends rest)
    (h : readScaled negative significand exponent cs = .ok (n, [])) :
    readScaled negative significand exponent (cs ++ rest) = .ok (n, rest) := by
  cases cs with
  | nil =>
    rw [List.nil_append, readScaled_plain fun c hc => (ends c hc).2.2]
    exact finish_append h
  | cons c cs =>
    by_cases he : c = 'e'
    · subst he
      exact readExponent_append ends h
    · by_cases hE : c = 'E'
      · subst hE
        exact readExponent_append ends h
      · have plain : ∀ cs : List Char, ∀ d ∈ (c :: cs).head?, d ≠ 'e' ∧ d ≠ 'E' := by
          rintro cs d ⟨⟩
          exact ⟨he, hE⟩
        rw [readScaled_plain (plain cs)] at h
        rw [List.cons_append, readScaled_plain (plain (cs ++ rest))]
        exact finish_append h

theorem readFraction_append (ends : Ends rest)
    (h : readFraction negative significand exponent cs = .ok (n, [])) :
    readFraction negative significand exponent (cs ++ rest) = .ok (n, rest) := by
  simp only [readFraction] at h ⊢
  rw [DigitRun.read_append ends]
  simp only [startsWithDigit_append ends, dropWhile_append ends]
  split at h
  · cases h
  · next hd =>
    rw [if_neg hd]
    exact readScaled_append ends h

/-- Reads what follows the digits before a point or an exponent. -/
def readTail (negative : Bool) (significand : Nat) (extra cs : List Char) :
    Except ReadError (Number × List Char) :=
  match cs with
  | '.' :: rest => readFraction negative significand extra.length rest
  | rest =>
    match rest with
    | 'e' :: _ | 'E' :: _ => readScaled negative significand extra.length rest
    | _ =>
      if extra.isEmpty then ofLiteral negative significand rest
      else finish negative significand extra.length rest

theorem readMagnitude_eq {c : Char} (digit : c.isDigit = true)
    (leading : ¬ (c = '0' ∧ startsWithDigit cs = true)) :
    readMagnitude negative (c :: cs) =
      readTail negative (DigitRun.read 0x10000000000000000 0 0 (c :: cs)).value
        ((DigitRun.read 0x10000000000000000 0 0 (c :: cs)).rest.takeWhile Char.isDigit)
        ((c :: cs).dropWhile Char.isDigit) := by
  rw [← DigitRun.dropWhile_rest 0x10000000000000000 0 0 (c :: cs)]
  unfold readMagnitude
  simp only [digit, not_true, if_false, if_neg leading]
  rfl

theorem readTail_plain {extra : List Char}
    (plain : ∀ c ∈ cs.head?, c ≠ '.' ∧ c ≠ 'e' ∧ c ≠ 'E') :
    readTail negative significand extra cs =
      if extra.isEmpty then ofLiteral negative significand cs
      else finish negative significand extra.length cs := by
  unfold readTail
  split
  · exact absurd rfl (plain '.' rfl).1
  · split
    · exact absurd rfl (plain 'e' rfl).2.1
    · exact absurd rfl (plain 'E' rfl).2.2
    · rfl

theorem ofLiteral_append (h : ofLiteral negative significand cs = .ok (n, [])) :
    ofLiteral negative significand (cs ++ rest) = .ok (n, rest) := by
  unfold ofLiteral at h ⊢
  simp only at h ⊢
  split at h
  · next hzero =>
    rw [if_pos hzero]
    simp only [Except.ok.injEq, Prod.mk.injEq] at h
    simp [h.1, h.2]
  · next hzero =>
    rw [if_neg hzero]
    split at h
    · simp only [Except.ok.injEq, Prod.mk.injEq] at h
      simp [h.1, h.2]
    · exact finish_append h

/-- A number without a fraction and an exponent. -/
theorem readWhole_append {extra : List Char} (cs rest : List Char)
    (h : (if extra.isEmpty then ofLiteral negative significand cs
      else finish negative significand extra.length cs) = .ok (n, [])) :
    (if extra.isEmpty then ofLiteral negative significand (cs ++ rest)
      else finish negative significand extra.length (cs ++ rest)) = .ok (n, rest) := by
  split at h
  · next he =>
    rw [if_pos he]
    exact ofLiteral_append h
  · next he =>
    rw [if_neg he]
    exact finish_append h

theorem readTail_append {extra : List Char} (ends : Ends rest)
    (h : readTail negative significand extra cs = .ok (n, [])) :
    readTail negative significand extra (cs ++ rest) = .ok (n, rest) := by
  cases cs with
  | nil =>
    rw [List.nil_append, readTail_plain fun c hc => (ends c hc).2]
    exact readWhole_append [] rest h
  | cons c cs =>
    by_cases hp : c = '.'
    · subst hp
      exact readFraction_append ends h
    · by_cases he : c = 'e'
      · subst he
        have h : readScaled negative significand extra.length ('e' :: cs) = .ok (n, []) := h
        exact readScaled_append ends h
      · by_cases hE : c = 'E'
        · subst hE
          have h : readScaled negative significand extra.length ('E' :: cs) = .ok (n, []) := h
          exact readScaled_append ends h
        · have plain : ∀ cs : List Char, ∀ d ∈ (c :: cs).head?, d ≠ '.' ∧ d ≠ 'e' ∧ d ≠ 'E' := by
            rintro cs d ⟨⟩
            exact ⟨hp, he, hE⟩
          rw [readTail_plain (plain cs)] at h
          rw [List.cons_append, readTail_plain (plain (cs ++ rest))]
          exact readWhole_append (c :: cs) rest h

theorem readMagnitude_append (ends : Ends rest)
    (h : readMagnitude negative cs = .ok (n, [])) :
    readMagnitude negative (cs ++ rest) = .ok (n, rest) := by
  cases cs with
  | nil => cases h
  | cons c cs =>
    cases hd : c.isDigit with
    | false => simp [readMagnitude, hd] at h
    | true =>
      by_cases hl : c = '0' ∧ startsWithDigit cs = true
      · simp [readMagnitude, hl] at h
      · have hl' : ¬ (c = '0' ∧ startsWithDigit (cs ++ rest) = true) := by
          rwa [startsWithDigit_append ends]
        rw [readMagnitude_eq hd hl] at h
        rw [List.cons_append, readMagnitude_eq hd hl', ← List.cons_append,
          DigitRun.read_append ends, takeWhile_append ends, dropWhile_append ends]
        exact readTail_append ends h

theorem read_unsigned {c : Char} (hc : c ≠ '-') (cs : List Char) :
    read (c :: cs) = readMagnitude false (c :: cs) := by
  unfold read
  split
  · next heq => exact absurd (List.cons.inj heq).1 hc
  · rfl

/-- A number that a text is read as whole is read before whatever does not go on it. -/
theorem read_append (ends : Ends rest) (h : read cs = .ok (n, [])) :
    read (cs ++ rest) = .ok (n, rest) := by
  cases cs with
  | nil => cases h
  | cons c cs =>
    by_cases hm : c = '-'
    · subst hm
      exact readMagnitude_append ends h
    · rw [read_unsigned hm] at h
      rw [List.cons_append, read_unsigned hm]
      exact readMagnitude_append ends h

theorem finish_rest (h : finish negative significand exponent cs = .ok (n, r)) : r = cs := by
  unfold finish at h
  cases hs : scale significand exponent with
  | error e => rw [hs] at h; cases h
  | ok x =>
    rw [hs] at h
    cases h
    rfl

/-- The digits of a number start with a zero only if it is zero. -/
theorem eq_zero_of_toDigits {n : Nat} {ds : List Char} (h : Nat.toDigits 10 n = '0' :: ds) :
    n = 0 := by
  induction n using Nat.strongRecOn generalizing ds with
  | ind n ih =>
    rw [Nat.toDigits_eq_if (by decide)] at h
    split at h
    · next hlt =>
      have hdigit : n.digitChar = '0' := (List.cons.inj h).1
      exact Nat.digitChar_eq_zero.1 hdigit
    · next hle =>
      obtain ⟨c, cs, hcs⟩ :=
        List.exists_cons_of_ne_nil (Nat.toDigits_ne_nil (n := n / 10) (b := 10))
      rw [hcs, List.cons_append] at h
      obtain ⟨rfl, -⟩ := List.cons.inj h
      have := ih (n / 10) (by omega) hcs
      omega

theorem readMagnitude_toDigits (ends : Ends rest) (negative : Bool) {n : Nat}
    (fits : n < 0x10000000000000000) :
    readMagnitude negative (Nat.toDigits 10 n ++ rest) = ofLiteral negative n rest := by
  obtain ⟨c, cs, hcs⟩ := List.exists_cons_of_ne_nil (Nat.toDigits_ne_nil (n := n) (b := 10))
  have digits : ∀ d ∈ c :: cs, d.isDigit = true := fun d hd =>
    Nat.isDigit_of_mem_toDigits (by decide) (by decide) (hcs ▸ hd)
  have hvalue : Nat.ofDigitChars 10 (c :: cs) 0 = n := by
    rw [← hcs]
    exact Nat.ofDigitChars_toDigits (by decide) (by decide)
  have leading : ¬ (c = '0' ∧ startsWithDigit (cs ++ rest) = true) := by
    rintro ⟨rfl, hs⟩
    obtain rfl := eq_zero_of_toDigits hcs
    obtain rfl : cs = [] := (List.cons.inj hcs).2.symm
    rw [startsWithDigit_append ends] at hs
    cases hs
  have hrun : DigitRun.read 0x10000000000000000 0 0 (c :: cs ++ rest) =
      ⟨Nat.ofDigitChars 10 (c :: cs) 0, 0 + (c :: cs).length, rest⟩ :=
    DigitRun.read_digits ends digits (hvalue ▸ fits) 0
  have hdrop : (c :: (cs ++ rest)).dropWhile Char.isDigit = rest := by
    rw [← List.cons_append, List.dropWhile_append_of_pos digits]
    simpa using dropWhile_append ends []
  have hextra : rest.takeWhile Char.isDigit = [] := by
    have := takeWhile_append ends []
    simpa using this
  rw [hcs, List.cons_append, readMagnitude_eq (digits c List.mem_cons_self) leading, hdrop,
    ← List.cons_append, hrun, hvalue, hextra, readTail_plain fun c hc => (ends c hc).2]
  rfl

theorem ofInt?_of_inRange {i : Int} (h : -0x8000000000000000 ≤ i ∧ i < 0x10000000000000000) :
    ofInt? i = some (.integer i h) :=
  dif_pos h

/-- A literal in range is an integer, unless it is a negative zero. -/
theorem ofLiteral_of_inRange {negative : Bool} {significand : Nat} {i : Int}
    (hvalue : (if negative then -(significand : Int) else significand) = i)
    (hzero : ¬ (negative = true ∧ significand = 0))
    (h : -0x8000000000000000 ≤ i ∧ i < 0x10000000000000000) (rest : List Char) :
    ofLiteral negative significand rest = .ok (.integer i h, rest) := by
  subst hvalue
  unfold ofLiteral
  rw [if_neg hzero]
  simp only [ofInt?_of_inRange h]

/-- Integers are read back. -/
theorem read_intText (ends : Ends rest) (i : Int)
    (h : -0x8000000000000000 ≤ i ∧ i < 0x10000000000000000) :
    read (intText i ++ rest) = .ok (.integer i h, rest) := by
  unfold intText
  by_cases hneg : i < 0
  · have hvalue : -(i.natAbs : Int) = i := by omega
    have fits : i.natAbs < 0x10000000000000000 := by omega
    rw [if_pos hneg, List.cons_append]
    refine (readMagnitude_toDigits ends true fits).trans ?_
    have hzero : ¬ (true = true ∧ i.natAbs = 0) := fun hz => by have := hz.2; omega
    exact ofLiteral_of_inRange (by rw [if_pos rfl]; exact hvalue) hzero h rest
  · have hvalue : (i.natAbs : Int) = i := by omega
    have fits : i.natAbs < 0x10000000000000000 := by omega
    rw [if_neg hneg]
    obtain ⟨c, cs, hcs⟩ :=
      List.exists_cons_of_ne_nil (Nat.toDigits_ne_nil (n := i.natAbs) (b := 10))
    have hc : c ≠ '-' := by
      rintro rfl
      have := Nat.isDigit_of_mem_toDigits (b := 10) (by decide) (by decide)
        (hcs ▸ List.mem_cons_self : '-' ∈ Nat.toDigits 10 i.natAbs)
      exact absurd this (by decide)
    rw [hcs, List.cons_append, read_unsigned hc, ← List.cons_append, ← hcs,
      readMagnitude_toDigits ends false fits]
    have hzero : ¬ (false = true ∧ i.natAbs = 0) := fun hz => by cases hz.1
    exact ofLiteral_of_inRange (by rw [if_neg (by decide)]; exact hvalue) hzero h rest

/-- Whether the text of a number stands for the number. That of an integer always does; a double
is printed with few digits and read with rounding on the way. -/
def Exact : Number → Prop
  | .integer _ _ => True
  | .float x => read x.text = .ok (.float x, [])

theorem Exact.read_text {n : Number} (exact : n.Exact) (ends : Ends rest) :
    read (n.text ++ rest) = .ok (n, rest) := by
  cases n with
  | integer i h => exact read_intText ends i h
  | float x => exact read_append ends exact

/-- A number starts with its sign or a digit. -/
theorem starts_of_read {n : Number} {cs r : List Char} (h : read cs = .ok (n, r)) :
    ∃ c rest, cs = c :: rest ∧ (c = '-' ∨ c.isDigit = true) := by
  cases cs with
  | nil => cases h
  | cons c cs =>
    refine ⟨c, cs, rfl, ?_⟩
    by_cases hm : c = '-'
    · exact .inl hm
    · rw [read_unsigned hm] at h
      cases hd : c.isDigit with
      | true => exact .inr rfl
      | false => simp [readMagnitude, hd] at h

end Number

namespace Json

open Number (ReadError DigitRun readPower readExponent readScaled readFraction readMagnitude
  startsWithDigit)

variable {negative : Bool} {significand : Nat} {exponent : Int} {cs r : List Char} {n : Number}

/-- What is read of a number is also passed over. -/
theorem skipDigits_of_readPower {down : Bool}
    (h : readPower negative significand exponent down cs = .ok (n, r)) :
    skipDigits cs = some r := by
  cases cs with
  | nil => cases h
  | cons c cs =>
    simp only [readPower] at h
    split at h
    · next hd =>
      have hstart : startsWithDigit (c :: cs) = true := hd
      have hrest := DigitRun.dropWhile_rest 0x80000000 0 0 (c :: cs)
      rw [skipDigits, if_pos hstart, ← hrest]
      split at h
      · split at h
        · cases h
        · simp only [Except.ok.injEq, Prod.mk.injEq] at h
          rw [h.2]
      · next hs =>
        rw [Number.finish_rest h, Number.dropWhile_of_not_startsWithDigit (eq_false_of_ne_true hs)]
    · cases h

theorem skipExponent_of_readExponent
    (h : readExponent negative significand exponent cs = .ok (n, r)) :
    skipExponent ('e' :: cs) = some r ∧ skipExponent ('E' :: cs) = some r := by
  cases cs with
  | nil => cases h
  | cons c cs =>
    by_cases hm : c = '-'
    · subst hm
      exact ⟨skipDigits_of_readPower h, skipDigits_of_readPower h⟩
    · by_cases hp : c = '+'
      · subst hp
        exact ⟨skipDigits_of_readPower h, skipDigits_of_readPower h⟩
      · rw [Number.readExponent_unsigned hm hp] at h
        simp [skipExponent, hm, hp, skipDigits_of_readPower h]

theorem skipExponent_plain (plain : ∀ c ∈ cs.head?, c ≠ 'e' ∧ c ≠ 'E') :
    skipExponent cs = some cs := by
  unfold skipExponent
  split
  · exact absurd rfl (plain 'e' rfl).1
  · exact absurd rfl (plain 'E' rfl).2
  · rfl

theorem skipExponent_of_readScaled
    (h : readScaled negative significand exponent cs = .ok (n, r)) : skipExponent cs = some r := by
  cases cs with
  | nil => exact congrArg some (Number.finish_rest h).symm
  | cons c cs =>
    by_cases he : c = 'e'
    · subst he
      exact (skipExponent_of_readExponent h).1
    · by_cases hE : c = 'E'
      · subst hE
        exact (skipExponent_of_readExponent h).2
      · have plain : ∀ d ∈ (c :: cs).head?, d ≠ 'e' ∧ d ≠ 'E' := by
          rintro d ⟨⟩
          exact ⟨he, hE⟩
        rw [Number.readScaled_plain plain] at h
        rw [skipExponent_plain plain, Number.finish_rest h]

theorem skipFraction_of_readFraction
    (h : readFraction negative significand exponent cs = .ok (n, r)) :
    skipFraction ('.' :: cs) = some r := by
  simp only [readFraction] at h
  rw [DigitRun.dropWhile_rest] at h
  split at h
  · cases h
  · next hd =>
    have hstart : startsWithDigit cs = true := by
      cases hs : startsWithDigit cs with
      | true => rfl
      | false =>
        rw [DigitRun.read_of_not_startsWithDigit hs] at hd
        simp [hs] at hd
    have hskip : skipDigits cs = some (cs.dropWhile Char.isDigit) := by simp [skipDigits, hstart]
    simp [skipFraction, hskip, skipExponent_of_readScaled h]

theorem ofLiteral_rest (h : Number.ofLiteral negative significand cs = .ok (n, r)) : r = cs := by
  unfold Number.ofLiteral at h
  simp only at h
  split at h
  · cases h
    rfl
  · split at h
    · cases h
      rfl
    · exact Number.finish_rest h

theorem skipFraction_of_readTail {extra : List Char}
    (h : Number.readTail negative significand extra cs = .ok (n, r)) :
    skipFraction cs = some r := by
  have whole : ∀ {cs : List Char}, (∀ c ∈ cs.head?, c ≠ '.' ∧ c ≠ 'e' ∧ c ≠ 'E') →
      Number.readTail negative significand extra cs = .ok (n, r) → skipFraction cs = some r := by
    intro cs plain h
    have hfraction : skipFraction cs = skipExponent cs := by
      unfold skipFraction
      split
      · exact absurd rfl (plain '.' rfl).1
      · rfl
    rw [hfraction, skipExponent_plain fun c hc => (plain c hc).2]
    rw [Number.readTail_plain plain] at h
    split at h
    · rw [ofLiteral_rest h]
    · rw [Number.finish_rest h]
  cases cs with
  | nil => exact whole (by simp) h
  | cons c cs =>
    by_cases hp : c = '.'
    · subst hp
      exact skipFraction_of_readFraction h
    · by_cases he : c = 'e'
      · subst he
        have h : readScaled negative significand extra.length ('e' :: cs) = .ok (n, r) := h
        exact skipExponent_of_readScaled h
      · by_cases hE : c = 'E'
        · subst hE
          have h : readScaled negative significand extra.length ('E' :: cs) = .ok (n, r) := h
          exact skipExponent_of_readScaled h
        · refine whole ?_ h
          rintro d ⟨⟩
          exact ⟨hp, he, hE⟩

theorem skipMagnitude_of_readMagnitude (h : readMagnitude negative cs = .ok (n, r)) :
    skipMagnitude cs = some r := by
  cases cs with
  | nil => cases h
  | cons c cs =>
    cases hd : c.isDigit with
    | false => simp [readMagnitude, hd] at h
    | true =>
      by_cases hl : c = '0' ∧ startsWithDigit cs = true
      · simp [readMagnitude, hl] at h
      · rw [Number.readMagnitude_eq hd hl] at h
        have htail := skipFraction_of_readTail h
        unfold skipMagnitude
        split
        · next heq =>
          obtain ⟨rfl, rfl⟩ := List.cons.inj heq
          have hs : startsWithDigit cs = false := by
            cases hs : startsWithDigit cs with
            | false => rfl
            | true => exact absurd ⟨rfl, hs⟩ hl
          have hdrop : ('0' :: cs).dropWhile Char.isDigit = cs := by
            rw [List.dropWhile_cons, if_pos (by decide),
              Number.dropWhile_of_not_startsWithDigit hs]
          rwa [hs, ← hdrop]
        · have hskip : skipDigits (c :: cs) = some ((c :: cs).dropWhile Char.isDigit) :=
            if_pos hd
          rwa [hskip]

theorem skipNumber_of_read (h : Number.read cs = .ok (n, r)) : skipNumber cs = some r := by
  cases cs with
  | nil => cases h
  | cons c cs =>
    by_cases hm : c = '-'
    · subst hm
      exact skipMagnitude_of_readMagnitude h
    · rw [Number.read_unsigned hm] at h
      have hskip : skipNumber (c :: cs) = skipMagnitude (c :: cs) := by
        unfold skipNumber
        split
        · next heq => exact absurd (List.cons.inj heq).1 hm
        · rfl
      rw [hskip]
      exact skipMagnitude_of_readMagnitude h

/-- An exact number is read where it stands. -/
theorem lexNumber_text {rest : List Char} (exact : n.Exact) (ends : Number.Ends rest) :
    lexNumber (n.text ++ rest) = (.of n, some rest) := by
  have hread := exact.read_text ends
  unfold lexNumber
  rw [skipNumber_of_read hread, hread]
  rfl

end Json

end WorkflowEngine
