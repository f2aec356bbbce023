/-!
Texts from bytes that may be no UTF-8: every maximal run of bytes that starts a character without
completing it, and every byte that starts none, becomes one mark.
-/
set_option autoImplicit false

namespace WorkflowEngine.Text

/-- What takes the place of bytes that are no character. -/
def replacementMark : Char := '\ufffd'

/-- The bits that a first byte gives, and the ranges of the bytes that have to follow it. -/
def leadingByte? (b : Nat) : Option (Nat × List (Nat × Nat)) :=
  if b < 0x80 then some (b, [])
  else if 0xC2 ≤ b ∧ b ≤ 0xDF then some (b % 0x20, [(0x80, 0xBF)])
  else if b = 0xE0 then some (0, [(0xA0, 0xBF), (0x80, 0xBF)])
  else if b = 0xED then some (b % 0x10, [(0x80, 0x9F), (0x80, 0xBF)])
  else if 0xE1 ≤ b ∧ b ≤ 0xEF then some (b % 0x10, [(0x80, 0xBF), (0x80, 0xBF)])
  else if b = 0xF0 then some (0, [(0x90, 0xBF), (0x80, 0xBF), (0x80, 0xBF)])
  else if 0xF1 ≤ b ∧ b ≤ 0xF3 then some (b % 8, [(0x80, 0xBF), (0x80, 0xBF), (0x80, 0xBF)])
  else if b = 0xF4 then some (b % 8, [(0x80, 0x8F), (0x80, 0xBF), (0x80, 0xBF)])
  else none

/-- Reads bytes; `code` holds the bits of the character under way and `expected` the ranges of the
bytes it still needs. -/
def decodeFrom (mark : Char) (code : Nat) (expected : List (Nat × Nat)) : List UInt8 → List Char
  | [] => if expected.isEmpty then [] else [mark]
  | b :: rest =>
    let start (_ : Unit) : List Char :=
      match leadingByte? b.toNat with
      | none => mark :: decodeFrom mark 0 [] rest
      | some (code, []) => Char.ofNat code :: decodeFrom mark 0 [] rest
      | some (code, expected) => decodeFrom mark code expected rest
    match expected with
    | [] => start ()
    | (low, high) :: more =>
      if low ≤ b.toNat ∧ b.toNat ≤ high then
        let code := code * 0x40 + b.toNat % 0x40
        if more.isEmpty then Char.ofNat code :: decodeFrom mark 0 [] rest
        else decodeFrom mark code more rest
      else mark :: start ()

def decodeLossy (bytes : List UInt8) : String := String.ofList (decodeFrom replacementMark 0 [] bytes)

/-- The last of the codes up to a bound whose character is not in a text. -/
def unusedFrom (cs : List Char) : Nat → Char
  | 0 => replacementMark
  | code + 1 => if cs.contains (Char.ofNat code) then unusedFrom cs code else Char.ofNat code

/-- A text with a mark that no character of it equals. -/
def decodeMarked (bytes : List UInt8) : Char × List Char :=
  let mark := unusedFrom (decodeFrom replacementMark 0 [] bytes) 0x110000
  (mark, decodeFrom mark 0 [] bytes)

end WorkflowEngine.Text
