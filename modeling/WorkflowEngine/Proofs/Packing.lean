import Mathlib.Data.List.Induction
import Mathlib.Logic.ExistsUnique
import WorkflowEngine.Proofs.Entries
/-!
Packed entries as numbers in base 256 with data behind them. Bytes are the big-endian form of
exactly one number, and forms of one length stand in the order of their numbers. So every string of
bytes that has room for a header is one packed entry and no other, and headers can be compared in
place of the versions.
-/
set_option autoImplicit false

namespace WorkflowEngine.Entry

/-! ## Big-endian forms -/

/-- Bytes are the form of the number that they are read as. -/
theorem bigEndian_ofBigEndian (bytes : Bytes) :
    bigEndian bytes.length (ofBigEndian bytes) = bytes := by
  induction bytes using List.reverseRecOn with
  | nil => rfl
  | append_singleton bytes b ih =>
    have hb := b.toNat_lt
    have hinit : (ofBigEndian bytes * 256 + b.toNat) / 256 = ofBigEndian bytes := by omega
    have hlast : UInt8.ofNat (ofBigEndian bytes * 256 + b.toNat) = b := by
      apply UInt8.toNat_inj.1
      rw [UInt8.toNat_ofNat']
      omega
    rw [List.length_append, List.length_singleton, bigEndian, ofBigEndian_append, hinit, hlast, ih]

theorem ofBigEndian_lt (bytes : Bytes) : ofBigEndian bytes < Nat.pow 256 bytes.length := by
  have hmod := ofBigEndian_bigEndian bytes.length (ofBigEndian bytes)
  rw [bigEndian_ofBigEndian] at hmod
  calc ofBigEndian bytes = ofBigEndian bytes % Nat.pow 256 bytes.length := hmod
    _ < Nat.pow 256 bytes.length := Nat.mod_lt _ (Nat.pow_pos (by decide))

-- A form is read on at its end, so the induction is from there although the first byte is singled
-- out.
theorem ofBigEndian_cons (b : UInt8) (bytes : Bytes) :
    ofBigEndian (b :: bytes) = b.toNat * Nat.pow 256 bytes.length + ofBigEndian bytes := by
  induction bytes using List.reverseRecOn with
  | nil => simp [ofBigEndian]
  | append_singleton bytes c ih =>
    have hpow : Nat.pow 256 (bytes.length + 1) = Nat.pow 256 bytes.length * 256 := rfl
    rw [← List.cons_append, ofBigEndian_append, ofBigEndian_append, ih, List.length_append,
      List.length_singleton, hpow, Nat.add_mul, Nat.mul_assoc, Nat.add_assoc]

/-- Multiples of a unit decide the order before remainders that are smaller than it. -/
theorem mul_add_lt_mul_add_iff {unit a b x y : Nat} (hx : x < unit) (hy : y < unit) :
    a * unit + x < b * unit + y ↔ a < b ∨ a = b ∧ x < y := by
  rcases Nat.lt_trichotomy a b with lt | rfl | gt
  · have hle : (a + 1) * unit ≤ b * unit := Nat.mul_le_mul_right unit lt
    rw [Nat.succ_mul] at hle
    omega
  · omega
  · have hle : (b + 1) * unit ≤ a * unit := Nat.mul_le_mul_right unit gt
    rw [Nat.succ_mul] at hle
    omega

/-- Forms of one length are ordered as their numbers, by the first byte in which they differ. -/
theorem ofBigEndian_lt_iff {xs ys : Bytes} (same : xs.length = ys.length) :
    ofBigEndian xs < ofBigEndian ys ↔ xs < ys := by
  -- The first bytes decide, so the induction is from the front.
  induction xs generalizing ys with
  | nil =>
    obtain rfl : ys = [] := List.eq_nil_of_length_eq_zero same.symm
    simp
  | cons x xs ih =>
    cases ys with
    | nil => cases same
    | cons y ys =>
      have rest : xs.length = ys.length := Nat.succ.inj same
      have hx : ofBigEndian xs < Nat.pow 256 ys.length := rest ▸ ofBigEndian_lt xs
      rw [ofBigEndian_cons, ofBigEndian_cons, rest, mul_add_lt_mul_add_iff hx (ofBigEndian_lt ys),
        List.cons_lt_cons_iff, ih rest, UInt8.lt_iff_toNat_lt, UInt8.toNat_inj]

/-! ## Entries -/

variable {e f : Entry} {raw : Bytes}

theorem pack_of_unpack (h : unpack raw = .ok e) : e.pack = raw := by
  rcases Nat.lt_or_ge raw.length headerSize with short | whole
  · rw [unpack_of_short short] at h
    cases h
  · have hlength : (raw.take headerSize).length = headerSize := List.length_take_of_le whole
    have hversion := ofBigEndian_lt (raw.take headerSize)
    have hheader := bigEndian_ofBigEndian (raw.take headerSize)
    rw [hlength] at hversion hheader
    obtain rfl := Except.ok.inj ((unpack_of_whole whole).symm.trans h)
    calc pack ⟨UInt64.ofNat (ofBigEndian (raw.take headerSize)), raw.drop headerSize⟩
        = bigEndian headerSize (ofBigEndian (raw.take headerSize)) ++ raw.drop headerSize := by
          rw [pack, UInt64.toNat_ofNat_of_lt' hversion]
      _ = raw.take headerSize ++ raw.drop headerSize := by rw [hheader]
      _ = raw := List.take_append_drop headerSize raw

/-- What is unpacked is what has been packed. -/
theorem unpack_eq_ok_iff : unpack raw = .ok e ↔ e.pack = raw :=
  ⟨pack_of_unpack, fun h => h ▸ unpack_pack e⟩

theorem pack_injective : Function.Injective pack := fun _ f h =>
  Except.ok.inj ((unpack_eq_ok_iff.2 h).symm.trans (unpack_pack f))

/-- The headers of entries are in the order of the versions, whatever their data is. -/
theorem take_pack_lt_iff :
    e.pack.take headerSize < f.pack.take headerSize ↔ e.version < f.version := by
  have same : (e.pack.take headerSize).length = (f.pack.take headerSize).length := by
    rw [take_pack, take_pack, length_bigEndian, length_bigEndian]
  rw [← ofBigEndian_lt_iff same, ofBigEndian_take_pack, ofBigEndian_take_pack,
    UInt64.lt_iff_toNat_lt]

/-- Packing is one-to-one between entries and the strings of bytes with room for a header, in the
order of the versions. Unpacking undoes it, and refuses all shorter strings. -/
theorem packing_bijective :
    (∀ e : Entry, unpack e.pack = .ok e) ∧
      (∀ raw : Bytes, headerSize ≤ raw.length →
        (∃! e : Entry, e.pack = raw) ∧ (unpack raw).map pack = .ok raw) ∧
      (∀ raw : Bytes, raw.length < headerSize → unpack raw = .error (corruption raw)) ∧
      ∀ e f : Entry, e.pack.take headerSize < f.pack.take headerSize ↔ e.version < f.version := by
  refine ⟨unpack_pack, fun raw whole => ?_, fun _ => unpack_of_short, fun _ _ => take_pack_lt_iff⟩
  obtain ⟨e, he⟩ : ∃ e, unpack raw = .ok e := ⟨_, unpack_of_whole whole⟩
  have hpack : e.pack = raw := pack_of_unpack he
  refine ⟨⟨e, hpack, fun f hf => pack_injective (hf.trans hpack.symm)⟩, ?_⟩
  rw [he]
  exact congrArg Except.ok hpack

/-- Data that looks like another header, what is left of it when a byte is lost, and two versions
whose last bytes are in the other order. -/
theorem packing_bijective_second_header :
    let raw : Bytes := [0, 0, 0, 0, 0, 0, 1, 0, 0, 0, 0, 0, 0, 0, 0, 9]
    (headerSize ≤ raw.length ∧ (∃! e : Entry, e.pack = raw) ∧ (unpack raw).map pack = .ok raw) ∧
      ((raw.drop 9).length < headerSize ∧
        unpack (raw.drop 9) = .error (corruption (raw.drop 9))) ∧
      (Entry.mk 255 [9]).pack.take headerSize < (Entry.mk 256 []).pack.take headerSize := by
  intro raw
  obtain ⟨-, bijective, refused, ordered⟩ := packing_bijective
  have whole : headerSize ≤ raw.length := by decide
  have short : (raw.drop 9).length < headerSize := by decide
  exact ⟨⟨whole, bijective raw whole⟩, ⟨short, refused _ short⟩, (ordered _ _).2 (by decide)⟩

end WorkflowEngine.Entry
