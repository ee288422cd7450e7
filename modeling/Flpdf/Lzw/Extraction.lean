import Flpdf.Lzw.Reference

/-! # Extracting a code

The masks and shifts of `send_next_code` select the bits that a bit string
would give.  A code ends in the second or in the third byte.
-/

namespace Flpdf.Lzw

open Bits

theorem and_mask_shift (x : UInt8) {k : ℕ} (hk : k ≤ 8) :
    (x.toNat &&& (0xff - (1 <<< k - 1))) >>> k = x.toNat / 2 ^ k := by
  have key : ∀ k : Fin 9, (x.toNat &&& (0xff - (1 <<< k.val - 1))) >>> k.val = x.toNat / 2 ^ k.val :=
    forall_byte (p := fun x => ∀ k : Fin 9,
      (x.toNat &&& (0xff - (1 <<< k.val - 1))) >>> k.val = x.toNat / 2 ^ k.val) (by decide) x
  exact key ⟨k, by omega⟩

theorem and_low_mask (x k : ℕ) : x &&& (1 <<< k - 1) = x % 2 ^ k := by
  rw [Nat.one_shiftLeft, Nat.and_two_pow_sub_one_eq_mod]

theorem one_le_shift (k : ℕ) : 1 ≤ 1 <<< k := by
  rw [Nat.one_shiftLeft]
  exact Nat.one_le_two_pow

theorem shift_sub_le {k : ℕ} (hk : k ≤ 8) : 1 <<< k - 1 ≤ 0xff := by
  have h : 2 ^ k ≤ 2 ^ 8 := Nat.pow_le_pow_right (by decide) hk
  rw [Nat.one_shiftLeft]
  omega

theorem sub_eq {a b : ℕ} (h : b ≤ a) : sub a b = .ok (a - b) := if_pos h

theorem index_eq {i : ℕ} (h : i < 3) : index i = .ok ⟨i, h⟩ := dif_pos h

/-- The low bits of a byte, and its high bits. -/
theorem ofBits_drop_byteBits (b : UInt8) (r : ℕ) :
    ofBits ((byteBits b).drop r) = b.toNat % 2 ^ (8 - r) := by
  rw [ofBits_drop, ofBits_byteBits, byteBits_length]

theorem ofBits_take_byteBits (b : UInt8) (k : ℕ) :
    ofBits ((byteBits b).take k) = b.toNat / 2 ^ (8 - k) := by
  rw [ofBits_take, ofBits_byteBits, byteBits_length]

/-- A code that ends in the second byte. -/
theorem ofBits_two_bytes (x y : UInt8) {r n : ℕ} (hr : r ≤ 8) (h₁ : 8 ≤ r + n) (h₂ : r + n ≤ 16)
    (rest : List Bool) :
    ofBits (((byteBits x ++ (byteBits y ++ rest)).drop r).take n) =
      x.toNat % 2 ^ (8 - r) * 2 ^ (r + n - 8) + y.toNat / 2 ^ (16 - r - n) := by
  have hx : ((byteBits x).drop r).length = 8 - r := by simp
  rw [List.drop_append_of_le_length (by simpa using hr), List.take_append, hx,
    List.take_of_length_le (by rw [hx]; omega),
    List.take_append_of_le_length (by rw [byteBits_length]; omega), ofBits_append,
    ofBits_drop_byteBits, ofBits_take_byteBits, List.length_take, byteBits_length,
    show min (n - (8 - r)) 8 = r + n - 8 by omega, show 8 - (n - (8 - r)) = 16 - r - n by omega]

/-- A code that ends in the third byte. -/
theorem ofBits_three_bytes (x y z : UInt8) {r n : ℕ} (hr : r ≤ 8) (h₁ : 16 ≤ r + n)
    (h₂ : r + n ≤ 24) (rest : List Bool) :
    ofBits (((byteBits x ++ (byteBits y ++ (byteBits z ++ rest))).drop r).take n) =
      (x.toNat % 2 ^ (8 - r) * 2 ^ 8 + y.toNat) * 2 ^ (r + n - 16) +
        z.toNat / 2 ^ (24 - r - n) := by
  have hx : ((byteBits x).drop r).length = 8 - r := by simp
  rw [List.drop_append_of_le_length (by simpa using hr), List.take_append, hx,
    List.take_of_length_le (by rw [hx]; omega), List.take_append, byteBits_length,
    List.take_of_length_le (by rw [byteBits_length]; omega),
    List.take_append_of_le_length (by rw [byteBits_length]; omega), ← List.append_assoc,
    ofBits_append, ofBits_append, ofBits_drop_byteBits, ofBits_byteBits, ofBits_take_byteBits,
    byteBits_length, List.length_take, byteBits_length,
    show min (n - (8 - r) - 8) 8 = r + n - 16 by omega,
    show 8 - (n - (8 - r) - 8) = 24 - r - n by omega]

namespace LzwDecoder

variable {d : LzwDecoder}

/-- The buffered byte `k` places behind the cursor. -/
def byteAt (d : LzwDecoder) (k : ℕ) : UInt8 := d.buf ⟨(d.bytePos + k) % 3, Nat.mod_lt _ (by decide)⟩

theorem extract_two (hb : d.bytePos < 3) (hr : d.bitPos < 8) (h₁ : 8 < d.bitPos + d.codeSize)
    (h₂ : d.bitPos + d.codeSize ≤ 16) (rest : List Bool) :
    d.extract = .ok
      (ofBits (((byteBits (d.byteAt 0) ++ (byteBits (d.byteAt 1) ++ rest)).drop d.bitPos).take
        d.codeSize),
        (d.bytePos + (d.bitPos + d.codeSize) / 8) % 3, (d.bitPos + d.codeSize) % 8) := by
  have hbyte : d.byteAt 0 = d.buf ⟨d.bytePos, hb⟩ := by simp [byteAt, Nat.mod_eq_of_lt hb]
  have hmed : d.codeSize - (8 - d.bitPos) ≤ 8 := by omega
  have hshift : 8 - (d.codeSize - (8 - d.bitPos)) ≤ 8 := Nat.sub_le _ _
  rw [ofBits_two_bytes _ _ hr.le h₁.le h₂, hbyte]
  simp only [extract, sub_eq hr.le, sub_eq (show 8 - d.bitPos ≤ d.codeSize by omega),
    if_neg (not_lt.mpr hmed), sub_eq hmed, sub_eq (Nat.zero_le 8), sub_eq (one_le_shift _),
    sub_eq (shift_sub_le hshift), sub_eq (shift_sub_le (Nat.sub_le 8 0)), index_eq hb,
    index_eq (Nat.mod_lt _ (show 0 < 3 by decide)), bind, Except.bind, pure, Except.pure, ne_eq,
    not_true_eq_false, if_false, and_low_mask, and_mask_shift _ hshift]
  rw [Nat.shiftLeft_eq, show d.bitPos + d.codeSize - 8 = d.codeSize - (8 - d.bitPos) by omega,
    show 16 - d.bitPos - d.codeSize = 8 - (d.codeSize - (8 - d.bitPos)) by omega]
  split_ifs with h
  · rw [show (d.bytePos + (d.bitPos + d.codeSize) / 8) % 3 = ((d.bytePos + 1) % 3 + 1) % 3 by omega,
      show (d.bitPos + d.codeSize) % 8 = 0 by omega]
    rfl
  · rw [show (d.bytePos + (d.bitPos + d.codeSize) / 8) % 3 = (d.bytePos + 1) % 3 by omega,
      show (d.bitPos + d.codeSize) % 8 = d.codeSize - (8 - d.bitPos) by omega]
    rfl

theorem extract_three (hb : d.bytePos < 3) (hr : d.bitPos < 8) (h₁ : 16 < d.bitPos + d.codeSize)
    (h₂ : d.bitPos + d.codeSize < 24) (rest : List Bool) :
    d.extract = .ok
      (ofBits (((byteBits (d.byteAt 0) ++ (byteBits (d.byteAt 1) ++
        (byteBits (d.byteAt 2) ++ rest))).drop d.bitPos).take d.codeSize),
        (d.bytePos + (d.bitPos + d.codeSize) / 8) % 3, (d.bitPos + d.codeSize) % 8) := by
  have hbyte : d.byteAt 0 = d.buf ⟨d.bytePos, hb⟩ := by simp [byteAt, Nat.mod_eq_of_lt hb]
  have hmed : 8 < d.codeSize - (8 - d.bitPos) := by omega
  have hlow : d.codeSize - (8 - d.bitPos) - 8 ≤ 8 := by omega
  have hne : d.codeSize - (8 - d.bitPos) - 8 ≠ 0 := by omega
  have hshift : 8 - (d.codeSize - (8 - d.bitPos) - 8) ≤ 8 := Nat.sub_le _ _
  rw [ofBits_three_bytes _ _ _ hr.le h₁.le h₂.le, hbyte]
  simp only [extract, sub_eq hr.le, sub_eq (show 8 - d.bitPos ≤ d.codeSize by omega),
    if_pos hmed, sub_eq hmed.le, sub_eq (Nat.le_refl 8), sub_eq hlow, sub_eq (one_le_shift _),
    sub_eq (shift_sub_le hshift), sub_eq (shift_sub_le (Nat.sub_le 8 8)), index_eq hb,
    index_eq (Nat.mod_lt _ (show 0 < 3 by decide)), bind, Except.bind, pure, Except.pure, ne_eq,
    hne, not_false_eq_true, if_true, and_low_mask, and_mask_shift _ hshift,
    and_mask_shift _ (Nat.sub_le 8 8)]
  rw [if_neg (by omega), Nat.shiftLeft_eq, Nat.shiftLeft_eq, show d.bitPos + d.codeSize - 16 = d.codeSize - (8 - d.bitPos) - 8 by omega,
    show 24 - d.bitPos - d.codeSize = 8 - (d.codeSize - (8 - d.bitPos) - 8) by omega,
    show (d.bytePos + (d.bitPos + d.codeSize) / 8) % 3 = (d.bytePos + 2) % 3 by omega,
    show (d.bitPos + d.codeSize) % 8 = d.codeSize - (8 - d.bitPos) - 8 by omega, Nat.sub_self,
    pow_zero, Nat.div_one]
  rfl

end LzwDecoder

end Flpdf.Lzw
