import Flpdf.Bits.Numerals

/-! # The bit writer

`BitWriter` fills a byte from its most significant bit on and hands it to the
pipeline when it is full. It denotes the bits it has written so far.
-/

namespace Flpdf

open Bits

/-- The writer: the bytes it has handed on, the byte it fills and the position of
the next bit in it. -/
structure BitWriter where
  out : Bytes := []
  byte : UInt8 := 0
  bitOffset : ℕ := 7
  deriving DecidableEq, Repr

namespace BitWriter

/-- One round of the loop of `write_bits`. -/
def writeRound (value bits : ℕ) (w : BitWriter) : BitWriter :=
  let bitsToWrite := min bits (w.bitOffset + 1)
  let newBits := (value >>> (bits - bitsToWrite)) &&& ((1 <<< bitsToWrite) - 1)
  let bitsLeftInByte := w.bitOffset + 1 - bitsToWrite
  let byte := w.byte ||| (UInt8.ofNat newBits <<< UInt8.ofNat bitsLeftInByte)
  if bitsLeftInByte = 0 then { out := w.out ++ [byte], byte := 0, bitOffset := 7 }
  else { w with byte := byte, bitOffset := w.bitOffset - bitsToWrite }

/-- The loop of `write_bits`; every round writes a bit. -/
def writeLoop (value : ℕ) : ℕ → ℕ → BitWriter → BitWriter
  | 0, _, w => w
  | fuel + 1, bits, w =>
    if bits = 0 then w
    else writeLoop value fuel (bits - min bits (w.bitOffset + 1)) (w.writeRound value bits)

def writeBits (w : BitWriter) (value bits : ℕ) : Except Bytes BitWriter :=
  if bits > 32 then .error (ascii "write_bits: too many bits requested")
  else .ok (writeLoop value bits bits w)

/-- What `write_bits_signed` writes for an `i64`; the addition wraps at 64 bits. -/
def signedBits (value : ℤ) (bits : ℕ) : ℕ :=
  if value < 0 then ((((1 <<< bits : ℕ) : ℤ) + value) % 2 ^ 64).toNat else value.toNat

def writeBitsSigned (w : BitWriter) (value : ℤ) (bits : ℕ) : Except Bytes BitWriter :=
  if bits = 0 then .ok w
  else if bits > 32 then .error (ascii "write_bits: too many bits requested")
  else w.writeBits (signedBits value bits) bits

def flush (w : BitWriter) : Except Bytes BitWriter :=
  if w.bitOffset < 7 then w.writeBits 0 (w.bitOffset + 1) else .ok w

/-! ## The bits written -/

/-- The bits that have been written. -/
def bits (w : BitWriter) : List Bool :=
  bytesBits w.out ++ toBits (7 - w.bitOffset) (w.byte.toNat / 2 ^ (w.bitOffset + 1))

/-- The bits of the byte that are still to be written are zero. -/
structure WellFormed (w : BitWriter) : Prop where
  offset : w.bitOffset ≤ 7
  zeros : 2 ^ (w.bitOffset + 1) ∣ w.byte.toNat

theorem wellFormed_new (out : Bytes) : WellFormed { out := out } := by
  constructor
  · exact Nat.le_refl 7
  · exact Nat.dvd_zero _

variable {w w' : BitWriter} {value count : ℕ}

/-- New bits do not meet the ones that are there. -/
theorem or_new_bits {byte : UInt8} {new left width : ℕ} (hbyte : 2 ^ (width + left) ∣ byte.toNat)
    (hnew : new < 2 ^ width) (hpos : 0 < width) (hwidth : width + left ≤ 8) :
    (byte ||| (UInt8.ofNat new <<< UInt8.ofNat left)).toNat = byte.toNat + new * 2 ^ left := by
  obtain ⟨q, hq⟩ := hbyte
  have hshifted : new * 2 ^ left < 2 ^ (width + left) := by
    rw [Nat.pow_add]
    exact Nat.mul_lt_mul_of_pos_right hnew (Nat.two_pow_pos left)
  have hle : 2 ^ (width + left) ≤ 2 ^ 8 := Nat.pow_le_pow_right (by decide) hwidth
  have hnew8 : new < 2 ^ 8 :=
    hnew.trans_le (Nat.pow_le_pow_right (by decide) (by omega))
  have hleft : left % 2 ^ 8 % 8 = left := by omega
  rw [UInt8.toNat_or, UInt8.toNat_shiftLeft, UInt8.toNat_ofNat', UInt8.toNat_ofNat', hleft,
    Nat.mod_eq_of_lt hnew8, Nat.shiftLeft_eq, Nat.mod_eq_of_lt (hshifted.trans_le hle), hq,
    ← Nat.two_pow_add_eq_or_of_lt hshifted]

/-- What a round writes of the value. -/
theorem newBits_eq (value k bits : ℕ) :
    (value >>> (bits - k)) &&& ((1 <<< k) - 1) = value / 2 ^ (bits - k) % 2 ^ k := by
  rw [Nat.shiftRight_eq_div_pow, Nat.one_shiftLeft, Nat.and_two_pow_sub_one_eq_mod]

/-- A round writes the first bits that are left of the value. -/
theorem WellFormed.writeRound (h : w.WellFormed) (value : ℕ) (hcount : 0 < count) {k : ℕ}
    (hk : k = min count (w.bitOffset + 1)) :
    (w.writeRound value count).WellFormed ∧
      (w.writeRound value count).bits = w.bits ++ toBits k (value / 2 ^ (count - k)) := by
  have hoffset := h.offset
  have hkpos : 0 < k := by omega
  have hkle : k ≤ w.bitOffset + 1 := by omega
  obtain ⟨left, hleft⟩ := Nat.exists_eq_add_of_le hkle
  obtain ⟨q, hq⟩ := h.zeros
  have hnew : value / 2 ^ (count - k) % 2 ^ k < 2 ^ k := Nat.mod_lt _ (Nat.two_pow_pos k)
  have hsame : toBits k (value / 2 ^ (count - k)) = toBits k (value / 2 ^ (count - k) % 2 ^ k) :=
    (toBits_mod (Nat.le_refl k)).symm
  have hold : w.bits = bytesBits w.out ++ toBits (7 - w.bitOffset) q := by
    rw [BitWriter.bits, hq, Nat.mul_div_cancel_left _ (Nat.two_pow_pos _)]
  have hrest : w.bitOffset + 1 - k = left := by omega
  have hbyte := or_new_bits (hleft ▸ h.zeros) hnew hkpos (by omega : k + left ≤ 8)
  rw [hsame, hold, BitWriter.writeRound, ← hk, newBits_eq, hrest]
  generalize value / 2 ^ (count - k) % 2 ^ k = new at hnew hbyte ⊢
  rw [hq, hleft] at hbyte
  by_cases hzero : left = 0
  · rw [if_pos hzero]
    subst hzero
    rw [Nat.add_zero] at hleft
    refine ⟨wellFormed_new _, ?_⟩
    rw [BitWriter.bits, bytesBits_append, bytesBits_cons, bytesBits_nil, List.append_nil,
      byteBits_eq_toBits, hbyte, Nat.add_zero, Nat.pow_zero, Nat.mul_one,
      show 8 = 7 - w.bitOffset + k by omega, toBits_concat _ hnew, Nat.sub_self, toBits_zero,
      List.append_nil, List.append_assoc]
  · rw [if_neg hzero]
    have hoff : w.bitOffset - k + 1 = left := by omega
    have hpow : 2 ^ (k + left) * q + new * 2 ^ left = 2 ^ left * (2 ^ k * q + new) := by
      rw [Nat.pow_add]
      ring
    rw [hpow] at hbyte
    have hlow : w.bitOffset - k ≤ 7 := by omega
    refine ⟨⟨hlow, ?_⟩, ?_⟩
    · show 2 ^ (w.bitOffset - k + 1) ∣ _
      rw [hoff, hbyte]
      exact Nat.dvd_mul_right _ _
    · rw [BitWriter.bits]
      dsimp only
      rw [hoff, hbyte, Nat.mul_div_cancel_left _ (Nat.two_pow_pos left),
        show 7 - (w.bitOffset - k) = 7 - w.bitOffset + k by omega, toBits_concat _ hnew,
        List.append_assoc]

theorem WellFormed.writeLoop {fuel : ℕ} (h : w.WellFormed) (value : ℕ) (hfuel : count ≤ fuel) :
    (writeLoop value fuel count w).WellFormed ∧
      (writeLoop value fuel count w).bits = w.bits ++ toBits count value := by
  induction fuel generalizing count w with
  | zero =>
    rw [Nat.le_zero.mp hfuel, toBits_zero, List.append_nil]
    exact ⟨h, rfl⟩
  | succ fuel ih =>
    rw [BitWriter.writeLoop]
    by_cases hcount : count = 0
    · rw [if_pos hcount, hcount, toBits_zero, List.append_nil]
      exact ⟨h, rfl⟩
    · rw [if_neg hcount]
      obtain ⟨hwell, hbits⟩ := h.writeRound value (Nat.pos_of_ne_zero hcount) rfl
      obtain ⟨hwell', hbits'⟩ := ih hwell (show count - min count (w.bitOffset + 1) ≤ fuel by omega)
      refine ⟨hwell', ?_⟩
      rw [hbits', hbits, List.append_assoc, ← toBits_add]
      congr 2
      omega

/-- `writeBits` appends the numeral of the value. -/
theorem WellFormed.writeBits (h : w.WellFormed) (hcount : count ≤ 32) (value : ℕ) :
    ∃ w', w.writeBits value count = .ok w' ∧ w'.WellFormed ∧
      w'.bits = w.bits ++ toBits count value := by
  obtain ⟨hwell, hbits⟩ := h.writeLoop value (Nat.le_refl count)
  exact ⟨_, if_neg (Nat.not_lt.mpr hcount), hwell, hbits⟩

/-- A negative number has the bits of its residue. -/
theorem signedBits_mod {bits : ℕ} (hbits : bits ≤ 32) (value : ℤ) :
    ((signedBits value bits : ℕ) : ℤ) % 2 ^ bits = value % 2 ^ bits := by
  rw [signedBits, Nat.one_shiftLeft, Nat.cast_pow, Nat.cast_ofNat]
  by_cases hneg : value < 0
  · have hdvd : (2 : ℤ) ^ bits ∣ 2 ^ 64 := pow_dvd_pow 2 (by omega)
    rw [if_pos hneg, Int.toNat_of_nonneg (Int.emod_nonneg _ (by norm_num)),
      Int.emod_emod_of_dvd _ hdvd, Int.add_emod_left]
  · rw [if_neg hneg, Int.toNat_of_nonneg (by omega)]

/-- `writeBitsSigned` appends the numeral of a residue. -/
theorem WellFormed.writeBitsSigned (h : w.WellFormed) (hcount : count ≤ 32) (value : ℤ) :
    ∃ w', w.writeBitsSigned value count = .ok w' ∧ w'.WellFormed ∧
      w'.bits = w.bits ++ toBits count (value % 2 ^ count).toNat := by
  by_cases hzero : count = 0
  · subst hzero
    refine ⟨w, if_pos rfl, h, ?_⟩
    rw [toBits_zero, List.append_nil]
  · obtain ⟨w', hwrite, hwell, hbits⟩ := h.writeBits hcount (signedBits value count)
    refine ⟨w', ?_, hwell, ?_⟩
    · rw [BitWriter.writeBitsSigned, if_neg hzero, if_neg (Nat.not_lt.mpr hcount), hwrite]
    · have hresidue : (value % 2 ^ count).toNat = signedBits value count % 2 ^ count := by
        rw [← signedBits_mod hcount]
        exact Int.toNat_natCast _
      rw [hbits, hresidue, toBits_mod (Nat.le_refl count)]

theorem WellFormed.length_mod (h : w.WellFormed) : w.bits.length % 8 = 7 - w.bitOffset := by
  have hoffset := h.offset
  rw [BitWriter.bits, List.length_append, bytesBits_length, toBits_length]
  omega

/-- `flush` fills up the byte. -/
theorem WellFormed.flush (h : w.WellFormed) :
    ∃ w', w.flush = .ok w' ∧ w'.WellFormed ∧ w'.bits = padded w.bits ∧ w'.bitOffset = 7 := by
  have hoffset := h.offset
  have hlength := h.length_mod
  rw [BitWriter.flush]
  by_cases hlt : w.bitOffset < 7
  · obtain ⟨w', hwrite, hwell, hbits⟩ := h.writeBits (show w.bitOffset + 1 ≤ 32 by omega) 0
    have hzeros : toBits (w.bitOffset + 1) 0 = padding w.bits.length := by
      rw [padding, hlength, show (8 - (7 - w.bitOffset)) % 8 = w.bitOffset + 1 by omega, toBits_of_zero]
    rw [if_pos hlt]
    refine ⟨w', hwrite, hwell, by rw [hbits, hzeros, padded], ?_⟩
    have hlength' := hwell.length_mod
    have hoffset' := hwell.offset
    rw [hbits, hzeros, ← padded, padded_length] at hlength'
    omega
  · rw [if_neg hlt]
    refine ⟨w, rfl, h, (padded_of_dvd ?_).symm, ?_⟩
    · rw [hlength]
      omega
    · omega

/-- Behind whole octets the output is all there is. -/
theorem bits_of_full (h : w.bitOffset = 7) : w.bits = bytesBits w.out := by
  rw [BitWriter.bits, h, Nat.sub_self, toBits_zero, List.append_nil]

end BitWriter

end Flpdf
