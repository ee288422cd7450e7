import Flpdf.Bits.Numerals

/-! # The bit reader

`BitStream` takes bits from the most significant one of a byte on. What it still
has to give is a suffix of the bits of its data.
-/

namespace Flpdf

open Bits

inductive BitStreamError where
  | exhausted (wanted available : ℕ)
  | tooWide
  | alignmentOverflow
  deriving DecidableEq, Repr

def BitStreamError.message : BitStreamError → Bytes
  | .exhausted wanted available =>
    ascii s!"overflow reading bit stream: wanted = {wanted}; available = {available}"
  | .tooWide => ascii "read_bits: too many bits requested"
  | .alignmentOverflow => ascii "overflow skipping to next byte in bitstream"

structure BitStream where
  data : Bytes
  bytePosition : ℕ := 0
  bitOffset : ℕ := 7
  bitsAvailable : ℕ
  deriving DecidableEq, Repr

namespace BitStream

def new (data : Bytes) : BitStream := { data := data, bitsAvailable := data.length * 8 }

/-- The bits that a round of the loop of `get_bits` takes from the current byte. -/
def roundBits (r : BitStream) (toCopy : ℕ) : ℕ :=
  ((r.data.getD r.bytePosition 0).toNat &&& ((1 <<< (r.bitOffset + 1)) - 1)) >>>
    (r.bitOffset + 1 - toCopy)

/-- The reader behind a round. -/
def behindRound (r : BitStream) (toCopy : ℕ) : BitStream :=
  let leftover := r.bitOffset + 1 - toCopy
  { r with
    bytePosition := if leftover = 0 then r.bytePosition + 1 else r.bytePosition
    bitOffset := if leftover = 0 then 7 else leftover - 1
    bitsAvailable := r.bitsAvailable - toCopy }

/-- The loop of `get_bits`; every round takes a bit. -/
def getLoop : ℕ → ℕ → ℕ → BitStream → ℕ × BitStream
  | 0, _, result, r => (result, r)
  | fuel + 1, bits, result, r =>
    if bits = 0 then (result, r)
    else
      let toCopy := min bits (r.bitOffset + 1)
      getLoop fuel (bits - toCopy) ((result <<< toCopy) ||| r.roundBits toCopy) (r.behindRound toCopy)

def getBits (r : BitStream) (bits : ℕ) : Except BitStreamError (ℕ × BitStream) :=
  if bits > r.bitsAvailable then .error (.exhausted bits r.bitsAvailable)
  else if bits > 32 then .error .tooWide
  else .ok (getLoop bits bits 0 r)

/-- The conversion of 64 unsigned bits to an `i32`. -/
def asI32 (value : ℕ) : ℤ :=
  if value % 2 ^ 32 < 2 ^ 31 then (value % 2 ^ 32 : ℕ) else (value % 2 ^ 32 : ℕ) - 2 ^ 32

/-- The conversion of 64 unsigned bits to an `i64`. -/
def asI64 (value : ℕ) : ℤ :=
  if value % 2 ^ 64 < 2 ^ 63 then (value % 2 ^ 64 : ℕ) else (value % 2 ^ 64 : ℕ) - 2 ^ 64

/-- The number that `get_bits_signed` makes of some bits: only what lies beyond the
sign bit is negative. The subtraction wraps at 64 bits. -/
def signedValue (value bits : ℕ) : ℤ :=
  if value > 1 <<< (bits - 1) then asI64 ((value + (2 ^ 64 - 1 <<< bits)) % 2 ^ 64)
  else asI64 value

def getBitsSigned (r : BitStream) (bits : ℕ) : Except BitStreamError (ℤ × BitStream) :=
  (r.getBits bits).map fun (value, r) => (signedValue value bits, r)

/-- The conversion of an `i32` to a `u32`. -/
def asU32 (value : ℤ) : ℕ := (value % 2 ^ 32).toNat

def getBitsI32 (r : BitStream) (bits : ℕ) : Except BitStreamError (ℤ × BitStream) :=
  (r.getBits bits).map fun (value, r) => (asI32 value, r)

def skipToNextByte (r : BitStream) : Except BitStreamError BitStream :=
  if r.bitOffset ≠ 7 then
    if r.bitsAvailable < r.bitOffset + 1 then .error .alignmentOverflow
    else
      .ok { r with
        bytePosition := r.bytePosition + 1, bitOffset := 7
        bitsAvailable := r.bitsAvailable - (r.bitOffset + 1) }
  else .ok r

/-! ## What is left -/

def position (r : BitStream) : ℕ := 8 * r.bytePosition + (7 - r.bitOffset)

/-- The bits that have not been read. -/
def rest (r : BitStream) : List Bool := (bytesBits r.data).drop r.position

structure WellFormed (r : BitStream) : Prop where
  offset : r.bitOffset ≤ 7
  available : r.position + r.bitsAvailable = 8 * r.data.length

variable {r : BitStream} {tail : List Bool} {value count k : ℕ}

theorem wellFormed_new (data : Bytes) : (new data).WellFormed := by
  constructor
  · exact Nat.le_refl 7
  · show 8 * 0 + (7 - 7) + data.length * 8 = 8 * data.length
    omega

theorem rest_new (data : Bytes) : (new data).rest = bytesBits data := rfl

theorem WellFormed.rest_length (h : r.WellFormed) : r.rest.length = r.bitsAvailable := by
  have havailable := h.available
  rw [rest, List.length_drop, bytesBits_length]
  omega

/-- The bits of the current byte come first. -/
theorem WellFormed.rest_eq (h : r.WellFormed) (hpos : 0 < r.bitsAvailable) :
    r.rest = toBits (r.bitOffset + 1) (r.data.getD r.bytePosition 0).toNat ++
      bytesBits (r.data.drop (r.bytePosition + 1)) := by
  have hoffset := h.offset
  have havailable := h.available
  have hlt : r.bytePosition < r.data.length := by
    rw [position] at havailable
    omega
  have hbyte : byteBits r.data[r.bytePosition] =
      toBits (7 - r.bitOffset) (r.data[r.bytePosition].toNat / 2 ^ (r.bitOffset + 1)) ++
        toBits (r.bitOffset + 1) r.data[r.bytePosition].toNat := by
    rw [byteBits_eq_toBits, ← toBits_add]
    congr 1
    omega
  rw [rest, position, drop_bytesBits, List.drop_eq_getElem_cons hlt, bytesBits_cons, hbyte,
    List.append_assoc, List.drop_left' (toBits_length _ _), List.getD_eq_getElem?_getD,
    List.getElem?_eq_getElem hlt, Option.getD_some]

theorem roundBits_eq (hk : k ≤ r.bitOffset + 1) : r.roundBits k =
    (r.data.getD r.bytePosition 0).toNat / 2 ^ (r.bitOffset + 1 - k) % 2 ^ k := by
  rw [roundBits, Nat.one_shiftLeft, Nat.and_two_pow_sub_one_eq_mod, Nat.shiftRight_eq_div_pow]
  obtain ⟨left, hleft⟩ := Nat.exists_eq_add_of_le hk
  rw [hleft, Nat.add_sub_cancel_left, Nat.add_comm k left, Nat.pow_add, Nat.mod_mul_right_div_self]

/-- A round moves on by the bits it takes. -/
theorem position_behindRound (h : r.bitOffset ≤ 7) (hk : k ≤ r.bitOffset + 1) :
    (r.behindRound k).position = r.position + k ∧ (r.behindRound k).bitOffset ≤ 7 := by
  rw [behindRound, position, position]
  dsimp only
  by_cases hleft : r.bitOffset + 1 - k = 0
  · rw [if_pos hleft, if_pos hleft]
    omega
  · rw [if_neg hleft, if_neg hleft]
    omega

theorem WellFormed.behindRound (h : r.WellFormed) (hpos : 0 < k) (hk : k ≤ r.bitOffset + 1)
    (havailable : k ≤ r.bitsAvailable) :
    (r.behindRound k).WellFormed ∧ r.rest = toBits k (r.roundBits k) ++ (r.behindRound k).rest := by
  obtain ⟨hposition, hoffset⟩ := position_behindRound h.offset hk
  have hfits := h.available
  refine ⟨⟨hoffset, ?_⟩, ?_⟩
  · rw [hposition]
    show r.position + k + (r.bitsAvailable - k) = 8 * r.data.length
    omega
  · have hdrop : (r.behindRound k).rest = r.rest.drop k := by
      rw [rest, rest, hposition, List.drop_drop]
      rfl
    obtain ⟨left, hleft⟩ := Nat.exists_eq_add_of_le hk
    have hsplit := h.rest_eq (Nat.lt_of_lt_of_le hpos havailable)
    rw [hleft, toBits_add, List.append_assoc] at hsplit
    rw [hdrop, hsplit, List.drop_left' (toBits_length _ _), roundBits_eq hk, toBits_mod (Nat.le_refl k),
      hleft, Nat.add_sub_cancel_left]

theorem toBits_inj {m n : ℕ} (hm : m < 2 ^ k) (hn : n < 2 ^ k) (h : toBits k m = toBits k n) :
    m = n := by
  rw [← ofBits_toBits_of_lt hm, h, ofBits_toBits_of_lt hn]

/-- The loop puts the bits of a numeral together again. -/
theorem WellFormed.getLoop {fuel : ℕ} (h : r.WellFormed) (result : ℕ) (hfuel : count ≤ fuel)
    (hvalue : value < 2 ^ count) (hrest : r.rest = toBits count value ++ tail) :
    ∃ r', getLoop fuel count result r = (result * 2 ^ count + value, r') ∧ r'.WellFormed ∧
      r'.rest = tail := by
  induction fuel generalizing count value result r with
  | zero =>
    obtain rfl := Nat.le_zero.mp hfuel
    obtain rfl := Nat.lt_one_iff.mp hvalue
    refine ⟨r, ?_, h, hrest⟩
    rw [BitStream.getLoop, Nat.pow_zero, Nat.mul_one, Nat.add_zero]
  | succ fuel ih =>
    rw [BitStream.getLoop]
    by_cases hcount : count = 0
    · subst hcount
      obtain rfl := Nat.lt_one_iff.mp hvalue
      refine ⟨r, ?_, h, hrest⟩
      rw [if_pos rfl, Nat.pow_zero, Nat.mul_one, Nat.add_zero]
    · rw [if_neg hcount]
      dsimp only
      generalize hk : min count (r.bitOffset + 1) = k
      have hpos : 0 < k := by omega
      have hle : k ≤ count := by omega
      obtain ⟨m, rfl⟩ := Nat.exists_eq_add_of_le hle
      have havailable : k ≤ r.bitsAvailable := by
        rw [← h.rest_length, hrest, List.length_append, toBits_length]
        omega
      obtain ⟨hwell, hround⟩ := h.behindRound hpos (by omega) havailable
      rw [hrest, toBits_add, List.append_assoc] at hround
      obtain ⟨hhigh, hlow⟩ := List.append_inj hround (by rw [toBits_length, toBits_length])
      have hhighlt : value / 2 ^ m < 2 ^ k := by
        rw [Nat.div_lt_iff_lt_mul (Nat.two_pow_pos m), ← Nat.pow_add]
        exact hvalue
      have hroundlt : r.roundBits k < 2 ^ k := by
        rw [roundBits_eq (by omega)]
        exact Nat.mod_lt _ (Nat.two_pow_pos k)
      have hbits : value / 2 ^ m = r.roundBits k := toBits_inj hhighlt hroundlt hhigh
      rw [← toBits_mod (Nat.le_refl m)] at hlow
      rw [Nat.add_sub_cancel_left]
      obtain ⟨r', hloop, hwell', hrest'⟩ := ih hwell _ (by omega) (Nat.mod_lt value (Nat.two_pow_pos m)) hlow.symm
      refine ⟨r', ?_, hwell', hrest'⟩
      rw [hloop, Nat.shiftLeft_eq, Nat.mul_comm result, ← Nat.two_pow_add_eq_or_of_lt hroundlt,
        ← hbits, Nat.pow_add]
      congr 1
      have hdiv := Nat.div_add_mod value (2 ^ m)
      nlinarith [hdiv]

/-- What was written with some width is read with that width. -/
theorem WellFormed.getBits (h : r.WellFormed) (hcount : count ≤ 32) (hvalue : value < 2 ^ count)
    (hrest : r.rest = toBits count value ++ tail) :
    ∃ r', r.getBits count = .ok (value, r') ∧ r'.WellFormed ∧ r'.rest = tail := by
  have havailable : count ≤ r.bitsAvailable := by
    rw [← h.rest_length, hrest, List.length_append, toBits_length]
    omega
  obtain ⟨r', hloop, hwell, hrest'⟩ := h.getLoop 0 (Nat.le_refl count) hvalue hrest
  refine ⟨r', ?_, hwell, hrest'⟩
  rw [BitStream.getBits, if_neg (Nat.not_lt.mpr havailable), if_neg (Nat.not_lt.mpr hcount), hloop,
    Nat.zero_mul, Nat.zero_add]

theorem asI64_of_lt {n : ℕ} (h : n < 2 ^ 63) : asI64 n = n := by
  rw [asI64, Nat.mod_eq_of_lt (by omega), if_pos h]

/-- A number below `2 ^ count` is read as its residue next to zero, half way up
included. -/
theorem signedValue_eq (hcount : count ≤ 32) (hvalue : value < 2 ^ count) :
    signedValue value count =
      if 2 * (value : ℤ) ≤ 2 ^ count ∨ count = 0 then (value : ℤ) else value - 2 ^ count := by
  have hpow : 2 ^ count ≤ 2 ^ 32 := Nat.pow_le_pow_right (by decide) hcount
  cases count with
  | zero =>
    obtain rfl := Nat.lt_one_iff.mp hvalue
    rw [if_pos (.inr rfl)]
    rfl
  | succ count =>
    have hsucc : 2 ^ (count + 1) = 2 ^ count * 2 := Nat.pow_succ 2 count
    rw [hsucc] at hvalue hpow
    have hcast : (2 : ℤ) ^ (count + 1) = ((2 ^ count * 2 : ℕ) : ℤ) := by
      rw [← hsucc, Nat.cast_pow, Nat.cast_ofNat]
    rw [signedValue, Nat.one_shiftLeft, Nat.one_shiftLeft, Nat.add_sub_cancel, hsucc, hcast]
    by_cases hhalf : value > 2 ^ count
    · have hsum : (value + (2 ^ 64 - 2 ^ count * 2)) % 2 ^ 64 = value + (2 ^ 64 - 2 ^ count * 2) :=
        Nat.mod_eq_of_lt (by omega)
      rw [if_pos hhalf, if_neg (by omega), hsum, asI64, Nat.mod_eq_of_lt (by omega),
        if_neg (by omega)]
      omega
    · rw [if_neg hhalf, if_pos (by omega), asI64_of_lt (by omega)]

/-- Only its residue counts of a number that is read. -/
theorem signedValue_mod (hcount : count ≤ 32) (hvalue : value < 2 ^ count) :
    signedValue value count % 2 ^ count = value := by
  have hmod : (value : ℤ) % 2 ^ count = value :=
    Int.emod_eq_of_lt (by omega) (by exact_mod_cast hvalue)
  rw [signedValue_eq hcount hvalue]
  split_ifs
  · exact hmod
  · rw [Int.sub_emod_right, hmod]

theorem WellFormed.getBitsSigned (h : r.WellFormed) (hcount : count ≤ 32) (hvalue : value < 2 ^ count)
    (hrest : r.rest = toBits count value ++ tail) :
    ∃ r', r.getBitsSigned count = .ok (signedValue value count, r') ∧ r'.WellFormed ∧
      r'.rest = tail := by
  obtain ⟨r', hget, hwell, hrest'⟩ := h.getBits hcount hvalue hrest
  refine ⟨r', ?_, hwell, hrest'⟩
  rw [BitStream.getBitsSigned, hget]
  rfl

end BitStream

end Flpdf
