import Flpdf.Unicode.Utf8

/-!
# UTF-16

The code units of a character, the encoder that writes them behind a byte order
mark and the lossy decoder that goes over broken surrogates.
-/

namespace Flpdf

theorem and_fc00 {u : ℕ} (hu : u < 65536) : u &&& 0xfc00 = 1024 * (u / 1024) := by
  have hdiv : (u &&& 0xfc00) / 2 ^ 10 = u / 2 ^ 10 := by
    rw [← Nat.shiftRight_eq_div_pow, Nat.shiftRight_and_distrib, Nat.shiftRight_eq_div_pow]
    have hmask := Nat.and_two_pow_sub_one_of_lt_two_pow (n := 6) (x := u / 2 ^ 10) (by omega)
    exact hmask
  have hmod : (u &&& 0xfc00) % 2 ^ 10 = 0 := by
    rw [Nat.and_mod_two_pow]
    simp
  omega

theorem and_3ff (u : ℕ) : u &&& 0x3ff = u % 1024 :=
  Nat.and_two_pow_sub_one_eq_mod u 10

/-- `char::encode_utf16`. -/
def utf16Units (char : Char) : List ℕ :=
  if char.toNat < 0x10000 then [char.toNat]
  else [0xd800 + (char.toNat - 0x10000) / 0x400, 0xdc00 + (char.toNat - 0x10000) % 0x400]

def bigEndianUnit (unit : ℕ) : Bytes := [UInt8.ofNat (unit / 256), UInt8.ofNat (unit % 256)]

/-- `encode_utf16be`, with its byte order mark. -/
def encodeUtf16be (text : List Char) : Bytes :=
  0xfe :: 0xff :: (text.flatMap utf16Units).flatMap bigEndianUnit

/-- `char::decode_utf16`, as far as it does not fail. -/
def decodeUtf16 : List ℕ → Option (List Char)
  | [] => some []
  | unit :: units =>
    if unit &&& 0xfc00 = 0xd800 then
      match units with
      | low :: units =>
        if low &&& 0xfc00 = 0xdc00 then do
          let char ← charFromU32 (0x10000 + ((unit &&& 0x3ff) <<< 10) + (low &&& 0x3ff))
          let text ← decodeUtf16 units
          return char :: text
        else none
      | [] => none
    else do
      let char ← charFromU32 unit
      let text ← decodeUtf16 units
      return char :: text

/-- Two bytes as a code unit. -/
def utf16Unit (isLe : Bool) (x y : UInt8) : ℕ :=
  if isLe then 256 * y.toNat + x.toNat else 256 * x.toNat + y.toNat

/-- The loop of `lossy_utf16_to_utf8` with its pending code point. -/
def lossyUtf16From (isLe : Bool) : ℕ → Bytes → List Char
  | codepoint, x :: y :: rest =>
    let bits := utf16Unit isLe x y
    if bits &&& 0xfc00 = 0xd800 then
      lossyUtf16From isLe (0x10000 + ((bits &&& 0x3ff) <<< 10)) rest
    else
      let codepoint := if bits &&& 0xfc00 = 0xdc00 then codepoint + (bits &&& 0x3ff) else bits
      (charFromU32 codepoint).toList ++ lossyUtf16From isLe 0 rest
  | _, _ => []

def lossyUtf16ToUtf8 (bytes : Bytes) (isLe : Bool) : List Char := lossyUtf16From isLe 0 bytes

/-! ## What was encoded is decoded -/

theorem utf16Unit_bigEndian {unit : ℕ} (h : unit < 65536) :
    utf16Unit false (UInt8.ofNat (unit / 256)) (UInt8.ofNat (unit % 256)) = unit := by
  rw [utf16Unit, if_neg (by decide), toNat_byte (by omega), toNat_byte (by omega)]
  omega

theorem lossyUtf16From_bigEndian {unit codepoint : ℕ} {rest : Bytes} (h : unit < 65536) :
    lossyUtf16From false codepoint (bigEndianUnit unit ++ rest) =
      if unit &&& 0xfc00 = 0xd800 then
        lossyUtf16From false (0x10000 + ((unit &&& 0x3ff) <<< 10)) rest
      else
        (charFromU32 (if unit &&& 0xfc00 = 0xdc00 then codepoint + (unit &&& 0x3ff) else unit)).toList
          ++ lossyUtf16From false 0 rest := by
  rw [bigEndianUnit, List.cons_append, List.singleton_append, lossyUtf16From]
  dsimp only
  rw [utf16Unit_bigEndian h]

theorem not_surrogate (c : Char) : c.toNat < 0xd800 ∨ 0xe000 ≤ c.toNat := by
  rcases c.valid with h | h
  · exact .inl h
  · exact .inr (Nat.lt_of_succ_le h.1)

/-- The units of a character are read back as the character. -/
theorem lossyUtf16From_units (c : Char) (rest : Bytes) :
    lossyUtf16From false 0 ((utf16Units c).flatMap bigEndianUnit ++ rest) =
      c :: lossyUtf16From false 0 rest := by
  have hlt := toNat_lt c
  unfold utf16Units
  by_cases hsmall : c.toNat < 0x10000
  · have hsurrogate := not_surrogate c
    have hhigh : ¬c.toNat &&& 0xfc00 = 0xd800 := by
      rw [and_fc00 hsmall]
      omega
    have hlow : ¬c.toNat &&& 0xfc00 = 0xdc00 := by
      rw [and_fc00 hsmall]
      omega
    rw [if_pos hsmall, List.flatMap_singleton, lossyUtf16From_bigEndian hsmall, if_neg hhigh,
      if_neg hlow, charFromU32_toNat]
    rfl
  · have hhigh : (0xd800 + (c.toNat - 0x10000) / 0x400) &&& 0xfc00 = 0xd800 := by
      rw [and_fc00 (by omega)]
      omega
    have hnot : ¬(0xdc00 + (c.toNat - 0x10000) % 0x400) &&& 0xfc00 = 0xd800 := by
      rw [and_fc00 (by omega)]
      omega
    have hlow : (0xdc00 + (c.toNat - 0x10000) % 0x400) &&& 0xfc00 = 0xdc00 := by
      rw [and_fc00 (by omega)]
      omega
    have hchar : 0x10000 + ((0xd800 + (c.toNat - 0x10000) / 0x400) % 1024) * 2 ^ 10 +
        (0xdc00 + (c.toNat - 0x10000) % 0x400) % 1024 = c.toNat := by
      omega
    rw [if_neg hsmall, List.flatMap_cons, List.flatMap_singleton, List.append_assoc,
      lossyUtf16From_bigEndian (by omega), if_pos hhigh, lossyUtf16From_bigEndian (by omega),
      if_neg hnot, if_pos hlow, and_3ff, and_3ff, Nat.shiftLeft_eq, hchar, charFromU32_toNat]
    rfl

/-- The lossy decoder loses nothing of an encoded text. -/
theorem lossyUtf16ToUtf8_units (text : List Char) :
    lossyUtf16ToUtf8 ((text.flatMap utf16Units).flatMap bigEndianUnit) false = text := by
  unfold lossyUtf16ToUtf8
  induction text with
  | nil => rfl
  | cons c text ih =>
    rw [List.flatMap_cons, List.flatMap_append, lossyUtf16From_units, ih]

end Flpdf
