import Flpdf.Bytes.Ascii

/-!
# UTF-8

A string of the source is the list of its characters. `decodeUtf8` stands for
the strict `from_utf8`, which accepts the encodings of such lists and nothing
else.
-/

namespace Flpdf

variable {c : Char} {n low : ℕ} {bytes rest : Bytes} {text text' : List Char}

/-- `char::from_u32`. -/
def charFromU32 (n : ℕ) : Option Char := if n.isValidChar then some (Char.ofNat n) else none

def encodeUtf8 (text : List Char) : Bytes := text.flatMap String.utf8EncodeChar

def isContinuation (byte : UInt8) : Bool := 0x80 ≤ byte && byte < 0xc0

/-- A character that needs as many bytes as it has. -/
def assemble (low n : ℕ) : Option Char := if low ≤ n then charFromU32 n else none

/-- The six bits of a continuation byte behind the bits before it. -/
def sixMore (value : ℕ) (byte : UInt8) : ℕ := 64 * value + (byte.toNat - 0x80)

/-- The first character and the bytes behind it: overlong forms, surrogates and
stray bytes are refused. -/
def firstChar (a : UInt8) (rest : Bytes) : Option (Char × Bytes) :=
  if a < 0x80 then (charFromU32 a.toNat).map (·, rest)
  else if a < 0xe0 then
    match rest with
    | b :: rest =>
      if 0xc0 ≤ a ∧ isContinuation b then
        (assemble 0x80 (sixMore (a.toNat - 0xc0) b)).map (·, rest)
      else none
    | _ => none
  else if a < 0xf0 then
    match rest with
    | b :: c :: rest =>
      if isContinuation b ∧ isContinuation c then
        (assemble 0x800 (sixMore (sixMore (a.toNat - 0xe0) b) c)).map (·, rest)
      else none
    | _ => none
  else
    match rest with
    | b :: c :: d :: rest =>
      if isContinuation b ∧ isContinuation c ∧ isContinuation d then
        (assemble 0x10000
          (sixMore (sixMore (sixMore (a.toNat - 0xf0) b) c) d)).map (·, rest)
      else none
    | _ => none

/-- The strict decoder; every character takes a byte. -/
def decodeFrom : ℕ → Bytes → Option (List Char)
  | _, [] => some []
  | 0, _ :: _ => none
  | fuel + 1, a :: rest =>
    match firstChar a rest with
    | none => none
    | some (char, rest) => (decodeFrom fuel rest).map (char :: ·)

def decodeUtf8 (bytes : Bytes) : Option (List Char) := decodeFrom bytes.length bytes

/-- `std::str::from_utf8(bytes).is_ok()`. -/
def isUtf8 (bytes : Bytes) : Bool := (decodeUtf8 bytes).isSome

/-! ## Characters -/

theorem charFromU32_eq_some_iff : charFromU32 n = some c ↔ c.toNat = n := by
  unfold charFromU32
  constructor
  · intro h
    split_ifs at h with hvalid
    rw [← Option.some.inj h, Char.ofNat, dif_pos hvalid]
    rfl
  · rintro rfl
    have hvalid : c.toNat.isValidChar := c.valid
    rw [if_pos hvalid, Char.ofNat_toNat]

theorem charFromU32_toNat (c : Char) : charFromU32 c.toNat = some c :=
  charFromU32_eq_some_iff.mpr rfl

theorem assemble_eq_some_iff : assemble low n = some c ↔ low ≤ n ∧ c.toNat = n := by
  unfold assemble
  split_ifs with hlow
  · rw [charFromU32_eq_some_iff]
    exact ⟨fun h => ⟨hlow, h⟩, fun h => h.2⟩
  · constructor
    · intro h
      cases h
    · intro h
      exact absurd h.1 hlow

theorem toNat_lt (c : Char) : c.toNat < 0x110000 := by
  rcases c.valid with h | h
  · have hval : c.toNat < 0xd800 := h
    omega
  · exact h.2

/-! ## Encodings -/

/-- The bytes of a character, by its length. -/
theorem utf8EncodeChar_eq (c : Char) : String.utf8EncodeChar c =
    if c.toNat < 0x80 then [UInt8.ofNat c.toNat]
    else if c.toNat < 0x800 then
      [UInt8.ofNat (0xc0 + c.toNat / 64), UInt8.ofNat (0x80 + c.toNat % 64)]
    else if c.toNat < 0x10000 then
      [UInt8.ofNat (0xe0 + c.toNat / 4096), UInt8.ofNat (0x80 + c.toNat / 64 % 64),
        UInt8.ofNat (0x80 + c.toNat % 64)]
    else
      [UInt8.ofNat (0xf0 + c.toNat / 262144), UInt8.ofNat (0x80 + c.toNat / 4096 % 64),
        UInt8.ofNat (0x80 + c.toNat / 64 % 64), UInt8.ofNat (0x80 + c.toNat % 64)] := by
  have hlt := toNat_lt c
  have hnat : c.val.toNat = c.toNat := rfl
  unfold String.utf8EncodeChar
  dsimp only
  rw [hnat]
  generalize c.toNat = n at hlt ⊢
  by_cases h₁ : n < 0x80
  · rw [if_pos (by omega), if_pos h₁]
  by_cases h₂ : n < 0x800
  · rw [if_neg (by omega), if_pos (by omega), if_neg h₁, if_pos h₂,
      Nat.mod_eq_of_lt (by omega : n / 64 < 0x20), Nat.add_comm, Nat.add_comm (n % 64)]
  by_cases h₃ : n < 0x10000
  · rw [if_neg (by omega), if_neg (by omega), if_pos (by omega), if_neg h₁, if_neg h₂, if_pos h₃,
      Nat.mod_eq_of_lt (by omega : n / 4096 < 0x10), Nat.add_comm, Nat.add_comm (n % 64),
      Nat.add_comm (n / 64 % 64)]
  · rw [if_neg (by omega), if_neg (by omega), if_neg (by omega), if_neg h₁, if_neg h₂, if_neg h₃,
      Nat.mod_eq_of_lt (by omega : n / 262144 < 0x08), Nat.add_comm, Nat.add_comm (n % 64),
      Nat.add_comm (n / 64 % 64), Nat.add_comm (n / 4096 % 64)]

theorem toNat_byte (h : n < 256) : (UInt8.ofNat n).toNat = n := UInt8.toNat_ofNat_of_lt h

theorem isContinuation_iff {b : UInt8} :
    isContinuation b = true ↔ 0x80 ≤ b.toNat ∧ b.toNat < 0xc0 := by
  rw [isContinuation, Bool.and_eq_true, decide_eq_true_iff, decide_eq_true_iff,
    UInt8.le_iff_toNat_le, UInt8.lt_iff_toNat_lt]
  rfl

theorem isContinuation_tail (n : ℕ) : isContinuation (UInt8.ofNat (0x80 + n % 64)) = true := by
  rw [isContinuation_iff, toNat_byte (by omega)]
  omega

theorem sixMore_tail (value n : ℕ) :
    sixMore value (UInt8.ofNat (0x80 + n % 64)) = 64 * value + n % 64 := by
  have hbyte : (UInt8.ofNat (0x80 + n % 64)).toNat = 0x80 + n % 64 := toNat_byte (by omega)
  unfold sixMore
  omega

theorem byte_lt {k : UInt8} (h : n < 256) (hk : n < k.toNat) : UInt8.ofNat n < k := by
  rwa [UInt8.lt_iff_toNat_lt, toNat_byte h]

theorem byte_not_lt {k : UInt8} (h : n < 256) (hk : k.toNat ≤ n) : ¬UInt8.ofNat n < k := by
  rw [UInt8.lt_iff_toNat_lt, toNat_byte h]
  omega

theorem byte_le {k : UInt8} (h : n < 256) (hk : k.toNat ≤ n) : k ≤ UInt8.ofNat n := by
  rwa [UInt8.le_iff_toNat_le, toNat_byte h]

/-- The first character of an encoding is the character. -/
theorem exists_firstChar (c : Char) (rest : Bytes) :
    ∃ a bytes, String.utf8EncodeChar c ++ rest = a :: bytes ∧ firstChar a bytes = some (c, rest) := by
  have hlt := toNat_lt c
  rw [utf8EncodeChar_eq]
  by_cases h₁ : c.toNat < 0x80
  · have ha : UInt8.ofNat c.toNat < 0x80 := byte_lt (by omega) h₁
    rw [if_pos h₁]
    simp only [List.cons_append, List.nil_append]
    refine ⟨_, _, rfl, ?_⟩
    unfold firstChar
    rw [if_pos ha, toNat_byte (by omega), charFromU32_toNat, Option.map_some]
  have hnot : ∀ n, 0x80 ≤ n → n < 256 → ¬UInt8.ofNat n < 0x80 := by
    intro n hge hn
    exact byte_not_lt hn hge
  by_cases h₂ : c.toNat < 0x800
  · have ha : UInt8.ofNat (0xc0 + c.toNat / 64) < 0xe0 :=
      byte_lt (by omega) (show 0xc0 + c.toNat / 64 < 0xe0 by omega)
    have hge : 0xc0 ≤ UInt8.ofNat (0xc0 + c.toNat / 64) :=
      byte_le (by omega) (show 0xc0 ≤ 0xc0 + c.toNat / 64 by omega)
    have hchar : assemble 0x80 (64 * (0xc0 + c.toNat / 64 - 0xc0) + c.toNat % 64) = some c :=
      assemble_eq_some_iff.mpr ⟨by omega, by omega⟩
    rw [if_neg h₁, if_pos h₂]
    simp only [List.cons_append, List.nil_append]
    refine ⟨_, _, rfl, ?_⟩
    unfold firstChar
    rw [if_neg (hnot _ (by omega) (by omega)), if_pos ha]
    dsimp only
    rw [if_pos ⟨hge, isContinuation_tail _⟩, sixMore_tail, toNat_byte (by omega), hchar]
    rfl
  have hnot' : ∀ n, 0xe0 ≤ n → n < 256 → ¬UInt8.ofNat n < 0xe0 := by
    intro n hge hn
    exact byte_not_lt hn hge
  by_cases h₃ : c.toNat < 0x10000
  · have ha : UInt8.ofNat (0xe0 + c.toNat / 4096) < 0xf0 :=
      byte_lt (by omega) (show 0xe0 + c.toNat / 4096 < 0xf0 by omega)
    have hchar : assemble 0x800 (64 * (64 * (0xe0 + c.toNat / 4096 - 0xe0) + c.toNat / 64 % 64) +
        c.toNat % 64) = some c :=
      assemble_eq_some_iff.mpr ⟨by omega, by omega⟩
    rw [if_neg h₁, if_neg h₂, if_pos h₃]
    simp only [List.cons_append, List.nil_append]
    refine ⟨_, _, rfl, ?_⟩
    unfold firstChar
    rw [if_neg (hnot _ (by omega) (by omega)), if_neg (hnot' _ (by omega) (by omega)), if_pos ha]
    dsimp only
    rw [if_pos ⟨isContinuation_tail _, isContinuation_tail _⟩, sixMore_tail, sixMore_tail,
      toNat_byte (by omega), hchar]
    rfl
  · have ha : ¬UInt8.ofNat (0xf0 + c.toNat / 262144) < 0xf0 :=
      byte_not_lt (by omega) (show 0xf0 ≤ 0xf0 + c.toNat / 262144 by omega)
    have hchar : assemble 0x10000 (64 * (64 * (64 * (0xf0 + c.toNat / 262144 - 0xf0) +
        c.toNat / 4096 % 64) + c.toNat / 64 % 64) + c.toNat % 64) = some c :=
      assemble_eq_some_iff.mpr ⟨by omega, by omega⟩
    rw [if_neg h₁, if_neg h₂, if_neg h₃]
    simp only [List.cons_append, List.nil_append]
    refine ⟨_, _, rfl, ?_⟩
    unfold firstChar
    rw [if_neg (hnot _ (by omega) (by omega)), if_neg (hnot' _ (by omega) (by omega)), if_neg ha]
    dsimp only
    rw [if_pos ⟨isContinuation_tail _, isContinuation_tail _, isContinuation_tail _⟩,
      sixMore_tail, sixMore_tail, sixMore_tail, toNat_byte (by omega), hchar]
    rfl

/-- What the decoder takes for a character is its encoding. -/
theorem encodeChar_of_firstChar {a : UInt8} (h : firstChar a bytes = some (c, rest)) :
    a :: bytes = String.utf8EncodeChar c ++ rest := by
  have hbyte := a.toNat_lt
  have hofNat : ∀ (b : UInt8) (n : ℕ), b.toNat = n → UInt8.ofNat n = b := by
    rintro b n rfl
    exact UInt8.ofNat_toNat
  rw [utf8EncodeChar_eq]
  unfold firstChar at h
  by_cases h₁ : a < 0x80
  · rw [if_pos h₁, Option.map_eq_some_iff] at h
    obtain ⟨d, hd, heq⟩ := h
    cases heq
    rw [charFromU32_eq_some_iff] at hd
    rw [UInt8.lt_iff_toNat_lt] at h₁
    rw [if_pos (by rw [hd]; exact h₁), hd, UInt8.ofNat_toNat, List.singleton_append]
  have hge₁ : 0x80 ≤ a.toNat := Nat.not_lt.mp fun h => h₁ (UInt8.lt_iff_toNat_lt.mpr h)
  by_cases h₂ : a < 0xe0
  · rw [if_neg h₁, if_pos h₂] at h
    cases bytes with
    | nil => cases h
    | cons x bytes =>
      dsimp only at h
      split_ifs at h with htail
      obtain ⟨d, hd, heq⟩ := Option.map_eq_some_iff.mp h
      cases heq
      obtain ⟨hge, hx⟩ := htail
      obtain ⟨hlow, hn⟩ := assemble_eq_some_iff.mp hd
      rw [isContinuation_iff] at hx
      have hlt : a.toNat < 0xe0 := UInt8.lt_iff_toNat_lt.mp h₂
      have hge' : 0xc0 ≤ a.toNat := UInt8.le_iff_toNat_le.mp hge
      unfold sixMore at hn hlow
      rw [if_neg (by omega), if_pos (by omega), hofNat a _ (by omega), hofNat x _ (by omega)]
      rfl
  have hge₂ : 0xe0 ≤ a.toNat := Nat.not_lt.mp fun h => h₂ (UInt8.lt_iff_toNat_lt.mpr h)
  by_cases h₃ : a < 0xf0
  · rw [if_neg h₁, if_neg h₂, if_pos h₃] at h
    match bytes, h with
    | x :: y :: bytes, h =>
      dsimp only at h
      split_ifs at h with htail
      obtain ⟨d, hd, heq⟩ := Option.map_eq_some_iff.mp h
      cases heq
      obtain ⟨hx, hy⟩ := htail
      obtain ⟨hlow, hn⟩ := assemble_eq_some_iff.mp hd
      rw [isContinuation_iff] at hx hy
      have hlt : a.toNat < 0xf0 := UInt8.lt_iff_toNat_lt.mp h₃
      unfold sixMore at hn hlow
      rw [if_neg (by omega), if_neg (by omega), if_pos (by omega), hofNat a _ (by omega),
        hofNat x _ (by omega), hofNat y _ (by omega)]
      rfl
  · have hge₃ : 0xf0 ≤ a.toNat := Nat.not_lt.mp fun h => h₃ (UInt8.lt_iff_toNat_lt.mpr h)
    rw [if_neg h₁, if_neg h₂, if_neg h₃] at h
    match bytes, h with
    | x :: y :: z :: bytes, h =>
      dsimp only at h
      split_ifs at h with htail
      obtain ⟨d, hd, heq⟩ := Option.map_eq_some_iff.mp h
      cases heq
      obtain ⟨hx, hy, hz⟩ := htail
      obtain ⟨hlow, hn⟩ := assemble_eq_some_iff.mp hd
      rw [isContinuation_iff] at hx hy hz
      unfold sixMore at hn hlow
      rw [if_neg (by omega), if_neg (by omega), if_neg (by omega), hofNat a _ (by omega),
        hofNat x _ (by omega), hofNat y _ (by omega), hofNat z _ (by omega)]
      rfl

/-! ## Texts -/

theorem encodeUtf8_cons (c : Char) (text : List Char) :
    encodeUtf8 (c :: text) = String.utf8EncodeChar c ++ encodeUtf8 text :=
  List.flatMap_cons

theorem decodeFrom_encodeUtf8 {fuel : ℕ} (h : (encodeUtf8 text).length ≤ fuel) :
    decodeFrom fuel (encodeUtf8 text) = some text := by
  induction text generalizing fuel with
  | nil => cases fuel <;> rfl
  | cons c text ih =>
    obtain ⟨a, bytes, heq, hfirst⟩ := exists_firstChar c (encodeUtf8 text)
    rw [encodeUtf8_cons] at h ⊢
    have hpos : 0 < (String.utf8EncodeChar c).length := by
      rw [String.length_utf8EncodeChar]
      exact c.utf8Size_pos
    rw [List.length_append] at h
    cases fuel with
    | zero => omega
    | succ fuel =>
      rw [heq, decodeFrom, hfirst]
      dsimp only
      rw [ih (by omega)]
      rfl

theorem decodeUtf8_encodeUtf8 (text : List Char) : decodeUtf8 (encodeUtf8 text) = some text :=
  decodeFrom_encodeUtf8 (Nat.le_refl _)

theorem encodeUtf8_of_decodeFrom {fuel : ℕ} (h : decodeFrom fuel bytes = some text) :
    encodeUtf8 text = bytes := by
  induction fuel generalizing bytes text with
  | zero =>
    cases bytes with
    | nil =>
      cases h
      rfl
    | cons a bytes => cases h
  | succ fuel ih =>
    cases bytes with
    | nil =>
      cases h
      rfl
    | cons a bytes =>
      rw [decodeFrom] at h
      cases hfirst : firstChar a bytes with
      | none =>
        rw [hfirst] at h
        cases h
      | some first =>
        obtain ⟨c, rest⟩ := first
        rw [hfirst] at h
        dsimp only at h
        obtain ⟨text', htext, rfl⟩ := Option.map_eq_some_iff.mp h
        rw [encodeUtf8_cons, ih htext, encodeChar_of_firstChar hfirst]

theorem decodeUtf8_eq_some_iff : decodeUtf8 bytes = some text ↔ encodeUtf8 text = bytes := by
  constructor
  · exact encodeUtf8_of_decodeFrom
  · rintro rfl
    exact decodeUtf8_encodeUtf8 text

theorem isUtf8_iff : isUtf8 bytes = true ↔ ∃ text, encodeUtf8 text = bytes := by
  rw [isUtf8, Option.isSome_iff_exists]
  simp only [decodeUtf8_eq_some_iff]

theorem encodeUtf8_injective (h : encodeUtf8 text = encodeUtf8 text') : text = text' := by
  have hdecode := decodeUtf8_encodeUtf8 text
  rw [h, decodeUtf8_encodeUtf8] at hdecode
  exact (Option.some.inj hdecode).symm

end Flpdf
