import Flpdf.Bytes.Ascii

/-! # Writing strings

`pdf_syntax.rs` writes strings to a sink, `tokenizer.rs` builds the canonical
text of a string token in a buffer of its own.
-/

namespace Flpdf

/-- The control characters with an escape of their own: `\n`, `\r`, `\t`, `\b` and `\f`. -/
def isNamedControl (byte : UInt8) : Bool :=
  byte == 0x0a || byte == 0x0d || byte == 0x09 || byte == 0x08 || byte == 0x0c

/-- The loop of `use_hex_string` and its final comparison. -/
def useHexStringLoop (length : ℕ) : ℕ → Bytes → Bool
  | nonAscii, [] => length < 5 * nonAscii
  | nonAscii, byte :: rest =>
    if 126 < byte then useHexStringLoop length (nonAscii + 1) rest
    else if 32 ≤ byte then useHexStringLoop length nonAscii rest
    else if 24 ≤ byte then useHexStringLoop length (nonAscii + 1) rest
    else if !isNamedControl byte then true
    else useHexStringLoop length nonAscii rest

def useHexString (value : Bytes) : Bool := useHexStringLoop value.length 0 value

def isIsoLatin1Printable (byte : UInt8) : Bool := 32 ≤ byte && byte ≤ 126 || 160 ≤ byte

/-- The three octal digits of `{byte:03o}`. -/
def octalDigits (byte : UInt8) : Bytes :=
  [0x30 + byte / 64, 0x30 + byte / 8 % 8, 0x30 + byte % 8]

/-- What `write_literal_string` writes for one byte. -/
def literalByte (byte : UInt8) : Bytes :=
  if byte = 0x5c ∨ byte = 0x28 ∨ byte = 0x29 then [0x5c, byte]
  else if byte = 0x0a then [0x5c, 0x6e]
  else if byte = 0x0d then [0x5c, 0x72]
  else if byte = 0x09 then [0x5c, 0x74]
  else if byte = 0x08 then [0x5c, 0x62]
  else if byte = 0x0c then [0x5c, 0x66]
  else if isIsoLatin1Printable byte then [byte]
  else 0x5c :: octalDigits byte

def writeLiteralString (value : Bytes) : Bytes := 0x28 :: (value.flatMap literalByte ++ [0x29])

def hexByteDigits (byte : UInt8) : Bytes := [hexDigit (byte >>> 4), hexDigit (byte &&& 0x0f)]

def writeHexString (value : Bytes) : Bytes := 0x3c :: (value.flatMap hexByteDigits ++ [0x3e])

def writeStringValue (value : Bytes) : Bytes :=
  if useHexString value then writeHexString value else writeLiteralString value

/-- The counting loop of `canonical_string_raw`: `non_ascii` and `force_hex` at its end. -/
def canonicalStringScan : ℕ → Bytes → ℕ × Bool
  | nonAscii, [] => (nonAscii, false)
  | nonAscii, byte :: rest =>
    if 126 < byte then canonicalStringScan (nonAscii + 1) rest
    else if 32 ≤ byte then canonicalStringScan nonAscii rest
    else if 24 ≤ byte then canonicalStringScan (nonAscii + 1) rest
    else if !isNamedControl byte then (nonAscii, true)
    else canonicalStringScan nonAscii rest

/-- What `canonical_string_raw` pushes for one byte of a literal string. -/
def canonicalLiteralByte (byte : UInt8) : Bytes :=
  if byte = 0x0a then [0x5c, 0x6e]
  else if byte = 0x0d then [0x5c, 0x72]
  else if byte = 0x09 then [0x5c, 0x74]
  else if byte = 0x08 then [0x5c, 0x62]
  else if byte = 0x0c then [0x5c, 0x66]
  else if byte = 0x28 then [0x5c, 0x28]
  else if byte = 0x29 then [0x5c, 0x29]
  else if byte = 0x5c then [0x5c, 0x5c]
  else if 32 ≤ byte ∧ byte ≤ 126 ∨ 160 ≤ byte then [byte]
  else
    [0x5c, 0x30 + (byte >>> (6 : UInt8) &&& 7), 0x30 + (byte >>> (3 : UInt8) &&& 7),
      0x30 + (byte &&& 7)]

def canonicalStringRaw (value : Bytes) : Bytes :=
  let scan := canonicalStringScan 0 value
  if scan.2 || value.length < 5 * scan.1 then
    0x3c :: (value.flatMap hexByteDigits ++ [0x3e])
  else 0x28 :: (value.flatMap canonicalLiteralByte ++ [0x29])

theorem canonicalLiteralByte_eq (byte : UInt8) : canonicalLiteralByte byte = literalByte byte :=
  forall_byte (p := fun b => canonicalLiteralByte b = literalByte b) (by decide) byte

theorem useHexStringLoop_eq (length nonAscii : ℕ) (value : Bytes) :
    useHexStringLoop length nonAscii value =
      ((canonicalStringScan nonAscii value).2 ||
        decide (length < 5 * (canonicalStringScan nonAscii value).1)) := by
  induction value generalizing nonAscii with
  | nil => rfl
  | cons byte rest ih =>
    simp only [useHexStringLoop, canonicalStringScan]
    split_ifs
    · exact ih _
    · exact ih _
    · exact ih _
    · rfl
    · exact ih _

/-- The two encoders make the same choice and write the same bytes. -/
theorem canonicalStringRaw_eq (value : Bytes) :
    canonicalStringRaw value = writeStringValue value := by
  have hbytes : value.flatMap canonicalLiteralByte = value.flatMap literalByte :=
    congrArg value.flatMap (funext canonicalLiteralByte_eq)
  rw [canonicalStringRaw, writeStringValue, useHexString, useHexStringLoop_eq, writeHexString,
    writeLiteralString, hbytes]

end Flpdf
