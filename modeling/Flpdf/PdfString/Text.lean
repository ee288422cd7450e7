import Flpdf.Unicode.Utf16

/-!
# PDF text strings

PDFDocEncoding, the UTF-8 view of a stored string and the stored form of a
Unicode text, after `pdf_string.rs`.
-/

namespace Flpdf

/-- The bytes of PDFDocEncoding whose character has another number. -/
def pdfDocSpecials : List (UInt8 × ℕ) :=
  [(0x18, 0x02d8), (0x19, 0x02c7), (0x1a, 0x02c6), (0x1b, 0x02d9), (0x1c, 0x02dd), (0x1d, 0x02db),
    (0x1e, 0x02da), (0x1f, 0x02dc), (0x80, 0x2022), (0x81, 0x2020), (0x82, 0x2021), (0x83, 0x2026),
    (0x84, 0x2014), (0x85, 0x2013), (0x86, 0x0192), (0x87, 0x2044), (0x88, 0x2039), (0x89, 0x203a),
    (0x8a, 0x2212), (0x8b, 0x2030), (0x8c, 0x201e), (0x8d, 0x201c), (0x8e, 0x201d), (0x8f, 0x2018),
    (0x90, 0x2019), (0x91, 0x201a), (0x92, 0x2122), (0x93, 0xfb01), (0x94, 0xfb02), (0x95, 0x0141),
    (0x96, 0x0152), (0x97, 0x0160), (0x98, 0x0178), (0x99, 0x017d), (0x9a, 0x0131), (0x9b, 0x0142),
    (0x9c, 0x0153), (0x9d, 0x0161), (0x9e, 0x017e), (0xa0, 0x20ac)]

/-- `PDFDOC_ENCODING`; a byte without a character has none. -/
def pdfDocEncoding (byte : UInt8) : Option Char :=
  match pdfDocSpecials.lookup byte with
  | some codepoint => some (Char.ofNat codepoint)
  | none =>
    if (0x08 ≤ byte ∧ byte ≤ 0x0d) ∨ (0x20 ≤ byte ∧ byte ≤ 0x7e) ∨ 0xa1 ≤ byte then
      some (Char.ofNat byte.toNat)
    else none

def replacementChar : Char := Char.ofNat 0xfffd

/-- The bytes that qpdf leaves without a character. -/
def isUndefinedByte (byte : UInt8) : Bool := byte == 0x7f || byte == 0x9f || byte == 0xad

/-- The character of a byte in the UTF-8 view of a string. -/
def pdfDocChar (byte : UInt8) : Char :=
  if isUndefinedByte byte then replacementChar
  else (pdfDocEncoding byte).getD (Char.ofNat byte.toNat)

def utf8Value (bytes : Bytes) : Bytes :=
  match bytes with
  | 0xfe :: 0xff :: rest => encodeUtf8 (lossyUtf16ToUtf8 rest false)
  | 0xff :: 0xfe :: rest => encodeUtf8 (lossyUtf16ToUtf8 rest true)
  | 0xef :: 0xbb :: 0xbf :: rest => rest
  | _ => encodeUtf8 (bytes.map pdfDocChar)

/-! ## Normalization -/

/-- The loop that counts the leading ones of a byte. -/
def countBytes (byte : UInt8) : ℕ → UInt8 → UInt8 → ℕ → ℕ × UInt8
  | 0, _, toClear, bytesNeeded => (bytesNeeded, toClear)
  | fuel + 1, bitCheck, toClear, bytesNeeded =>
    if byte &&& bitCheck ≠ 0 then
      countBytes byte fuel (bitCheck >>> 1) (toClear ||| bitCheck) (bytesNeeded + 1)
    else (bytesNeeded, toClear)

/-- The continuation bytes of a character; a byte that is none stays unread. -/
def takeContinuations : ℕ → ℕ → Bytes → Option ℕ × Bytes
  | 0, codepoint, rest => (some codepoint, rest)
  | _ + 1, _, [] => (none, [])
  | count + 1, codepoint, byte :: rest =>
    if byte &&& 0xc0 ≠ 0x80 then (none, byte :: rest)
    else takeContinuations count ((codepoint <<< 6) + (byte &&& 0x3f).toNat) rest

/-- The smallest code points of the lengths, as the source has them. -/
def lowerBounds : List ℕ := [0, 0, 1 <<< 7, 1 <<< 11, 1 <<< 16, 1 <<< 12, 1 <<< 26]

/-- One character of `normalize_utf8`; no character is an error. -/
def normalizeChar (byte : UInt8) (rest : Bytes) : Option Char × Bytes :=
  if byte < 0x80 then (some (Char.ofNat byte.toNat), rest)
  else
    let (bytesNeeded, toClear) := countBytes byte 8 0x40 0x80 0
    if ¬(1 ≤ bytesNeeded ∧ bytesNeeded ≤ 5) ∨ bytesNeeded > rest.length then (none, rest)
    else
      match takeContinuations bytesNeeded (byte &&& ~~~toClear).toNat rest with
      | (none, rest) => (none, rest)
      | (some codepoint, rest) =>
        let lowerBound := lowerBounds.getD (bytesNeeded + 1) 0
        if lowerBound > 0 ∧ codepoint < lowerBound then (none, rest)
        else (some ((charFromU32 codepoint).getD replacementChar), rest)

/-- The loop of `normalize_utf8`: the characters, and whether there was an error. -/
def normalizeFrom : ℕ → Bytes → List Char × Bool
  | 0, _ => ([], false)
  | _, [] => ([], false)
  | fuel + 1, byte :: rest =>
    let (char, rest) := normalizeChar byte rest
    let (text, hadError) := normalizeFrom fuel rest
    (char.getD replacementChar :: text, char.isNone || hadError)

def normalizeUtf8 (utf8 : Bytes) : List Char × Bool := normalizeFrom utf8.length utf8

def normalizedUtf8Value (utf8 : Bytes) : Bytes := encodeUtf8 (normalizeUtf8 utf8).1

/-! ## Stored forms -/

/-- The first byte whose UTF-8 view is the character. -/
def findPdfDoc (char : Char) : Option UInt8 :=
  ((List.range 256).map UInt8.ofNat).find? fun byte =>
    !isUndefinedByte byte && utf8Value [byte] == String.utf8EncodeChar char

/-- A text that would be read as having a byte order mark. -/
def resemblesUnicodeBom (utf8 : Bytes) : Bool :=
  [0xc3, 0xbe, 0xc3, 0xbf].isPrefixOf utf8 || [0xc3, 0xbf, 0xc3, 0xbe].isPrefixOf utf8 ||
    [0xc3, 0xaf, 0xc2, 0xbb, 0xc2, 0xbf].isPrefixOf utf8

def newUnicodeString (utf8 : Bytes) : Bytes :=
  let (text, hadError) := normalizeUtf8 utf8
  if !hadError && !resemblesUnicodeBom utf8 then
    match text.mapM findPdfDoc with
    | some pdfdoc => pdfdoc
    | none => encodeUtf16be text
  else encodeUtf16be text

/-- The code units of some bytes. -/
def utf16UnitsOf (isLe : Bool) : Bytes → Option (List ℕ)
  | [] => some []
  | [_] => none
  | x :: y :: rest => (utf16UnitsOf isLe rest).map (utf16Unit isLe x y :: ·)

def decodePdfTextString (bytes : Bytes) : Option (List Char) :=
  match bytes with
  | 0xfe :: 0xff :: rest => (utf16UnitsOf false rest).bind decodeUtf16
  | 0xff :: 0xfe :: rest => (utf16UnitsOf true rest).bind decodeUtf16
  | _ => bytes.mapM pdfDocEncoding

example : utf8Value [0x61, 0xad, 0x80] = [0x61, 0xef, 0xbf, 0xbd, 0xe2, 0x80, 0xa2] := by
  decide

end Flpdf
