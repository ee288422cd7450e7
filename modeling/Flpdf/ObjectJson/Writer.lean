import Flpdf.Bytes.Decimal
import Flpdf.Json.Value
import Flpdf.Object.Value
import Flpdf.PdfString.Text
import Flpdf.Syntax.Strings

/-!
# The JSON form of objects

`ObjectJsonWriter`, over the bytes written so far. An indirect child is written
as a reference; whether it resolves to null is a parameter, since a dictionary
leaves out the entries whose value is null.
-/

namespace Flpdf

/-- `json_encode_string`, the table of `encode_string` once more. -/
def jsonEncodeString (value : Bytes) : Bytes := Json.encodeString value

def jsonStringIsSafe (value : Bytes) : Bool :=
  value.all fun byte => (0x22 < byte && byte != 0x5c) || byte == 0x20 || byte == 0x21

/-- The loop of `json_use_hex_string`; `none` when a byte decides for the hexadecimal form. -/
def countNonAscii : ℕ → Bytes → Option ℕ
  | nonAscii, [] => some nonAscii
  | nonAscii, byte :: bytes =>
    if 0x20 ≤ byte ∧ byte ≤ 0x7e then countNonAscii nonAscii bytes
    else if (0x18 ≤ byte ∧ byte ≤ 0x1f) ∨ 0x7f ≤ byte then countNonAscii (nonAscii + 1) bytes
    else if (0x08 ≤ byte ∧ byte ≤ 0x0a) ∨ byte = 0x0c ∨ byte = 0x0d then
      countNonAscii nonAscii bytes
    else none

def jsonUseHexString (bytes : Bytes) : Bool :=
  match countNonAscii 0 bytes with
  | none => true
  | some nonAscii => bytes.length < 5 * nonAscii

/-- The bytes that a normalized name writes with a number sign. -/
def isEscapedInName (byte : UInt8) : Bool :=
  !(33 ≤ byte && byte ≤ 126) || (ascii "#/()\x7b\x7d<>[]%").contains byte

/-- A byte of a normalized name; NUL stands for a number sign. -/
def normalizeNameByte (byte : UInt8) : Bytes :=
  if byte = 0 then [0x23]
  else if isEscapedInName byte then [0x23, hexDigit (byte >>> 4), hexDigit (byte &&& 0x0f)]
  else [byte]

def jsonNormalizeName : Bytes → Bytes
  | [] => []
  | first :: rest => first :: rest.flatMap normalizeNameByte

/-- The writer: what it has written, whether the next item is the first, and its
indentation. -/
structure ObjectJsonWriter where
  out : Bytes := []
  first : Bool := true
  indent : ℕ := 0
  deriving DecidableEq, Repr

namespace ObjectJsonWriter

/-- `SPACES`: a comma, a newline and fifty spaces. -/
def spaces : Bytes := 0x2c :: 0x0a :: List.replicate 50 0x20

def spaceBlock : ℕ := spaces.length - 2

def write (w : ObjectJsonWriter) (bytes : Bytes) : ObjectJsonWriter := { w with out := w.out ++ bytes }

/-- The loop that writes whole blocks of spaces. -/
def writeBlocks : ℕ → ℕ → ObjectJsonWriter → ObjectJsonWriter
  | 0, _, w => w
  | fuel + 1, remaining, w =>
    if spaceBlock ≤ remaining then
      writeBlocks fuel (remaining - spaceBlock) (w.write (spaces.drop 2))
    else w

def writeNext (w : ObjectJsonWriter) : ObjectJsonWriter :=
  let remainder := w.indent % spaceBlock
  let begun :=
    if w.first then { w with first := false }.write ((spaces.take (remainder + 2)).drop 1)
    else w.write (spaces.take (remainder + 2))
  writeBlocks w.indent w.indent begun

def writeStart (w : ObjectJsonWriter) (delimiter : UInt8) : ObjectJsonWriter :=
  let w := w.write [delimiter]
  { w with first := true, indent := w.indent + 2 }

def writeEnd (w : ObjectJsonWriter) (delimiter : UInt8) : ObjectJsonWriter :=
  let w := if 1 < w.indent then { w with indent := w.indent - 2 } else w
  let w := if w.first then w else { w with first := true }.writeNext
  { w with first := false }.write [delimiter]

def writeJsonEncoded (w : ObjectJsonWriter) (value : Bytes) : ObjectJsonWriter :=
  if jsonStringIsSafe value then w.write value else w.write (jsonEncodeString value)

def writeQuoted (w : ObjectJsonWriter) (value : Bytes) : ObjectJsonWriter :=
  ((w.write (ascii "\"")).writeJsonEncoded value).write (ascii "\"")

def writeUnicodeQuoted (w : ObjectJsonWriter) (value : Bytes) : ObjectJsonWriter :=
  ((w.write (ascii "\"u:")).writeJsonEncoded value).write (ascii "\"")

def hexText (value : Bytes) : Bytes := value.flatMap hexByteDigits

def writeBinaryQuoted (w : ObjectJsonWriter) (value : Bytes) : ObjectJsonWriter :=
  ((w.write (ascii "\"b:")).write (hexText value)).write (ascii "\"")

/-- What `write_string` does with a string that has neither a byte order mark nor
printable characters only. -/
def writeOtherString (w : ObjectJsonWriter) (value : Bytes) : ObjectJsonWriter :=
  if jsonUseHexString value then w.writeBinaryQuoted value
  else
    match decodePdfTextString value with
    | some text => w.writeUnicodeQuoted (encodeUtf8 text)
    | none => w.writeBinaryQuoted value

def isPrintable (byte : UInt8) : Bool := 0x20 ≤ byte && byte ≤ 0x7e

/-- The string is UTF-8 behind its mark. -/
def isMarkedUtf8 (value : Bytes) : Bool :=
  [0xef, 0xbb, 0xbf].isPrefixOf value && isUtf8 (value.drop 3)

def writeString (w : ObjectJsonWriter) (value : Bytes) (jsonVersion : ℤ) : ObjectJsonWriter :=
  if jsonVersion = 1 then w.writeQuoted (utf8Value value)
  else if [0xfe, 0xff].isPrefixOf value then
    w.writeUnicodeQuoted (encodeUtf8 (lossyUtf16ToUtf8 (value.drop 2) false))
  else if [0xff, 0xfe].isPrefixOf value then
    w.writeUnicodeQuoted (encodeUtf8 (lossyUtf16ToUtf8 (value.drop 2) true))
  else if isMarkedUtf8 value then w.writeUnicodeQuoted (value.drop 3)
  else if value.all isPrintable then w.writeUnicodeQuoted value
  else w.writeOtherString value

def writeNameRaw (w : ObjectJsonWriter) (raw : Bytes) (jsonVersion : ℤ) : ObjectJsonWriter :=
  if jsonVersion = 1 then w.writeQuoted (jsonNormalizeName raw)
  else if isUtf8 raw then w.writeQuoted raw
  else
    ((w.write (ascii "\"n:")).write (jsonEncodeString (jsonNormalizeName raw))).write (ascii "\"")

def writeNameValue (w : ObjectJsonWriter) (value : Bytes) (jsonVersion : ℤ) : ObjectJsonWriter :=
  w.writeNameRaw (0x2f :: value) jsonVersion

/-- A key with its slash. -/
def slashed (key : Bytes) : Bytes := if key.head? = some 0x2f then key else 0x2f :: key

def writeKey (w : ObjectJsonWriter) (key : Bytes) (jsonVersion : ℤ) : ObjectJsonWriter :=
  let w := w.writeNext
  let raw := slashed key
  let w :=
    if jsonVersion = 1 then (w.write (ascii "\"")).writeJsonEncoded (jsonNormalizeName raw)
    else if isUtf8 raw then (w.write (ascii "\"")).writeJsonEncoded raw
    else (w.write (ascii "\"n:")).writeJsonEncoded (jsonNormalizeName raw)
  w.write (ascii "\": ")

end ObjectJsonWriter

end Flpdf
