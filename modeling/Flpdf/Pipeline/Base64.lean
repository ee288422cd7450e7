import Flpdf.Bytes.Ascii

/-!
# The Base64 encoder

`PlBase64` collects three bytes and writes them as four characters; the last
quantum is padded.
-/

namespace Flpdf

/-- The encoding stage: the bytes of the current quantum and the output. -/
structure PlBase64 where
  buffer : Bytes := []
  output : Bytes := []
  deriving DecidableEq, Repr

namespace PlBase64

def encodeValue (value : ℕ) : UInt8 :=
  if value ≤ 25 then 0x41 + UInt8.ofNat value
  else if value ≤ 51 then 0x61 + UInt8.ofNat (value - 26)
  else if value ≤ 61 then 0x30 + UInt8.ofNat (value - 52)
  else if value = 62 then 0x2b
  else 0x2f

/-- `flush_encode`; the buffer is filled with zeros. -/
def flushEncode (buffer : Bytes) : Bytes :=
  let input := ((buffer.getD 0 0).toNat <<< 16) + ((buffer.getD 1 0).toNat <<< 8) +
    (buffer.getD 2 0).toNat
  let encoded := [encodeValue (input >>> 18), encodeValue ((input >>> 12) % 64),
    encodeValue ((input >>> 6) % 64), encodeValue (input % 64)]
  encoded.take (buffer.length + 1) ++ List.replicate (3 - buffer.length) 0x3d

def flushQuantum (p : PlBase64) : PlBase64 :=
  { buffer := [], output := p.output ++ flushEncode p.buffer }

def writeByte (p : PlBase64) (byte : UInt8) : PlBase64 :=
  let p := { p with buffer := p.buffer ++ [byte] }
  if p.buffer.length = 3 then p.flushQuantum else p

def write (p : PlBase64) (data : Bytes) : PlBase64 := data.foldl writeByte p

def finish (p : PlBase64) : PlBase64 := if p.buffer = [] then p else p.flushQuantum

/-- The text of some bytes; how they are split over the writes does not matter. -/
def encode (data : Bytes) : Bytes := ({} : PlBase64).write data |>.finish.output

theorem write_append (p : PlBase64) (data data' : Bytes) :
    p.write (data ++ data') = (p.write data).write data' :=
  List.foldl_append

/-! ## The alphabet -/

/-- The characters of the alphabet and the padding. -/
def isCharacter (byte : UInt8) : Bool :=
  isAsciiDigit byte || (0x41 ≤ byte && byte ≤ 0x5a) || (0x61 ≤ byte && byte ≤ 0x7a) ||
    byte == 0x2b || byte == 0x2f || byte == 0x3d

theorem encodeValue_isCharacter (value : ℕ) : isCharacter (encodeValue value) = true := by
  by_cases hvalue : value < 64
  · have hall : ∀ n ∈ List.range 64, isCharacter (encodeValue n) = true := by decide
    exact hall value (List.mem_range.mpr hvalue)
  · have h25 : ¬value ≤ 25 := by omega
    have h51 : ¬value ≤ 51 := by omega
    have h61 : ¬value ≤ 61 := by omega
    have h62 : value ≠ 62 := by omega
    rw [encodeValue, if_neg h25, if_neg h51, if_neg h61, if_neg h62]
    decide

theorem flushEncode_isCharacter (buffer : Bytes) :
    ∀ byte ∈ flushEncode buffer, isCharacter byte = true := by
  intro byte hbyte
  rcases List.mem_append.mp hbyte with hencoded | hpadding
  · have hmem := List.mem_of_mem_take hencoded
    simp only [List.mem_cons, List.not_mem_nil, or_false] at hmem
    rcases hmem with rfl | rfl | rfl | rfl <;> exact encodeValue_isCharacter _
  · rw [(List.mem_replicate.mp hpadding).2]
    decide

/-- Only characters have been written so far. -/
def Clean (p : PlBase64) : Prop := ∀ byte ∈ p.output, isCharacter byte = true

theorem Clean.flushQuantum {p : PlBase64} (h : p.Clean) : p.flushQuantum.Clean := by
  intro byte hbyte
  rcases List.mem_append.mp hbyte with hold | hnew
  · exact h byte hold
  · exact flushEncode_isCharacter _ byte hnew

theorem Clean.writeByte {p : PlBase64} (h : p.Clean) (byte : UInt8) : (p.writeByte byte).Clean := by
  unfold PlBase64.writeByte
  dsimp only
  split_ifs
  · exact Clean.flushQuantum h
  · exact h

theorem Clean.write {p : PlBase64} (h : p.Clean) (data : Bytes) : (p.write data).Clean := by
  induction data generalizing p with
  | nil => exact h
  | cons byte data ih => exact ih (h.writeByte byte)

theorem Clean.finish {p : PlBase64} (h : p.Clean) : p.finish.Clean := by
  unfold PlBase64.finish
  split_ifs
  · exact h
  · exact h.flushQuantum

theorem encode_isCharacter (data : Bytes) : ∀ byte ∈ encode data, isCharacter byte = true := by
  have hstart : ({} : PlBase64).Clean := by
    intro byte hbyte
    cases hbyte
  exact (hstart.write data).finish

example : encode [0x00, 0xff, 0x10, 0x20] = ascii "AP8QIA==" := by decide

end PlBase64

end Flpdf
