import Flpdf.Bytes.Ascii

/-! # The LZW decoder

`LzwDecoder` of `pipeline/lzw.rs`.  The register arithmetic is that of the
source: a subtraction that would wrap and an index outside the buffer are
errors of their own here, so that a theorem can exclude them.
-/

namespace Flpdf.Lzw

def clearCode : ℕ := 256
def eodCode : ℕ := 257
def firstTableCode : ℕ := 258
def tableLimit : ℕ := 4096

inductive LzwError where
  | runtime (message : String)
  | underflow
  | outOfBounds
  deriving DecidableEq, Repr

/-- `written` are the buffers handed to the next stage, in order. -/
structure LzwDecoder where
  buf : Fin 3 → UInt8 := fun _ => 0
  codeSize : ℕ := 9
  bufNext : ℕ := 0
  bytePos : ℕ := 0
  bitPos : ℕ := 0
  bitsAvailable : ℕ := 0
  codeChangeDelta : Bool
  eod : Bool := false
  table : List Bytes := []
  lastCode : ℕ := clearCode
  written : List Bytes := []

/-- A `u32` subtraction. -/
def sub (a b : ℕ) : Except LzwError ℕ := if b ≤ a then .ok (a - b) else .error .underflow

/-- An access to the three-byte buffer. -/
def index (i : ℕ) : Except LzwError (Fin 3) :=
  if h : i < 3 then .ok ⟨i, h⟩ else .error .outOfBounds

namespace LzwDecoder

def new (earlyCodeChange : Bool) : LzwDecoder := { codeChangeDelta := earlyCodeChange }

def getFirstChar (d : LzwDecoder) (code : ℕ) : Except LzwError UInt8 :=
  if code < clearCode then .ok code.toUInt8
  else if eodCode < code then
    match d.table[code - firstTableCode]? with
    | some (c :: _) => .ok c
    | some [] => .error .outOfBounds
    | none => .error (.runtime "Pl_LZWDecoder::getFirstChar: table overflow")
  else
    .error (.runtime
      ("Pl_LZWDecoder::getFirstChar called with invalid code (" ++ toString code ++ ")"))

def addToTable (d : LzwDecoder) (nextChar : UInt8) : Except LzwError LzwDecoder :=
  if d.lastCode < clearCode then
    .ok { d with table := d.table ++ [[d.lastCode.toUInt8, nextChar]] }
  else if eodCode < d.lastCode then
    match d.table[d.lastCode - firstTableCode]? with
    | some last => .ok { d with table := d.table ++ [last ++ [nextChar]] }
    | none => .error (.runtime "Pl_LZWDecoder::addToTable: table overflow")
  else
    .error (.runtime
      ("Pl_LZWDecoder::addToTable called with invalid code (" ++ toString d.lastCode ++ ")"))

/-- The first character of the string that `code` stands for, before it is in the table. -/
def nextChar (d : LzwDecoder) (code : ℕ) : Except LzwError UInt8 :=
  if code < clearCode then .ok code.toUInt8
  else if d.table.length < code - firstTableCode then
    .error (.runtime "LZWDecoder: bad code received")
  else if code - firstTableCode = d.table.length then d.getFirstChar d.lastCode
  else d.getFirstChar code

/-- The branch of `handle_code` that adds the entry of the previous code. -/
def learn (d : LzwDecoder) (code : ℕ) : Except LzwError LzwDecoder :=
  if d.lastCode ≠ clearCode then do
    let nextChar ← d.nextChar code
    let newIndex := firstTableCode + d.table.length
    if newIndex = tableLimit then throw (.runtime "LZWDecoder: table full")
    let d ← d.addToTable nextChar
    let changeIndex := newIndex + d.codeChangeDelta.toNat
    if changeIndex = 511 ∨ changeIndex = 1023 ∨ changeIndex = 2047 then
      return { d with codeSize := d.codeSize + 1 }
    else return d
  else return d

/-- The branch of `handle_code` that writes the string of `code` to the next stage. -/
def emit (d : LzwDecoder) (code : ℕ) : Except LzwError LzwDecoder :=
  if code < clearCode then .ok { d with written := d.written ++ [[code.toUInt8]] }
  else
    match d.table[code - firstTableCode]? with
    | some entry => .ok { d with written := d.written ++ [entry] }
    | none => .error (.runtime "Pl_LZWDecoder::handleCode: table overflow")

def handleCode (d : LzwDecoder) (code : ℕ) : Except LzwError LzwDecoder :=
  if d.eod then return d
  else if code = clearCode then
    return { d with table := [], codeSize := 9, lastCode := code }
  else if code = eodCode then return { d with eod := true, lastCode := code }
  else do
    let d ← d.learn code
    let d ← d.emit code
    return { d with lastCode := code }

/-- The code under the cursor, with the byte and the bit behind it. -/
def extract (d : LzwDecoder) : Except LzwError (ℕ × ℕ × ℕ) := do
  let high := d.bytePos
  let med := (d.bytePos + 1) % 3
  let low := (d.bytePos + 2) % 3
  let bitsFromHigh ← sub 8 d.bitPos
  let fromMed ← sub d.codeSize bitsFromHigh
  let bitsFromLow ← if 8 < fromMed then sub fromMed 8 else pure 0
  let bitsFromMed := if 8 < fromMed then 8 else fromMed
  let medShift ← sub 8 bitsFromMed
  let lowShift ← sub 8 bitsFromLow
  let highMask ← sub (1 <<< bitsFromHigh) 1
  let medMask ← sub 0xff (← sub (1 <<< medShift) 1)
  let lowMask ← sub 0xff (← sub (1 <<< lowShift) 1)
  let code := ((d.buf (← index high)).toNat &&& highMask) <<< bitsFromMed +
    ((d.buf (← index med)).toNat &&& medMask) >>> medShift
  let (code, bytePos, bitPos) ←
    if bitsFromLow ≠ 0 then do
      let byte := d.buf (← index low)
      pure ((code <<< bitsFromLow) + (byte.toNat &&& lowMask) >>> lowShift, low, bitsFromLow)
    else pure (code, med, bitsFromMed)
  if bitPos = 8 then return (code, (bytePos + 1) % 3, 0) else return (code, bytePos, bitPos)

def sendNextCode (d : LzwDecoder) : Except LzwError LzwDecoder := do
  let (code, bytePos, bitPos) ← d.extract
  let bitsAvailable ← sub d.bitsAvailable d.codeSize
  { d with bytePos := bytePos, bitPos := bitPos, bitsAvailable := bitsAvailable }.handleCode code

/-- One round of the loop of `write`. -/
def writeByte (d : LzwDecoder) (byte : UInt8) : Except LzwError LzwDecoder := do
  let slot ← index d.bufNext
  let bufNext := if d.bufNext + 1 = 3 then 0 else d.bufNext + 1
  let d := { d with
    buf := Function.update d.buf slot byte
    bufNext := bufNext
    bitsAvailable := d.bitsAvailable + 8 }
  if d.codeSize ≤ d.bitsAvailable then d.sendNextCode else return d

/-- `write`; an error comes with what the next stage had received before it. -/
def write (d : LzwDecoder) : Bytes → Except (List Bytes × LzwError) LzwDecoder
  | [] => .ok d
  | byte :: rest =>
    match d.writeByte byte with
    | .error e => .error (d.written, e)
    | .ok d => d.write rest

/-- Successive calls of `write`, up to the first that fails. -/
def writeAll (d : LzwDecoder) : List Bytes → Except (List Bytes × LzwError) LzwDecoder
  | [] => .ok d
  | chunk :: rest =>
    match d.write chunk with
    | .error e => .error e
    | .ok d => d.writeAll rest

end LzwDecoder

end Flpdf.Lzw
