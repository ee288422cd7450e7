import Flpdf.Xref.Registration
import Flpdf.Xref.RecoveryReader

/-!
# The reconstruction scan

`recover_xref_entries_from_source` with trailer capture off: the source is read
block by block and cut into lines at CR and LF; a line whose first token is an
integer is a candidate, and the two tokens behind it are read from the source.
The optional results are `none` where a loop has run out of fuel.
-/

namespace Flpdf

open Std

/-- The first token of a line, unless it is the end of the line. -/
def readScanToken (bytes : Bytes) (start limit : ℕ) : Option Token :=
  if bytes.length < limit then none
  else
    match Tokenizer.setPosition { input := bytes.take limit } start with
    | .error _ => none
    | .ok tokenizer =>
      match (tokenizer.readQpdfToken xrefReconstructionMaxTokenLen).1 with
      | .error _ => none
      | .ok token => if token.tokenType ≠ .eof ∧ token.start < limit then some token else none

/-- The integer of a token; the text of an integer token is ASCII as it stands. -/
def parseScanInteger (token : Token) : Except RecoveryError ℤ :=
  match qpdfStringToIntChecked token.value with
  | .value value => .ok value
  | .noDigits => .ok 0
  | .overflow message => .error (.system message)

def reconstructedObjectRef (numberToken generationToken : Token) :
    Except RecoveryError (Option ObjectRef) :=
  match parseScanInteger numberToken with
  | .error e => .error e
  | .ok obj =>
    match parseScanInteger generationToken with
    | .error e => .error e
    | .ok generation =>
      if obj ≤ 0 ∨ ¬ (0 ≤ generation ∧ generation < 65535) then .ok none
      else .ok (some ⟨obj.toNat, generation.toNat⟩)

/-- The two tokens behind a candidate number; also returns the reads served so far. -/
def scanObjectHeaderAfterFirstTokenFromSource (src : Source) (sourceWindowStart : ℕ)
    (sourceWindow : Bytes) (tokenStart : ℕ) (numberToken : Token) (reads : ℕ) :
    Option (Except RecoveryError (Option (ObjectRef × ℕ)) × ℕ) :=
  let reader : RecoveryReader :=
    { sourceWindowStart := sourceWindowStart
      sourceWindow := sourceWindow
      position := tokenStart
      reads := reads }
  match reader.nextToken src (src.content.length + 2) with
  | none => none
  | some (.error e, reader) => some (.error e, reader.reads)
  | some (.ok none, reader) => some (.ok none, reader.reads)
  | some (.ok (some generationToken), reader) =>
    if !generationToken.isInteger then some (.ok none, reader.reads)
    else
      match reader.nextToken src (src.content.length + 2) with
      | none => none
      | some (.error e, reader) => some (.error e, reader.reads)
      | some (.ok none, reader) => some (.ok none, reader.reads)
      | some (.ok (some objectToken), reader) =>
        if !objectToken.isWordValue (ascii "obj") then some (.ok none, reader.reads)
        else
          match reconstructedObjectRef numberToken generationToken with
          | .error e => some (.error e, reader.reads)
          | .ok ref => some (.ok (ref.map fun ref => (ref, numberToken.start)), reader.reads)

/-- What the scan writes to: its own map and the owner's registration. -/
structure Recovered where
  entries : ExtTreeMap ObjectRef XrefEntry
  registration : XrefRegistration

/-- One recovered header; each of the two tables has its own suppressed numbers. -/
def Recovered.insertReconstructedXrefEntry (deletedObjects : ExtTreeSet ℕ) (recovered : Recovered)
    (ref : ObjectRef) (offset : ℕ) : Recovered where
  entries :=
    if ref.number ∈ deletedObjects then recovered.entries
    else recovered.entries.insert ref (.uncompressed offset)
  registration := recovered.registration.insertReconstructedXrefEntry ref offset

structure ScanState where
  line : Bytes
  lineStart : ℕ
  position : ℕ
  reads : ℕ
  recovered : Recovered

/-- `process_line`; the closing seek only matters to the source's cursor, which
every read sets anyway. -/
def processLine (src : Source) (deletedObjects : ExtTreeSet ℕ) (sourceWindowStart : ℕ)
    (sourceWindow : Bytes) (st : ScanState) : Option (Except RecoveryError Unit × ScanState) :=
  match readScanToken st.line 0 st.line.length with
  | none => some (.ok (), st)
  | some firstToken =>
    if firstToken.isInteger then
      match scanObjectHeaderAfterFirstTokenFromSource src sourceWindowStart sourceWindow
          (st.lineStart + firstToken.endPos) firstToken st.reads with
      | none => none
      | some (.error e, reads) => some (.error e, { st with reads := reads })
      | some (.ok none, reads) => some (.ok (), { st with reads := reads })
      | some (.ok (some (ref, offset)), reads) =>
        some (.ok (),
          { st with
            reads := reads
            recovered := st.recovered.insertReconstructedXrefEntry deletedObjects ref
              (st.lineStart + offset) })
    else some (.ok (), st)

def isEol (b : UInt8) : Bool := b == 0x0a || b == 0x0d

/-- The loop over the bytes of one block. -/
def scanChunk (src : Source) (deletedObjects : ExtTreeSet ℕ) (sourceWindowStart : ℕ)
    (sourceWindow : Bytes) : Bytes → ScanState → Option (Except RecoveryError Unit × ScanState)
  | [], st => some (.ok (), st)
  | byte :: rest, st =>
    if isEol byte then
      match processLine src deletedObjects sourceWindowStart sourceWindow
          { st with position := st.position + 1 } with
      | none => none
      | some (.error e, st) => some (.error e, st)
      | some (.ok (), st) =>
        scanChunk src deletedObjects sourceWindowStart sourceWindow rest
          { st with line := [], lineStart := st.position }
    else
      scanChunk src deletedObjects sourceWindowStart sourceWindow rest
        { st with line := st.line ++ [byte], position := st.position + 1 }

/-- The loop over the blocks, with the last block that held any byte. -/
def scanBlocks (src : Source) (deletedObjects : ExtTreeSet ℕ) :
    ℕ → ℕ × Bytes → ScanState → Option (Except RecoveryError (ℕ × Bytes) × ScanState)
  | 0, _, _ => none
  | fuel + 1, lastSourceWindow, st =>
    let chunk := src.read st.reads st.position
    if chunk.isEmpty then some (.ok lastSourceWindow, { st with reads := st.reads + 1 })
    else
      match scanChunk src deletedObjects st.position chunk chunk
          { st with reads := st.reads + 1 } with
      | none => none
      | some (.error e, st') => some (.error e, st')
      | some (.ok (), st') => scanBlocks src deletedObjects fuel (st.position, chunk) st'

/-- `recover_xref_entries_from_source`: what was recovered, also when the scan aborts. -/
def recoverXrefEntriesFromSource (src : Source) (deletedObjects : ExtTreeSet ℕ)
    (registration : XrefRegistration) : Option (Except RecoveryError Unit × Recovered) :=
  let st : ScanState :=
    { line := []
      lineStart := 0
      position := 0
      reads := 0
      recovered := ⟨∅, registration⟩ }
  match scanBlocks src deletedObjects (src.content.length + 1) (0, []) st with
  | none => none
  | some (.error e, st) => some (.error e, st.recovered)
  | some (.ok lastSourceWindow, st) =>
    if st.line.isEmpty then some (.ok (), st.recovered)
    else
      match processLine src deletedObjects lastSourceWindow.1 lastSourceWindow.2 st with
      | none => none
      | some (result, st) => some (result, st.recovered)

end Flpdf
