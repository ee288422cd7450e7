import Flpdf.QdfFix.Scanners
import Flpdf.Xref.ObjGen

/-!
# `fix_qdf`

The repair of a hand-edited QDF file. One scan finds the objects; then the lengths
of the streams are measured, the objects are copied with what has to be rewritten,
and the cross-reference table or stream and the trailer are written again.

The counter of the object numbers is an `u32` that wraps, as in a release build.
-/

namespace Flpdf

namespace QdfFix

open Checked

/-! ## Objects -/

inductive ObjectBody where
  | plain (streamLen markerScanStart : Option ℕ) (ignoreNewlineCount : ℕ)
  | objStm (typeLineEnd firstMarkerStart endstreamKw : ℕ) (members : List ObjStmMember)
      (extendsEntry : Option Bytes)
  | xrefStream (typeLineEnd contentStart : ℕ)
  deriving DecidableEq, Repr

structure ObjectSpan where
  num : ℕ
  gen : ℕ
  objLineStart : ℕ
  bodyStart : ℕ
  endPos : ℕ
  body : ObjectBody
  deriving DecidableEq, Repr

/-- Where markers are looked for behind the stream of an object. -/
def markerScanStart (object : ObjectSpan) : Option ℕ :=
  match object.body with
  | .plain _ start _ => start
  | _ => none

/-- The object has a stream that qpdf leaves for the state behind streams. -/
def ObjectBody.entersAfterStream : ObjectBody → Bool
  | .plain (some _) (some _) _ => true
  | _ => false

def ObjectBody.isXrefStream : ObjectBody → Bool
  | .xrefStream .. => true
  | _ => false

def ObjectBody.isObjStm : ObjectBody → Bool
  | .objStm .. => true
  | _ => false

/-- `qpdf_bare_integer_line_range`. -/
def qpdfBareIntegerLineRange (input : Bytes) (object : ObjectSpan) : Fix (Option (ℕ × ℕ)) := do
  let range ← qpdfBareIntegerLineRangeAt input object.bodyStart
  return range.filter fun range => range.2 ≤ object.endPos

/-- `check_sequential`. -/
def checkSequential (num last errOffset : ℕ) : Fix ℕ :=
  if num ≠ (last + 1) % 2 ^ 32 then
    parseError errOffset ("fix_qdf: non-sequential object numbering " ++
      "(canonical QDF numbers objects 1..N in order)")
  else .ok num

/-! ## One object -/

/-- Behind the `>>` of the dictionary. -/
def afterDict (input : Bytes) (kwEnd : ℕ) : Fix (Option ℕ) := do
  let rest ← sliceFrom input kwEnd
  match findSubslice rest (ascii "<<") with
  | none => return none
  | some off => return (← findMatchingDictClose input (kwEnd + off)).map (· + 2)

/-- The `stream` keyword of the object, if no `endobj` comes first. -/
def ownStream (input : Bytes) (kwEnd : ℕ) : Fix (Option ℕ) := do
  match ← afterDict input kwEnd with
  | none => return none
  | some start =>
    match ← findLineKeywordFrom input (ascii "stream") start with
    | none => return none
    | some streamKw =>
      match ← findLineKeywordFrom input (ascii "endobj") kwEnd with
      | none => return some streamKw
      | some endobj => return if streamKw < endobj then some streamKw else none

/-- Behind the end of the line of the `stream` keyword. -/
def contentStart (input : Bytes) (streamKw : ℕ) : ℕ :=
  let start := streamKw + (ascii "stream").length
  let start := if input[start]? = some 0x0d then start + 1 else start
  if input[start]? = some 0x0a then start + 1 else start

/-- Behind the `endobj` of the object that begins at `lineStart`. -/
def objectEnd (input : Bytes) (lineStart searchFrom : ℕ) : Fix ℕ := do
  match ← findLineKeywordFrom input (ascii "endobj") searchFrom with
  | some endobj => return endobj + (ascii "endobj").length
  | none => parseError lineStart "fix_qdf: object without matching \x60endobj\x60"

/-- The object stream whose type line has a match at `typePos`. -/
def objStmBody (input : Bytes) (lineStart kwEnd streamKw endstreamKw typePos : ℕ) :
    Fix ObjectBody := do
  let typeLineEnd ← lineEndAfter input (kwEnd + typePos)
  match ← scanObjstmMembers input (contentStart input streamKw) endstreamKw with
  | none => parseError lineStart ("fix_qdf: object stream (/Type /ObjStm) has no " ++
      "\x60%% Object stream: object N\x60 marker lines")
  | some (firstMarkerStart, members) =>
    let region ← sliceBetween input typeLineEnd streamKw
    let extendsEntry ← findExtends region
    return .objStm typeLineEnd firstMarkerStart endstreamKw members extendsEntry

/-- The body of an object with a stream, up to its `endstream`. -/
def streamBody (input : Bytes) (lineStart kwEnd streamKw endstreamKw : ℕ) : Fix ObjectBody := do
  let dict ← sliceBetween input kwEnd streamKw
  match ← findRawTypeLine dict (ascii "/Type /ObjStm") with
  | some typePos => objStmBody input lineStart kwEnd streamKw endstreamKw typePos
  | none =>
    let marker := if endstreamKw ≤ input.length ∧
        (ascii "endstream\n").isPrefixOf (input.drop endstreamKw) then
      some (endstreamKw + (ascii "endstream\n").length) else none
    return .plain (some (← sub endstreamKw (contentStart input streamKw))) marker 0

/-- The body of an object and its end. -/
def objectBody (input : Bytes) (lineStart kwEnd : ℕ) : Fix (ObjectBody × ℕ) := do
  match ← ownStream input kwEnd with
  | none => return (.plain none none 0, ← objectEnd input lineStart kwEnd)
  | some streamKw =>
    let dict ← sliceBetween input kwEnd streamKw
    match ← findRawTypeLine dict (ascii "/Type /XRef") with
    | some typePos =>
      let typeLineEnd ← lineEndAfter input (kwEnd + typePos)
      return (.xrefStream typeLineEnd (contentStart input streamKw), contentStart input streamKw)
    | none =>
      match ← findLineKeywordFrom input (ascii "endstream") (contentStart input streamKw) with
      | none => return (.plain none none 0, ← objectEnd input lineStart kwEnd)
      | some endstreamKw =>
        let endPos ← objectEnd input lineStart (endstreamKw + (ascii "endstream").length)
        return (← streamBody input lineStart kwEnd streamKw endstreamKw, endPos)

/-! ## The scan -/

structure ScanState where
  objects : List ObjectSpan := []
  isXrefStreamForm : Bool := false
  lastObj : ℕ := 0
  cursor : ℕ := 0
  scanAfterStream : Bool := false
  resumedAfterTail : Bool := false
  deriving DecidableEq, Repr

/-- An object header that the scan has come to. -/
structure Header where
  num : ℕ
  gen : ℕ
  lineStart : ℕ
  kwEnd : ℕ
  lastObj : ℕ
  resumedAfterTail : Bool
  /-- The integer line, if the object holds the length of the stream in front of it. -/
  holderLine : Option (ℕ × ℕ)

/-- Whether the scan for the holder has passed an `xref` line. -/
def resumes (input : Bytes) (s : ScanState) (lineStart : ℕ) : Fix Bool :=
  if s.scanAfterStream && !s.resumedAfterTail then do
    let before ← sliceBetween input 0 lineStart
    let start := (s.objects.getLast?.bind markerScanStart).getD s.cursor
    return (← findQpdfXrefLineFrom before start).isSome
  else return s.resumedAfterTail

/-- The next header, its number checked, with the line of a length holder. -/
def scanHeader (input : Bytes) (s : ScanState) : Fix (Option Header) := do
  match ← findNextObj input s.cursor (!s.scanAfterStream) with
  | none => return none
  | some (num, gen, lineStart, kwEnd) =>
    let resumed ← resumes input s lineStart
    let lastObj ← checkSequential num s.lastObj lineStart
    if s.objects.getLast?.any fun previous => previous.body.entersAfterStream then
      match ← qpdfBareIntegerLineRangeAt input (kwEnd + 1) with
      | some range => return some ⟨num, gen, lineStart, kwEnd, lastObj, resumed, some range⟩
      | none => parseError (kwEnd + 1) "fix_qdf: expected integer"
    else return some ⟨num, gen, lineStart, kwEnd, lastObj, resumed, none⟩

/-- The integer line of a holder that is all the scan reads of its object. -/
def Header.bareHolder (header : Header) : Option (ℕ × ℕ) :=
  if header.resumedAfterTail then header.holderLine else none

/-- The members of an object stream go on with the numbers. -/
def memberNumbers (lineStart : ℕ) : List ObjStmMember → ℕ → Fix ℕ
  | [], last => return last
  | member :: members, last => do
    memberNumbers lineStart members (← checkSequential member.num last lineStart)

def bodyNumbers (lineStart : ℕ) (body : ObjectBody) (last : ℕ) : Fix ℕ :=
  match body with
  | .objStm _ _ _ members _ => memberNumbers lineStart members last
  | _ => return last

/-- The state behind an object. -/
def scanned (s : ScanState) (header : Header) (body : ObjectBody) (endPos lastObj : ℕ) : ScanState where
  objects := s.objects ++
    [⟨header.num, header.gen, header.lineStart, header.kwEnd + 1, endPos, body⟩]
  isXrefStreamForm := body.isXrefStream
  lastObj := lastObj
  cursor := endPos
  scanAfterStream := body.entersAfterStream
  resumedAfterTail := header.resumedAfterTail

/-- One turn of the loop over the objects. -/
def scanStep (input : Bytes) (s : ScanState) : Fix (ScanState ⊕ ScanState) := do
  match ← scanHeader input s with
  | none => return .inr s
  | some header =>
    match header.bareHolder with
    | some (_, integerEnd) =>
      return .inl { scanned s header (.plain none none 0) integerEnd header.lastObj with
        isXrefStreamForm := s.isXrefStreamForm }
    | none =>
      let (body, endPos) ← objectBody input header.lineStart header.kwEnd
      let lastObj ← bodyNumbers header.lineStart body header.lastObj
      let s := scanned s header body endPos lastObj
      return if s.isXrefStreamForm then .inr s else .inl s

def scan (input : Bytes) : Fix ScanState :=
  loop (scanStep input) (input.length + 2) {}

/-! ## Lengths -/

/-- A body with the markers between its stream and the next object. -/
def countedBody (input : Bytes) (nextStart : ℕ) : ObjectBody → Fix ObjectBody
  | .plain (some streamLen) (some start) _ => do
    let separator ← sliceBetween input start nextStart
    return .plain (some streamLen) (some start) (ignoreNewlineMarkerCount separator)
  | body => return body

def countMarkers (input : Bytes) : List ObjectSpan → Fix (List ObjectSpan)
  | object :: next :: objects => do
    let body ← countedBody input next.objLineStart object.body
    return { object with body := body } :: (← countMarkers input (next :: objects))
  | objects => return objects

/-- The length that replaces the integer line of an object, if the object in front has a stream. -/
def newLenBody (input : Bytes) (previous : Option ObjectSpan) (object : ObjectSpan) :
    Fix (Option (ℕ × ℕ × ℕ)) :=
  match previous.map ObjectSpan.body with
  | some (.plain (some measuredLen) _ ignoreNewlineCount) => do
    match ← qpdfBareIntegerLineRange input object with
    | some (integerStart, integerEnd) =>
      return some (measuredLen - ignoreNewlineCount, integerStart, integerEnd)
    | none => parseError object.bodyStart "fix_qdf: expected integer"
  | _ => return none

/-- The objects with the lengths they are to hold. -/
def lengthHolders (input : Bytes) :
    Option ObjectSpan → List ObjectSpan → Fix (List (ObjectSpan × Option (ℕ × ℕ × ℕ)))
  | _, [] => return []
  | previous, object :: objects => do
    let newLen ← newLenBody input previous object
    return (object, newLen) :: (← lengthHolders input (some object) objects)

/-! ## Output -/

/-- A number with leading zeros. -/
def padDecimal (width n : ℕ) : Bytes :=
  List.replicate (width - (natDecimal n).length) 0x30 ++ natDecimal n

/-- `byte_width`. -/
def byteWidth (v : ℕ) : Fix ℕ :=
  loop (fun s : ℕ × ℕ => return if 0 < s.1 then .inl (s.1 / 256, s.2 + 1) else .inr s.2) (v + 1) (v, 0)

/-- `write_binary`. -/
def writeBinary (val bytes : ℕ) : Bytes :=
  (List.range bytes).reverse.map fun i => UInt8.ofNat (val / 256 ^ i)

/-- The lines of the offset table. -/
def offsetLines (base : ℕ) : List ObjStmMember → Fix Bytes
  | [] => return []
  | member :: members => do
    let offset ← sub member.bodyStart base
    return natDecimal member.num ++ [0x20] ++ natDecimal offset ++ [0x0a] ++
      (← offsetLines base members)

/-- The line of an `/Extends` entry. -/
def extendsLine : Option Bytes → Bytes
  | some entry => ascii "  /Extends " ++ entry ++ [0x0a]
  | none => []

/-- `emit_objstm`. -/
def emitObjstm (input : Bytes) (firstMarkerStart endstreamKw : ℕ) (members : List ObjStmMember)
    (extendsEntry : Option Bytes) : Fix Bytes := do
  let member ← index members 0
  let offsets ← offsetLines member.bodyStart members
  let markerLen ← sub member.bodyStart firstMarkerStart
  let contentLen ← sub endstreamKw firstMarkerStart
  let content ← sliceBetween input firstMarkerStart endstreamKw
  return ascii "  /Length " ++ natDecimal (offsets.length + contentLen) ++ ascii "\n  /N " ++
    natDecimal members.length ++ ascii "\n  /First " ++ natDecimal (offsets.length + markerLen) ++
    [0x0a] ++ extendsLine extendsEntry ++ ascii ">>\nstream\n" ++ offsets ++ content

/-- One line of the dictionary of a cross-reference stream. -/
def xrefDictLine (input : Bytes) (contentStart size : ℕ) (s : ℕ × Bytes) : Fix ((ℕ × Bytes) ⊕ Bytes) :=
  let (lineStart, out) := s
  if lineStart < contentStart then do
    let lineEnd := min (← lineEndAfter input lineStart) contentStart
    let line ← sliceBetween input lineStart lineEnd
    if (findSubslice line (ascii "/Length")).isSome || (findSubslice line (ascii "/W")).isSome then
      return .inl (lineEnd, out)
    else if (findSubslice line (ascii "/Size")).isSome then
      return .inl (lineEnd, out ++ ascii "  /Size " ++ natDecimal size ++ [0x0a])
    else return .inl (lineEnd, out ++ line)
  else return .inr out

/-- One row of a cross-reference stream. -/
def xrefRow (width1 width2 : ℕ) : XrefEntry → Bytes
  | .uncompressed offset => writeBinary 1 1 ++ writeBinary offset width1 ++ writeBinary 0 width2
  | .compressed stream i => writeBinary 2 1 ++ writeBinary stream width1 ++ writeBinary i width2
  | .free _ => []

/-- The largest index of a member. -/
def maxIndex (entries : List XrefEntry) : ℕ :=
  (entries.filterMap fun
    | .compressed _ i => some i
    | _ => none).foldl max 0

/-- `emit_xref_stream`. -/
def emitXrefStream (input : Bytes) (typeLineEnd contentStart : ℕ) (entries : List XrefEntry)
    (size thisOffset : ℕ) : Fix Bytes := do
  let width1 ← byteWidth thisOffset
  let width2 := max (← byteWidth (maxIndex entries)) 1
  let dict ← loop (xrefDictLine input contentStart size) (input.length + 1) (typeLineEnd, [])
  return ascii "  /Length " ++ natDecimal ((1 + entries.length) * (1 + width1 + width2)) ++
    ascii "\n  /W [ 1 " ++ natDecimal width1 ++ [0x20] ++ natDecimal width2 ++ ascii " ]\n" ++ dict ++
    writeBinary 0 1 ++ writeBinary 0 width1 ++ writeBinary 0 width2 ++
    entries.flatMap (xrefRow width1 width2) ++ ascii "\nendstream\nendobj\n\nstartxref\n" ++
    natDecimal thisOffset ++ ascii "\n%%EOF\n"

/-- What is written so far: the bytes, the offsets of the objects and all entries. -/
structure Output where
  out : Bytes
  newOffsets : List (ℕ × ℕ × ℕ) := []
  entries : List XrefEntry := []

/-- An object that is not changed but for the length it holds. -/
def emitPlain (input : Bytes) (object : ObjectSpan) (newLen : Option (ℕ × ℕ × ℕ)) : Fix Bytes :=
  match newLen with
  | some (newLen, integerStart, integerEnd) => do
    let before ← sliceBetween input object.objLineStart integerStart
    let after ← sliceBetween input integerEnd object.endPos
    return before ++ natDecimal newLen ++ [0x0a] ++ after
  | none => sliceBetween input object.objLineStart object.endPos

/-- The copy of one object; a cross-reference stream ends the file. -/
def emitObject (input : Bytes) (size : ℕ) (o : Output) (object : ObjectSpan)
    (newLen : Option (ℕ × ℕ × ℕ)) : Fix (Output ⊕ Bytes) := do
  let thisOffset := o.out.length
  let newOffsets := o.newOffsets ++ [(object.num, object.gen, thisOffset)]
  let entries := o.entries ++ [.uncompressed thisOffset]
  match object.body with
  | .plain .. =>
    let text ← emitPlain input object newLen
    return .inl ⟨o.out ++ text, newOffsets, entries⟩
  | .objStm typeLineEnd firstMarkerStart endstreamKw members extendsEntry =>
    let header ← sliceBetween input object.objLineStart typeLineEnd
    let stream ← emitObjstm input firstMarkerStart endstreamKw members extendsEntry
    let rest ← sliceBetween input endstreamKw object.endPos
    return .inl ⟨o.out ++ header ++ stream ++ rest, newOffsets,
      entries ++ (List.range members.length).map fun i => .compressed object.num i⟩
  | .xrefStream typeLineEnd contentStart =>
    let header ← sliceBetween input object.objLineStart typeLineEnd
    let stream ← emitXrefStream input typeLineEnd contentStart entries size thisOffset
    return .inr (o.out ++ header ++ stream)

/-- What stands in front of an object, behind the one before it. -/
def gapBefore (input : Bytes) (lineStart : ℕ) : Option ℕ → Fix Bytes
  | some previousEnd => sliceBetween input previousEnd lineStart
  | none => return []

/-- The objects, each behind what stands between it and the one in front. -/
def emitObjects (input : Bytes) (size : ℕ) :
    Option ℕ → List (ObjectSpan × Option (ℕ × ℕ × ℕ)) → Output → Fix (Output ⊕ Bytes)
  | _, [], o => return .inl o
  | previousEnd, (object, newLen) :: objects, o => do
    let gap ← gapBefore input object.objLineStart previousEnd
    match ← emitObject input size { o with out := o.out ++ gap } object newLen with
    | .inr out => return .inr out
    | .inl o => emitObjects input size (some object.endPos) objects o

def isAsciiWhitespace (b : UInt8) : Bool :=
  b == 0x09 || b == 0x0a || b == 0x0c || b == 0x0d || b == 0x20

/-- `rewrite_size`. -/
def rewriteSize (trailer : Bytes) (size : ℕ) : Fix Bytes := do
  match ← findNameToken trailer (ascii "/Size") with
  | none => return trailer
  | some pos =>
    let before ← sliceBetween trailer 0 (pos + (ascii "/Size").length)
    let rest ← sliceFrom trailer (pos + (ascii "/Size").length)
    let ws := (rest.takeWhile isAsciiWhitespace).length
    let afterWs ← sliceFrom rest ws
    let digits := (afterWs.takeWhile isAsciiDigit).length
    let space ← sliceBetween rest 0 ws
    let after ← sliceFrom rest (ws + digits)
    return before ++ space ++ natDecimal size ++ after

/-- A needle behind a position. -/
def findBehind (input : Bytes) (start : ℕ) (needle : String) (message : String) : Fix ℕ := do
  match findSubslice (← sliceFrom input start) (ascii needle) with
  | some off => return start + off
  | none => parseError start message

/-- The `xref` line that is written again. -/
def tailXref (input : Bytes) (lastEnd : ℕ) : Option ℕ → Fix (Option ℕ)
  | some xrefPos => return some xrefPos
  | none => findLineKeywordFrom input (ascii "xref") lastEnd

/-- The cross-reference table, the trailer and the end of the file. -/
def emitTail (input : Bytes) (lastEnd size : ℕ) (recognizedXref : Option ℕ) (o : Output) :
    Fix Bytes := do
  match ← tailXref input lastEnd recognizedXref with
  | none => parseError lastEnd "fix_qdf: no classic `xref` table found"
  | some xrefPos =>
    let out := o.out ++ (← sliceBetween input lastEnd xrefPos)
    let startxrefValue := out.length
    let rows := o.newOffsets.flatMap fun (_, gen, off) =>
      padDecimal 10 off ++ [0x20] ++ padDecimal 5 gen ++ ascii " n \n"
    let trailerKw ← findBehind input xrefPos "trailer" "fix_qdf: no `trailer` keyword"
    let dictOpen ← findBehind input trailerKw "<<" "fix_qdf: trailer has no dictionary"
    match ← findMatchingDictClose input dictOpen with
    | none => parseError dictOpen "fix_qdf: unterminated trailer dictionary"
    | some dictClose =>
      let trailerDict ← sliceBetween input trailerKw (dictClose + 2)
      let rewrittenTrailer ← rewriteSize trailerDict size
      let startxrefKw ← findBehind input (dictClose + 2) "startxref"
        "fix_qdf: no `startxref` keyword"
      let gap ← sliceBetween input (dictClose + 2) startxrefKw
      let _ ← findBehind input startxrefKw "%%EOF" "fix_qdf: no `%%EOF` marker"
      return out ++ ascii "xref\n0 " ++ natDecimal size ++ ascii "\n0000000000 65535 f \n" ++ rows ++
        rewrittenTrailer ++ gap ++ ascii "startxref\n" ++ natDecimal startxrefValue ++
        ascii "\n%%EOF\n"

/-- The last object has a stream whose length stands nowhere. -/
def ScanState.endsWithStream (s : ScanState) : Bool :=
  match s.objects.getLast?.map ObjectSpan.body with
  | some (.plain (some _) _ _) => true
  | _ => false

/-- The output behind the objects. -/
def emitEnd (input : Bytes) (s : ScanState) (lastEnd : ℕ) (recognizedXref : Option ℕ)
    (o : Output) : Fix Bytes := do
  if s.endsWithStream || (s.resumedAfterTail && recognizedXref.isNone) then
    return o.out ++ (← sliceFrom input lastEnd)
  else emitTail input lastEnd (s.lastObj + 1) recognizedXref o

/-- Where the first object begins; without an object the `xref` line. -/
def firstObjStart (input : Bytes) (objects : List ObjectSpan) : Fix ℕ := do
  match objects.head? with
  | some object => return object.objLineStart
  | none =>
    match ← findQpdfXrefLineFrom input 0 with
    | some lineStart => return lineStart
    | none => parseError 0 "fix_qdf: no objects found before xref"

def fixQdf (input : Bytes) : Fix Bytes := do
  let s ← scan input
  let start ← firstObjStart input s.objects
  let lastEnd := (s.objects.getLast?.map ObjectSpan.endPos).getD start
  let recognizedXref ← findQpdfXrefLineFrom input lastEnd
  if !(s.resumedAfterTail && recognizedXref.isNone) && !s.isXrefStreamForm &&
      s.objects.any fun object => object.body.isObjStm then
    .error (.error (.unsupported (ascii ("fix_qdf: an object stream (/Type /ObjStm) in a file whose " ++
      "tail is a classic `xref` table (rather than a cross-reference stream) is not supported"))))
  else
    let objects ← countMarkers input s.objects
    let holders ← lengthHolders input none objects
    let out ← sliceBetween input 0 start
    match ← emitObjects input (s.lastObj + 1) none holders { out := out } with
    | .inr out => return out
    | .inl o => emitEnd input s lastEnd recognizedXref o

end QdfFix

end Flpdf
