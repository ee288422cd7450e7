import Flpdf.Bytes.Decimal
import Flpdf.Effects.Checked

/-!
# The scanners of `fix_qdf`

Every helper that looks for a line, a keyword or a name in the bytes of a file,
with the slices and the loops of the source. Lines end at LF; a keyword may also
begin behind a CR.
-/

namespace Flpdf

/-- The errors of `fix_qdf`. -/
inductive QdfError where
  | parse (offset : ℕ) (message : Bytes)
  | unsupported (message : Bytes)
  deriving DecidableEq, Repr

namespace QdfFix

open Checked

abbrev Fix (α : Type) := Checked QdfError α

def parseError {α : Type} (offset : ℕ) (message : String) : Fix α :=
  .error (.error (.parse offset (ascii message)))

/-- `memchr_nl`. -/
def memchrNl (buf : Bytes) (start : ℕ) : Fix (Option ℕ) := do
  let rest ← sliceFrom buf start
  return (rest.findIdx? (· == 0x0a)).map (start + ·)

/-- The first window that is the needle. -/
def findWindow (needle : Bytes) : Bytes → Option ℕ
  | [] => none
  | b :: hay =>
    if needle.isPrefixOf (b :: hay) then some 0 else (findWindow needle hay).map (· + 1)

def findSubslice (hay needle : Bytes) : Option ℕ :=
  if needle = [] ∨ hay.length < needle.length then none else findWindow needle hay

/-- The bytes in front of a suffix. -/
def stripSuffix (suffix line : Bytes) : Option Bytes :=
  if suffix.isSuffixOf line then some (line.take (line.length - suffix.length)) else none

/-- The bytes behind a prefix. -/
def stripPrefix (start line : Bytes) : Option Bytes :=
  if start.isPrefixOf line then some (line.drop start.length) else none

/-- Digits as an `u32`. -/
def parseU32 (digits : Bytes) : Option ℕ :=
  if decimalValue digits < 2 ^ 32 then some (decimalValue digits) else none

/-- The number, the generation and the length of an `N 0 obj` line without its LF. -/
def parseObjHeader (line : Bytes) : Option (ℕ × ℕ × ℕ) := do
  let number ← stripSuffix (ascii " 0 obj") line
  if number.isEmpty || !number.all isAsciiDigit then none
  else
    let num ← parseU32 number
    return (num, 0, line.length)

def isXrefKeywordLine (input : Bytes) (lineStart : ℕ) : Fix Bool := do
  let rest ← sliceFrom input lineStart
  return (ascii "xref\n").isPrefixOf rest

/-- The `xref` line ends the search in the state for objects only. -/
def stopsAt (input : Bytes) (stopAtXref : Bool) (lineStart : ℕ) : Fix Bool :=
  if stopAtXref then isXrefKeywordLine input lineStart else return false

/-- One line of `find_next_obj`. -/
def nextObjLine (input : Bytes) (stopAtXref : Bool) (lineStart : ℕ) :
    Fix (ℕ ⊕ Option (ℕ × ℕ × ℕ × ℕ)) :=
  if lineStart < input.length then do
    let lineEnd := (← memchrNl input lineStart).getD input.length
    let line ← sliceBetween input lineStart lineEnd
    match if lineEnd < input.length then parseObjHeader line else none with
    | some (num, gen, kwEnd) => return .inr (some (num, gen, lineStart, lineStart + kwEnd))
    | none =>
      if ← stopsAt input stopAtXref lineStart then return .inr none
      else if input.length ≤ lineEnd then return .inr none
      else return .inl (lineEnd + 1)
  else return .inr none

/-- `find_next_obj`: number, generation, start of the line and end of the keyword. -/
def findNextObj (input : Bytes) (start : ℕ) (stopAtXref : Bool) : Fix (Option (ℕ × ℕ × ℕ × ℕ)) :=
  loop (nextObjLine input stopAtXref) (input.length + 1) start

/-- One line of `find_qpdf_xref_line_from`. -/
def xrefLine (input : Bytes) (lineStart : ℕ) : Fix (ℕ ⊕ Option ℕ) :=
  if lineStart < input.length then do
    if ← isXrefKeywordLine input lineStart then return .inr (some lineStart)
    else
      match ← memchrNl input lineStart with
      | some lineEnd => return .inl (lineEnd + 1)
      | none => return .inr none
  else return .inr none

def findQpdfXrefLineFrom (input : Bytes) (start : ℕ) : Fix (Option ℕ) :=
  loop (xrefLine input) (input.length + 1) start

/-- A keyword begins a line behind LF or CR. -/
def atLineStart (input : Bytes) (i : ℕ) : Fix Bool :=
  if i = 0 then return true
  else do
    let before ← index input (i - 1)
    return before == 0x0a || before == 0x0d

/-- One position of `find_line_keyword_from`. -/
def lineKeyword (input kw : Bytes) (i : ℕ) : Fix (ℕ ⊕ Option ℕ) :=
  if i + kw.length ≤ input.length then do
    let window ← sliceBetween input i (i + kw.length)
    if window = kw then
      let afterOk := match input[i + kw.length]? with
        | none => true
        | some c => c == 0x0a || c == 0x0d || c == 0x20 || c == 0x09
      if (← atLineStart input i) && afterOk then return .inr (some i) else return .inl (i + 1)
    else return .inl (i + 1)
  else return .inr none

def findLineKeywordFrom (input kw : Bytes) (start : ℕ) : Fix (Option ℕ) :=
  loop (lineKeyword input kw) (input.length + 1) start

/-! ## Object syntax -/

/-- `while` the bytes from `i` on satisfy `p`. -/
def skipWhile (p : UInt8 → Bool) (input : Bytes) (i : ℕ) : Fix ℕ :=
  loop (fun (i : ℕ) => match input[i]? with
    | some b => return if p b then .inl (i + 1) else .inr i
    | none => return .inr i) (input.length + 1) i

/-- To the end of a comment. -/
def skipComment (input : Bytes) (i : ℕ) : Fix ℕ :=
  skipWhile (fun b => b != 0x0a && b != 0x0d) input i

/-- Over the `>` of a hex string. -/
def skipHexString (input : Bytes) (i : ℕ) : Fix ℕ := do
  return (← skipWhile (· != 0x3e) input (i + 1)) + 1

/-- One byte of a literal string; the state is the position and the depth. -/
def literalByte (input : Bytes) (s : ℕ × ℕ) : Fix ((ℕ × ℕ) ⊕ ℕ) :=
  let (i, depth) := s
  if i < input.length ∧ 0 < depth then do
    let b ← index input i
    if b = 0x5c then return .inl (i + 2, depth)
    else if b = 0x28 then return .inl (i + 1, depth + 1)
    else if b = 0x29 then return .inl (i + 1, ← sub depth 1)
    else return .inl (i + 1, depth)
  else return .inr i

def skipLiteralString (input : Bytes) (i : ℕ) : Fix ℕ :=
  loop (literalByte input) (input.length + 1) (i + 1, 1)

/-- One turn of `find_matching_dict_close`; the state is the position and the depth. -/
def dictCloseTurn (input : Bytes) (s : ℕ × ℕ) : Fix ((ℕ × ℕ) ⊕ Option ℕ) :=
  let (i, depth) := s
  if i < input.length then do
    let b ← index input i
    if b = 0x25 then return .inl (← skipComment input i, depth)
    else if b = 0x3c ∧ input[i + 1]? = some 0x3c then return .inl (i + 2, depth + 1)
    else if b = 0x3e ∧ input[i + 1]? = some 0x3e then
      let depth ← sub depth 1
      if depth = 0 then return .inr (some i) else return .inl (i + 2, depth)
    else if b = 0x3c then return .inl (← skipHexString input i, depth)
    else if b = 0x28 then return .inl (← skipLiteralString input i, depth)
    else return .inl (i + 1, depth)
  else return .inr none

/-- `find_matching_dict_close`, from the `<<` at `start`. -/
def findMatchingDictClose (input : Bytes) (start : ℕ) : Fix (Option ℕ) :=
  loop (dictCloseTurn input) (input.length + 1) (start, 0)

/-- One turn of `find_name_token_from`. -/
def nameTokenTurn (hay name : Bytes) (i : ℕ) : Fix (ℕ ⊕ Option ℕ) :=
  if i < hay.length then do
    let b ← index hay i
    if b = 0x25 then return .inl (← skipComment hay i)
    else if b = 0x3c ∧ hay[i + 1]? = some 0x3c then return .inl (i + 2)
    else if b = 0x3e ∧ hay[i + 1]? = some 0x3e then return .inl (i + 2)
    else if b = 0x3c then return .inl (← skipHexString hay i)
    else if b = 0x28 then return .inl (← skipLiteralString hay i)
    else if b = 0x2f then
      let rest ← sliceFrom hay i
      if name.isPrefixOf rest ∧ (hay[i + name.length]?).all isTokenDelimiter then
        return .inr (some i)
      else return .inl (i + 1)
    else return .inl (i + 1)
  else return .inr none

def findNameToken (hay name : Bytes) : Fix (Option ℕ) :=
  loop (nameTokenTurn hay name) (hay.length + 1) 0

/-! ## Lines of an object -/

/-- `line_end_after`. -/
def lineEndAfter (input : Bytes) (pos : ℕ) : Fix ℕ := do
  return ((← memchrNl input pos).map (· + 1)).getD input.length

/-- One line of `find_raw_type_line`. -/
def rawTypeLine (dict needle : Bytes) (lineStart : ℕ) : Fix (ℕ ⊕ Option ℕ) :=
  if lineStart < dict.length then do
    let lineEnd ← lineEndAfter dict lineStart
    let line ← sliceBetween dict lineStart lineEnd
    match findSubslice line needle with
    | some off => return .inr (some (lineStart + off))
    | none => return .inl lineEnd
  else return .inr none

def findRawTypeLine (dict needle : Bytes) : Fix (Option ℕ) :=
  loop (rawTypeLine dict needle) (dict.length + 1) 0

/-- A member of an object stream: its number and where its body begins. -/
structure ObjStmMember where
  num : ℕ
  bodyStart : ℕ
  deriving DecidableEq, Repr

/-- The number of a marker line. -/
def parseOstreamMarker (line : Bytes) : Option ℕ := do
  let rest ← stripPrefix (ascii "%% Object stream: object ") line
  let digits := rest.takeWhile isAsciiDigit
  if digits.isEmpty then none else parseU32 digits

/-- One line of `scan_objstm_members`; the state has the first marker and the members. -/
def memberLine (input : Bytes) (endstreamKw : ℕ) (s : ℕ × Option ℕ × List ObjStmMember) :
    Fix ((ℕ × Option ℕ × List ObjStmMember) ⊕ Option (ℕ × List ObjStmMember)) :=
  let (lineStart, first, members) := s
  if lineStart < endstreamKw then do
    let lineEnd := min (← lineEndAfter input lineStart) endstreamKw
    let line ← sliceBetween input lineStart lineEnd
    match parseOstreamMarker line with
    | some num => return .inl (lineEnd, some (first.getD lineStart), members ++ [⟨num, lineEnd⟩])
    | none => return .inl (lineEnd, first, members)
  else return .inr (first.map fun start => (start, members))

def scanObjstmMembers (input : Bytes) (contentStart endstreamKw : ℕ) :
    Fix (Option (ℕ × List ObjStmMember)) :=
  loop (memberLine input endstreamKw) (input.length + 1) (contentStart, none, [])

/-- `find_extends`. -/
def findExtends (region : Bytes) : Fix (Option Bytes) :=
  match findSubslice region (ascii "/Extends ") with
  | none => return none
  | some pos => do
    let rest ← sliceFrom region (pos + (ascii "/Extends ").length)
    let digits := (rest.takeWhile isAsciiDigit).length
    if digits = 0 then return none
    else
      let afterDigits ← sliceFrom rest digits
      if (ascii " 0 R").isPrefixOf afterDigits then
        return some (← sliceBetween rest 0 (digits + (ascii " 0 R").length))
      else return none

/-- The line of bare digits that begins at a position. -/
def qpdfBareIntegerLineRangeAt (input : Bytes) (integerStart : ℕ) : Fix (Option (ℕ × ℕ)) := do
  match ← memchrNl input integerStart with
  | none => return none
  | some integerEnd =>
    let integer ← sliceBetween input integerStart integerEnd
    if integer.isEmpty || !integer.all isAsciiDigit then return none
    else return some (integerStart, integerEnd + 1)

/-- The lines of a text, each with its LF. -/
def splitInclusive : Bytes → Bytes → List Bytes
  | line, [] => if line = [] then [] else [line.reverse]
  | line, b :: rest =>
    if b = 0x0a then (b :: line).reverse :: splitInclusive [] rest
    else splitInclusive (b :: line) rest

def ignoreNewlineMarkerCount (separator : Bytes) : ℕ :=
  (splitInclusive [] separator).countP (· == ascii "%QDF: ignore_newline\n")

end QdfFix

end Flpdf
