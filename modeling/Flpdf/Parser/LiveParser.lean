import Flpdf.Bytes.Integers
import Flpdf.Collections.SortedMap
import Flpdf.Object.Value
import Flpdf.Tokenizer.Machine

/-!
# The file-object parser

`LiveFileParser` for file objects, without a decrypter: open containers are
frames, and at most two integers are held back until it is known whether an `R`
follows. Parsed offsets are left out; the offsets of warnings are kept.
-/

namespace Flpdf

inductive ParseError where
  | parse (offset : ℕ) (message : Bytes)
  | system (message : Bytes)
  | internal (message : Bytes)
  | qpdfExc (offset : ℕ) (message : Bytes)
  deriving DecidableEq, Repr

structure PendingInteger where
  value : ℤ
  start : ℕ
  deriving DecidableEq, Repr

/-- An open container. -/
inductive LiveFrame where
  | array (values : List ObjectValue)
  | dictionary (values : List (Bytes × ObjectValue)) (orphanValues : List ObjectValue)
      (pendingKey : Option Bytes) (frameOffset : ℕ)

/-- The parser; the two slots of the integer ring are the one of the even and
the one of the odd counts. -/
structure LiveParser where
  tokens : Tokenizer
  lastOffset : ℕ := 0
  integerCount : ℕ := 0
  evenInteger : Option PendingInteger := none
  oddInteger : Option PendingInteger := none
  diagnostics : List (ℕ × Bytes) := []
  goodCount : ℕ := 0
  badCount : ℕ := 0
  giveUp : Bool := false
  hasContext : Bool

def maxParseDepth : ℕ := 500

/-- `parse_integer_bytes`. -/
def parseIntegerBytes (raw : Bytes) (offset : ℕ) : Except ParseError ℤ :=
  if isIntText raw then
    if -2 ^ 63 ≤ intValue raw ∧ intValue raw < 2 ^ 63 then .ok (intValue raw)
    else .error (.system (longLongOverflowMessage raw))
  else .error (.parse offset (ascii "invalid integer"))

/-- `qpdf_int`. -/
def qpdfInt (integer : PendingInteger) : Except ParseError ℤ :=
  match qpdfI64ToIntChecked integer.value with
  | .ok value => .ok value
  | .error message => .error (.parse integer.start message)

namespace LiveParser

/-- A warning is an error where no document can receive it. -/
def warn (p : LiveParser) (offset : ℕ) (message : Bytes) : Except ParseError LiveParser :=
  if p.hasContext then .ok { p with diagnostics := p.diagnostics ++ [(offset, message)] }
  else .error (.qpdfExc offset message)

/-- `next_live_token`: integers are converted as they are read. -/
def nextLiveToken (p : LiveParser) : Except ParseError (Token × LiveParser) :=
  match p.tokens.readQpdfToken 0 with
  | (.error (offset, message), _) => .error (.parse offset message)
  | (.ok token, tokens) =>
    let p := { p with tokens := tokens, lastOffset := token.start }
    if token.isInteger then (parseIntegerBytes token.raw token.start).map fun _ => (token, p)
    else .ok (token, p)

def nextToken (p : LiveParser) : Except ParseError (Token × LiveParser) := do
  let (token, p) ← p.nextLiveToken
  match token.errorMessage with
  | some message =>
    let p ← p.warn token.start message
    return (token, p)
  | none => return (token, p)

def tooManyBadTokens (p : LiveParser) (offset : ℕ) : Except ParseError LiveParser := do
  if p.goodCount ≤ 4 then
    let p := { p with badCount := p.badCount + 1 }
    if p.badCount > 5 then
      let p ← p.warn offset (ascii "too many errors; giving up on reading object")
      return { p with giveUp := true, goodCount := 0 }
    else return { p with goodCount := 0 }
  else return { p with badCount := 1, goodCount := 0 }

/-- A token that stands for null after a warning. -/
def unexpected (p : LiveParser) (offset : ℕ) (message : Bytes) :
    Except ParseError (ObjectValue × LiveParser) := do
  let p ← p.warn offset message
  let p ← p.tooManyBadTokens offset
  return (.null, p)

def parseScalarToken (p : LiveParser) (token : Token) : Except ParseError (ObjectValue × LiveParser) :=
  match token.tokenType with
  | .integer => .ok (.integer (intValue token.raw), p)
  | .name => .ok (.name (token.value.drop 1), p)
  | .string => .ok (.string token.value, p)
  | .bool => .ok (.boolean (token.value == ascii "true"), p)
  | .null => .ok (.null, p)
  | .real => .ok (.real token.value, p)
  | .word => do
    let p ← p.warn token.start (ascii "unknown token while reading object; treating as string")
    let p ← p.tooManyBadTokens token.start
    return (.string token.value, p)
  | .bad => do
    let p ← p.tooManyBadTokens token.start
    return (.null, p)
  | .braceOpen | .braceClose =>
    p.unexpected token.start (ascii "treating unexpected brace token as null")
  | .arrayClose => p.unexpected token.start (ascii "treating unexpected array close token as null")
  | .dictClose => p.unexpected token.start (ascii "unexpected dictionary close token")
  | .eof => do
    let p ← p.warn token.start (ascii "unexpected EOF")
    return (.null, p)
  | .space | .comment | .inlineImage =>
    p.unexpected token.start (ascii "treating unknown token type as null while reading object")
  | .dictOpen | .arrayOpen => .error (.internal (ascii "frame loop"))

/-! ## Frames -/

/-- A value for a key; an earlier one of the same key is lost. -/
def insertDictionaryValue (p : LiveParser) (values : List (Bytes × ObjectValue)) (key : Bytes)
    (value : ObjectValue) (offset : ℕ) :
    Except ParseError (List (Bytes × ObjectValue) × LiveParser) := do
  let inserted := insertSorted key value values
  if (values.lookup key).isSome then
    let p ← p.warn offset (ascii "dictionary has duplicated key " ++ key ++
      ascii "; last occurrence overrides earlier ones")
    return (inserted, p)
  else return (inserted, p)

def addToFrame (p : LiveParser) (frame : LiveFrame) (value : ObjectValue) :
    Except ParseError (LiveFrame × LiveParser) :=
  match frame with
  | .array values => .ok (.array (values ++ [value]), p)
  | .dictionary values orphanValues (some key) frameOffset => do
    let (values, p) ← p.insertDictionaryValue values key value frameOffset
    return (.dictionary values orphanValues none frameOffset, p)
  | .dictionary values orphanValues none frameOffset =>
    .ok (.dictionary values (orphanValues ++ [value]) none frameOffset, p)

def addToTopFrame (p : LiveParser) (frames : List LiveFrame) (value : ObjectValue) :
    Except ParseError (List LiveFrame × LiveParser) :=
  match frames with
  | [] => .error (.internal (ascii "live parser has an open frame"))
  | frame :: frames => do
    let (frame, p) ← p.addToFrame frame value
    return (frame :: frames, p)

/-- `push_frame`; the parser gives up on the container that is too deep. -/
def pushFrame (p : LiveParser) (frames : List LiveFrame) (token : Token) :
    Except ParseError (Option (List LiveFrame) × LiveParser) :=
  if maxParseDepth ≤ frames.length then do
    let p ← p.warn token.start (ascii "ignoring excessively deeply nested data structure")
    return (none, { p with giveUp := true })
  else if token.tokenType = .arrayOpen then .ok (some (.array [] :: frames), p)
  else .ok (some (.dictionary [] [] none token.endPos :: frames), p)

/-- The first free number for a key of its own for an orphaned value. -/
def fakeKey (taken : Bytes → Bool) : ℕ → ℕ → Bytes × ℕ
  | 0, fake => (ascii s!"/QPDFFake{fake}", fake + 1)
  | fuel + 1, fake =>
    if taken (ascii s!"/QPDFFake{fake}") then fakeKey taken fuel (fake + 1)
    else (ascii s!"/QPDFFake{fake}", fake + 1)

/-- The orphaned values go under keys of their own, one after the other. -/
def insertOrphans (orphanNames : List Bytes) (frameOffset : ℕ) :
    List ObjectValue → ℕ → List (Bytes × ObjectValue) → LiveParser →
      Except ParseError (List (Bytes × ObjectValue) × LiveParser)
  | [], _, values, p => .ok (values, p)
  | value :: orphanValues, fake, values, p => do
    let taken := fun key => (values.lookup key).isSome || orphanNames.contains key
    let (key, fake) := fakeKey taken (values.length + orphanNames.length) fake
    let p ← p.warn frameOffset
      (ascii "expected dictionary key but found non-name object; inserting key " ++ key)
    insertOrphans orphanNames frameOffset orphanValues fake (insertSorted key value values) p

/-- The name of a name object. -/
def asName : ObjectValue → Option Bytes
  | .name value => some value
  | _ => none

def finishDictionary (p : LiveParser) (values : List (Bytes × ObjectValue))
    (orphanValues : List ObjectValue) (pendingKey : Option Bytes) (frameOffset : ℕ) :
    Except ParseError (ObjectValue × LiveParser) := do
  let (values, p) ← (match pendingKey with
    | some key => do
      let p ← p.warn frameOffset
        (ascii "dictionary ended prematurely; using null as value for last key")
      return (insertSorted key .null values, p)
    | none => return (values, p) : Except ParseError (List (Bytes × ObjectValue) × LiveParser))
  let orphanNames := (orphanValues.filterMap asName).map (0x2f :: ·)
  let (values, p) ← insertOrphans orphanNames frameOffset orphanValues 1 values p
  return (.dictionary values, p)

/-! ## Integers -/

def integerAt (p : LiveParser) (count : ℕ) : Option PendingInteger :=
  if count % 2 = 0 then p.evenInteger else p.oddInteger

def setInteger (p : LiveParser) (count : ℕ) (integer : Option PendingInteger) : LiveParser :=
  if count % 2 = 0 then { p with evenInteger := integer } else { p with oddInteger := integer }

/-- The integer of a slot, which is empty afterwards. -/
def takeInteger (p : LiveParser) (count : ℕ) : Except ParseError (PendingInteger × LiveParser) :=
  match p.integerAt count with
  | some integer => .ok (integer, p.setInteger count none)
  | none => .error (.internal (ascii "qpdf integer ring contains the oldest candidate"))

def addPendingInteger (p : LiveParser) (integer : PendingInteger) (frames : List LiveFrame) :
    Except ParseError (List LiveFrame × LiveParser) :=
  p.addToTopFrame frames (.integer integer.value)

def bufferInteger (p : LiveParser) (integer : PendingInteger) (frames : List LiveFrame) :
    Except ParseError (List LiveFrame × LiveParser) := do
  let count := p.integerCount + 1
  let p := { p with integerCount := count }
  if count > 2 then
    let (oldest, p) ← p.takeInteger count
    let (frames, p) ← p.addPendingInteger oldest frames
    return (frames, p.setInteger count (some integer))
  else return (frames, p.setInteger count (some integer))

/-- The older of two pending integers. -/
def firstIndex (count : ℕ) : ℕ := if count = 2 then 1 else count + 1

def flushIntegerBuffer (p : LiveParser) (frames : List LiveFrame) :
    Except ParseError (List LiveFrame × LiveParser) := do
  if p.integerCount = 0 then return (frames, p)
  else if p.integerCount = 1 then
    let (integer, p) ← p.takeInteger 1
    let (frames, p) ← p.addPendingInteger integer frames
    return (frames, { p with integerCount := 0 })
  else
    let count := p.integerCount
    let (first, p) ← p.takeInteger (firstIndex count)
    let (second, p) ← p.takeInteger count
    let (frames, p) ← p.addPendingInteger first frames
    let (frames, p) ← p.addPendingInteger second frames
    return (frames, { p with integerCount := 0 })

def finishIntegerReference (p : LiveParser) (frames : List LiveFrame) :
    Except ParseError (List LiveFrame × LiveParser) := do
  let count := p.integerCount
  let (first, p) ← p.takeInteger (firstIndex count)
  let (second, p) ← p.takeInteger count
  let p := { p with integerCount := 0 }
  if p.hasContext then
    let number ← qpdfInt first
    let generation ← qpdfInt second
    let value : ObjectValue :=
      if 1 ≤ number ∧ 0 ≤ generation ∧ generation < 65535 then .indirect ⟨number, generation⟩
      else .null
    p.addToTopFrame frames value
  else
    throw (.internal
      (ascii "QPDFParser::parse called without context on an object with indirect references"))

/-! ## The loop -/

/-- A completed container goes to its parent, or is the result. -/
def complete (p : LiveParser) (frames : List LiveFrame) (value : ObjectValue) :
    Except ParseError (List LiveFrame × LiveParser × Option ObjectValue) :=
  match frames with
  | [] => .ok ([], p, some value)
  | frames => do
    let (frames, p) ← p.addToTopFrame frames value
    return (frames, p, if p.giveUp then some .null else none)

/-- A scalar goes to the top frame; the parser may give up on it. -/
def addScalar (p : LiveParser) (frames : List LiveFrame) (token : Token) :
    Except ParseError (List LiveFrame × LiveParser × Option ObjectValue) := do
  let (value, p) ← p.parseScalarToken token
  if p.giveUp then return (frames, p, some .null)
  else
    let (frames, p) ← p.addToTopFrame frames value
    return (frames, p, if p.giveUp then some .null else none)

/-- The match on the type of a token that is no part of a reference. -/
def dispatch (p : LiveParser) (frames : List LiveFrame) (token : Token) :
    Except ParseError (List LiveFrame × LiveParser × Option ObjectValue) :=
  match token.tokenType, frames with
  | .arrayOpen, frames | .dictOpen, frames => do
    let (pushed, p) ← p.pushFrame frames token
    match pushed with
    | some frames => return (frames, p, if p.giveUp then some .null else none)
    | none => return (frames, p, some .null)
  | .arrayClose, .array values :: frames => p.complete frames (.array values)
  | .dictClose, .dictionary values orphanValues pendingKey frameOffset :: frames => do
    let (value, p) ← p.finishDictionary values orphanValues pendingKey frameOffset
    p.complete frames value
  | .eof, frames => do
    let p ← p.warn token.start (ascii "parse error while reading object")
    let p ← p.warn token.start (ascii "unexpected EOF")
    return (frames, p, some .null)
  | .name, .dictionary values orphanValues none frameOffset :: frames =>
    .ok (.dictionary values orphanValues (some token.value) frameOffset :: frames, p, none)
  | _, frames => p.addScalar frames token

/-- One turn of `parse_remainder`; a result ends the loop. -/
def remainderTurn (p : LiveParser) (frames : List LiveFrame) :
    Except ParseError (List LiveFrame × LiveParser × Option ObjectValue) := do
  let (token, p) ← p.nextToken
  let p := { p with goodCount := p.goodCount + 1 }
  if token.isInteger then
    let (frames, p) ← p.bufferInteger ⟨intValue token.raw, token.start⟩ frames
    return (frames, p, none)
  else if 2 ≤ p.integerCount ∧ token.isWordValue (ascii "R") then
    let (frames, p) ← p.finishIntegerReference frames
    return (frames, p, none)
  else
    let (frames, p) ← p.flushIntegerBuffer frames
    p.dispatch frames token

/-- `parse_remainder`; `none` when the fuel is used up. -/
def parseRemainder : ℕ → LiveParser → List LiveFrame →
    Option (Except ParseError (ObjectValue × LiveParser))
  | 0, _, _ => none
  | fuel + 1, p, frames =>
    match p.remainderTurn frames with
    | .error e => some (.error e)
    | .ok (_, p, some value) => some (.ok (value, p))
    | .ok (frames, p, none) => parseRemainder fuel p frames

/-- `parse_body`; every turn of the loop takes a byte or ends it. -/
def parseBody (p : LiveParser) : Option (Except ParseError (ObjectValue × LiveParser)) :=
  match p.nextToken with
  | .error e => some (.error e)
  | .ok (token, p) =>
    if token.isWordValue (ascii "endobj") then
      some (.ok (.null, { p with tokens := { p.tokens with pos := token.start } }))
    else if token.tokenType = .arrayOpen ∨ token.tokenType = .dictOpen then
      match p.pushFrame [] token with
      | .error e => some (.error e)
      | .ok (frames, p) => parseRemainder (p.tokens.input.length + 2) p (frames.getD [])
    else some (p.parseScalarToken token)

end LiveParser

/-- Whitespace of C's `isspace`. -/
def isCWhitespace (byte : UInt8) : Bool :=
  byte == 0x20 || byte == 0x09 || byte == 0x0a || byte == 0x0b || byte == 0x0c || byte == 0x0d

def trailingDataError (input : Bytes) (nextOffset lastOffset : ℕ) : Option ParseError :=
  if (input.drop nextOffset).all isCWhitespace then none
  else some (.parse lastOffset (ascii "trailing data found parsing object from string"))

/-- An object from a string and the warnings about it: `parse_with_context`
where `hasContext` is set, and `ObjectHandle::parse` where it is not. -/
def parseObject (hasContext : Bool) (input : Bytes) :
    Option (Except ParseError (ObjectValue × List (ℕ × Bytes))) :=
  (LiveParser.parseBody { tokens := { input := input }, hasContext := hasContext }).map fun outcome => do
    let (value, p) ← outcome
    match trailingDataError input p.tokens.pos p.lastOffset with
    | some e => throw e
    | none => return (value, p.diagnostics)

end Flpdf

/-! ## The content-stream parser

`LiveFileParser` with `content_stream` set. No integer is held back, as a
content stream has no references; a bare word is an operator; and the end of
the input leaves the object uninitialized, which is `none` here. -/

namespace Flpdf

namespace LiveParser

/-- `parse_scalar_token` in a content stream. -/
def parseContentToken (p : LiveParser) (token : Token) : Except ParseError (ObjectValue × LiveParser) :=
  if token.tokenType = .word then .ok (.operator token.value, p) else p.parseScalarToken token

/-- An operator goes to the top frame. -/
def addOperator (p : LiveParser) (frames : List LiveFrame) (token : Token) :
    Except ParseError (List LiveFrame × LiveParser × Option ObjectValue) := do
  let (value, p) ← p.parseContentToken token
  if p.giveUp then return (frames, p, some .null)
  else
    let (frames, p) ← p.addToTopFrame frames value
    return (frames, p, if p.giveUp then some .null else none)

/-- One turn of `parse_remainder` in either mode; a result ends the loop. -/
def turn (contentStream : Bool) (p : LiveParser) (frames : List LiveFrame) :
    Except ParseError (List LiveFrame × LiveParser × Option (Option ObjectValue)) :=
  if contentStream then do
    let (token, p) ← p.nextToken
    let p := { p with goodCount := p.goodCount + 1 }
    if token.tokenType = .eof then
      let p ← p.warn token.start (ascii "parse error while reading object")
      return (frames, p, some none)
    else
      let (frames, p, value) ←
        if token.tokenType = .word then p.addOperator frames token else p.dispatch frames token
      return (frames, p, value.map some)
  else (p.remainderTurn frames).map fun (frames, p, value) => (frames, p, value.map some)

/-- `parse_remainder` in either mode; `none` when the fuel is used up. -/
def remainder (contentStream : Bool) : ℕ → LiveParser → List LiveFrame →
    Option (Except ParseError (Option ObjectValue × LiveParser))
  | 0, _, _ => none
  | fuel + 1, p, frames =>
    match p.turn contentStream frames with
    | .error e => some (.error e)
    | .ok (_, p, some value) => some (.ok (value, p))
    | .ok (frames, p, none) => remainder contentStream fuel p frames

/-- `parse`, with the slice behind the tokenizer as the input. -/
def parse (contentStream : Bool) (p : LiveParser) :
    Option (Except ParseError (Option ObjectValue × LiveParser)) :=
  match p.nextToken with
  | .error e => some (.error e)
  | .ok (token, p) =>
    if contentStream && token.tokenType = .eof then some (.ok (none, p))
    else if !contentStream && token.isWordValue (ascii "endobj") then
      some (.ok (some .null, { p with tokens := { p.tokens with pos := token.start } }))
    else if token.tokenType = .arrayOpen ∨ token.tokenType = .dictOpen then
      match p.pushFrame [] token with
      | .error e => some (.error e)
      | .ok (frames, p) =>
        remainder contentStream (p.tokens.input.length + 2) p (frames.getD [])
    else
      some ((if contentStream then p.parseContentToken token else p.parseScalarToken token).map
        fun (value, p) => (some value, p))

theorem remainder_file (fuel : ℕ) (p : LiveParser) (frames : List LiveFrame) :
    remainder false fuel p frames =
      (parseRemainder fuel p frames).map (Except.map fun (value, p) => (some value, p)) := by
  induction fuel generalizing p frames with
  | zero => rfl
  | succ fuel ih =>
    rw [remainder, parseRemainder, turn, if_neg Bool.false_ne_true]
    rcases p.remainderTurn frames with e | ⟨frames', p', _ | value⟩
    · rfl
    · exact ih p' frames'
    · rfl

/-- Without `content_stream` this is the parser of file objects. -/
theorem parse_file (p : LiveParser) : p.parse false =
    p.parseBody.map (Except.map fun (value, p) => (some value, p)) := by
  unfold parse parseBody
  rcases p.nextToken with e | ⟨token, p'⟩
  · rfl
  · simp only [Bool.false_and, Bool.false_eq_true, if_false, Bool.not_false, Bool.true_and]
    split_ifs
    · rfl
    · rcases p'.pushFrame [] token with e | ⟨frames, p''⟩
      · rfl
      · exact remainder_file _ _ _
    · rfl

end LiveParser

end Flpdf
