import Flpdf.Bytes.Decimal
import Flpdf.Effects.Program
import Flpdf.Object.Value
import Flpdf.Tokenizer.Machine

/-!
# The input source of a document

A file is read in calls that may hand over less than there is room for, and moved by offsets
that are signed 64-bit numbers. The live input reads it through a buffer of 128 bytes; framing
tokens are read from a window that grows until the token ends in front of its end. How an
indirect `/Length` resolves and whether a warning is delivered are given from outside.
-/

namespace Flpdf.Streams

/-- `i64::MAX`, the largest offset of a file. -/
def maxOffset : ℕ := 2 ^ 63 - 1

inductive Error where
  | parse (offset : ℕ) (message : Bytes)
  | system (message : Bytes)
  | other
deriving DecidableEq, Repr

/-- A file, with what stands in front of its header, and how much one read hands over at a
position that has room for so much. -/
structure File where
  contents : Bytes
  headerOffset : ℕ
  give : ℕ → ℕ → ℕ
  give_pos : ∀ position room, 0 < room → 0 < give position room
  give_le : ∀ position room, give position room ≤ room
  length_le : contents.length ≤ maxOffset
  header_le : headerOffset ≤ contents.length

/-- The file behind its header offset. -/
def File.logical (file : File) : Bytes := file.contents.drop file.headerOffset

structure Warning where
  offset : ℕ
  message : Bytes
deriving DecidableEq, Repr

/-- What reading changes: the place in the underlying file, the place of the last read, the
number of moves and the warnings. -/
structure Input where
  position : ℕ
  lastOffset : ℕ := 0
  generation : ℕ := 0
  warnings : List Warning := []
deriving DecidableEq, Repr

/-- What is outside of the reader: `attempt_recovery`, the outcome of delivering each warning,
and the resolution of an indirect object. -/
structure Environment where
  attemptRecovery : Bool
  deliverWarning : ℕ → Except Error Unit
  resolve : QpdfObjGen → Input → Except Error ObjectValue × Input

section Resolver

variable (file : File)

/-! ## Moving and reading -/

/-- `bump_input_generation`. -/
def bumpInputGeneration : Program Input Error Unit :=
  Program.modify fun s => { s with generation := (s.generation + 1) % 2 ^ 64 }

def tell : Program Input Error ℕ := do
  let s ← Program.get
  pure (s.position - file.headerOffset)

/-- The message of `qpdf_u64_to_offset_checked`. -/
def outOfRangeMessage (value : ℕ) : Bytes :=
  ascii "integer out of range converting " ++ natDecimal value ++
    ascii " from a 8-byte unsigned type to a 8-byte signed type"

def seekOverflowMessage (offset header : ℕ) : Bytes :=
  ascii "seeking to " ++ natDecimal offset ++ ascii " offset by " ++ natDecimal header ++
    ascii " would cause an overflow of the offset type"

def seek (offset : ℕ) : Program Input Error Unit :=
  if maxOffset < offset then Program.fail (.system (outOfRangeMessage offset))
  else if maxOffset < file.headerOffset + offset then do
    bumpInputGeneration
    Program.fail (.system (seekOverflowMessage offset file.headerOffset))
  else do
    Program.modify fun s => { s with position := file.headerOffset + offset }
    bumpInputGeneration

def addOverflowMessage (delta position : ℕ) : Bytes :=
  ascii "adding " ++ natDecimal delta ++ ascii " to " ++ natDecimal position ++
    ascii " would cause an integer overflow"

def seekRelative (delta : ℕ) : Program Input Error Unit := do
  let s ← Program.get
  if maxOffset - s.position < delta then
    Program.fail (.parse s.position (addOverflowMessage delta s.position))
  else do
    Program.modify fun s => { s with position := s.position + delta }
    bumpInputGeneration

/-- The loop that fills a buffer; every call takes at least one byte. -/
def File.fill : ℕ → ℕ → ℕ → Bytes
  | 0, _, _ => []
  | rounds + 1, position, room =>
    let taken := (file.contents.drop position).take (file.give position room)
    if room = 0 ∨ taken = [] then []
    else taken ++ fill rounds (position + taken.length) (room - taken.length)

/-- `read`, into a buffer of so many bytes; at the end of the file the position is set to it. -/
def read (count : ℕ) : Program Input Error Bytes := do
  let s ← Program.get
  let bytes := file.fill count s.position count
  if bytes = [] ∧ count ≠ 0 then
    Program.modify fun s => { s with
      position := file.contents.length
      lastOffset := file.contents.length - file.headerOffset }
  else
    Program.modify fun s => { s with
      position := s.position + bytes.length
      lastOffset := s.position - file.headerOffset }
  bumpInputGeneration
  pure bytes

def readByte : Program Input Error (Option UInt8) := do
  let bytes ← read file 1
  pure bytes.head?

def unreadByte : Program Input Error Unit := do
  let position ← tell file
  seek file (position - 1)

/-! ## The live input -/

/-- `LIVE_INPUT_BUFFER`. -/
def liveInputBuffer : ℕ := 128

/-- `ResolverLiveInput`; `buffer` is its filled part. -/
structure LiveInput where
  buffer : Bytes := []
  bufferStart : ℕ := 0
  bufferIndex : ℕ := 0
  generation : ℕ
deriving DecidableEq, Repr

namespace LiveInput

/-- A buffer that was filled before the last move is dropped. -/
def syncGeneration (l : LiveInput) : Program Input Error LiveInput := do
  let s ← Program.get
  if s.generation = l.generation then pure l
  else do
    let position ← Streams.tell file
    pure { bufferStart := position, generation := s.generation }

def tell (l : LiveInput) : Program Input Error (ℕ × LiveInput) := do
  let l ← l.syncGeneration file
  if l.buffer = [] then do
    let position ← Streams.tell file
    pure (position, l)
  else pure (l.bufferStart + l.bufferIndex, l)

def seek (offset : ℕ) : Program Input Error LiveInput := do
  Streams.seek file offset
  let s ← Program.get
  pure { bufferStart := offset, generation := s.generation }

/-- The buffer, filled again if it is spent. -/
def refill (l : LiveInput) : Program Input Error LiveInput :=
  if l.bufferIndex = l.buffer.length then do
    let position ← Streams.tell file
    let bytes ← Streams.read file liveInputBuffer
    let s ← Program.get
    pure { buffer := bytes, bufferStart := position, generation := s.generation }
  else pure l

def readByte (l : LiveInput) : Program Input Error (Option UInt8 × LiveInput) := do
  let l ← l.syncGeneration file
  let l ← l.refill file
  match l.buffer[l.bufferIndex]? with
  | none => pure (none, l)
  | some byte => pure (some byte, { l with bufferIndex := l.bufferIndex + 1 })

def unreadByte (l : LiveInput) : Program Input Error LiveInput := do
  let l ← l.syncGeneration file
  if l.bufferIndex ≠ 0 then pure { l with bufferIndex := l.bufferIndex - 1 }
  else do
    let (position, _) ← l.tell file
    if position = 0 then
      Program.fail (.parse 0 (ascii "cannot unread before the start of input"))
    else LiveInput.seek file (position - 1)

/-- `unread_byte`, so many times. -/
def unreadBytes : ℕ → LiveInput → Program Input Error LiveInput
  | 0, l => pure l
  | count + 1, l => do
    let l ← l.unreadByte file
    unreadBytes count l

end LiveInput

/-! ## The end of a damaged stream -/

/-- `STREAM_RECOVERY_TOKEN_LIMIT`. -/
def streamRecoveryTokenLimit : ℕ := 20

/-- The loop of `read_stream_recovery_token`, by the room that is left for the token. -/
def recoveryTokenLoop : ℕ → Bytes → LiveInput → Program Input Error (Bytes × ℕ × LiveInput)
  | 0, token, l => do
    let (position, l) ← l.tell file
    pure (token, position, l)
  | room + 1, token, l => do
    let (next, l) ← l.readByte file
    match next with
    | none => do
      let (position, l) ← l.tell file
      pure (token, position, l)
    | some byte =>
      if isWs byte || isDelimiter byte then do
        let l ← l.unreadByte file
        let (position, l) ← l.tell file
        pure (token, position, l)
      else recoveryTokenLoop room (token ++ [byte]) l

def readStreamRecoveryToken (seen : Bytes) (l : LiveInput) :
    Program Input Error (Bytes × ℕ × LiveInput) :=
  recoveryTokenLoop file (streamRecoveryTokenLimit - seen.length) seen l

/-- The end of a round that has found the bytes `end`. -/
def recoveryCandidate (candidate : ℕ) (l : LiveInput) :
    Program Input Error (Option (ℕ × ℕ) ⊕ LiveInput) := do
  let (token, tokenEnd, l) ← readStreamRecoveryToken file (ascii "end") l
  if token = ascii "endstream" then pure (.inl (some (candidate, tokenEnd)))
  else if token = ascii "endobj" then pure (.inl (some (candidate, candidate)))
  else do
    let l ← l.unreadBytes file (token.length - 1)
    pure (.inr l)

/-- One round of `find_stream_recovery_terminator`: the result, or where the search goes on. -/
def recoveryRound (l : LiveInput) : Program Input Error (Option (ℕ × ℕ) ⊕ LiveInput) := do
  let (candidate, l) ← l.tell file
  let (first, l) ← l.readByte file
  match first with
  | none => pure (.inl none)
  | some byte =>
    if byte ≠ 0x65 then pure (.inr l)
    else do
      let (second, l) ← l.readByte file
      match second with
      | none => pure (.inl none)
      | some byte =>
        if byte ≠ 0x6e then do
          let l ← l.unreadByte file
          pure (.inr l)
        else do
          let (third, l) ← l.readByte file
          match third with
          | none => pure (.inl none)
          | some byte =>
            if byte ≠ 0x64 then do
              let l ← l.unreadByte file
              let l ← l.unreadByte file
              pure (.inr l)
            else recoveryCandidate file candidate l

def recoveryLoop : ℕ → LiveInput → Program Input Error (Option (ℕ × ℕ))
  | 0, _ => Program.outOfFuel
  | fuel + 1, l => do
    let outcome ← recoveryRound file l
    match outcome with
    | .inl result => pure result
    | .inr l => recoveryLoop fuel l

/-- `find_stream_recovery_terminator`; every round moves one byte forward. -/
def findStreamRecoveryTerminator (streamOffset : ℕ) :
    Program Input Error (Option (ℕ × ℕ)) := do
  let l ← LiveInput.seek file streamOffset
  recoveryLoop file (file.contents.length + 1) l

/-! ## Framing tokens -/

/-- `INPUT_CHUNK`. -/
def inputChunk : ℕ := 4096

/-- `refill`: the window with what comes next, and whether there was anything. -/
def refill (bytes : Bytes) : Program Input Error (Bytes × Bool) := do
  let next ← read file (max bytes.length inputChunk)
  pure (bytes ++ next, !next.isEmpty)

section

variable {α : Type} (attempt : Bytes → Except Error (α × ℕ))

/-- The result ends in front of the end of the window. -/
def isComplete (bytes : Bytes) : Bool :=
  match attempt bytes with
  | .ok (_, stop) => decide (stop < bytes.length)
  | .error _ => false

def scanLoop (start : ℕ) : ℕ → Bytes → Bool → Program Input Error α
  | 0, _, _ => Program.outOfFuel
  | fuel + 1, bytes, more =>
    if isComplete attempt bytes || !more then do
      let (value, stop) ← Program.ofExcept (attempt bytes)
      seek file (start + stop)
      pure value
    else do
      let (bytes, more) ← refill file bytes
      scanLoop start fuel bytes more

/-- `scan_forward`; every round but the last two reads a byte. -/
def scanForward : Program Input Error α := do
  let start ← tell file
  scanLoop file attempt start (file.contents.length + 3) [] true

end

/-- The attempt of `read_token_from_input`. -/
def attemptToken (bytes : Bytes) : Except Error (Token × ℕ) :=
  match ({ input := bytes } : Tokenizer).readQpdfToken 0 with
  | (.error (offset, message), _) => .error (.parse offset message)
  | (.ok token, t) => .ok (token, t.pos)

def setLastOffset (offset : ℕ) : Program Input Error Unit :=
  Program.modify fun s => { s with lastOffset := offset }

/-- Where the token begins; the end of the input is where the last read has found it. -/
def tokenStart (start : ℕ) (token : Token) : Program Input Error ℕ :=
  if token.tokenType = .eof then do
    let s ← Program.get
    seek file s.lastOffset
    pure s.lastOffset
  else pure (start + token.start)

def readTokenFromInput : Program Input Error (Token × ℕ) := do
  let start ← tell file
  let token ← scanForward file attemptToken
  let tokenStart ← tokenStart file start token
  setLastOffset tokenStart
  pure (token, tokenStart)

end Resolver

/-! ## Streams -/

section Streams

variable (env : Environment) (file : File)

/-- `push_qpdf_warning`. -/
def pushWarning (offset : ℕ) (message : Bytes) : Program Input Error Unit := do
  let s ← Program.get
  Program.modify fun s => { s with warnings := s.warnings ++ [⟨offset, message⟩] }
  Program.ofExcept (env.deliverWarning s.warnings.length)

/-- `QUtil::is_space`, which leaves NUL out. -/
def isSpace (byte : UInt8) : Bool :=
  byte == 0x09 || byte == 0x0a || byte == 0x0b || byte == 0x0c || byte == 0x0d || byte == 0x20

/-- The loop of `validate_stream_line_end`. -/
def validateLineEndLoop : ℕ → Program Input Error Unit
  | 0 => Program.outOfFuel
  | fuel + 1 => do
    let next ← readByte file
    match next with
    | none => pure ()
    | some byte =>
      if byte = 0x0a then pure ()
      else if byte = 0x0d then do
        let behind ← readByte file
        match behind with
        | none => pure ()
        | some byte =>
          if byte = 0x0a then pure ()
          else do
            unreadByte file
            let offset ← tell file
            pushWarning env offset (ascii "stream keyword followed by carriage return only")
      else if !isSpace byte then do
        unreadByte file
        let offset ← tell file
        pushWarning env offset (ascii "stream keyword not followed by proper line terminator")
      else do
        let offset ← tell file
        pushWarning env offset (ascii "stream keyword followed by extraneous whitespace")
        validateLineEndLoop fuel

def validateStreamLineEnd : Program Input Error Unit :=
  validateLineEndLoop env file (file.contents.length + 1)

/-- `try_dereference`, and the value behind the handle. -/
def tryDereference (value : ObjectValue) : Program Input Error ObjectValue :=
  match value with
  | .indirect g => fun s => some (env.resolve g s)
  | value => pure value

def noDictionaryMessage : Bytes :=
  ascii "stream keyword follows an object that is not a dictionary"

def lacksLengthMessage : Bytes := ascii "stream dictionary lacks /Length key"

def lengthNoIntegerMessage : Bytes := ascii "/Length key in stream dictionary is not an integer"

def lengthOutOfRangeMessage : Bytes := ascii "/Length key in stream dictionary is out of range"

def expectedEndstreamMessage : Bytes := ascii "expected endstream"

/-- The length that the value of `/Length` gives. -/
def lengthOfValue (errorOffset : ℕ) : ObjectValue → Except Error ℕ
  | .integer value =>
    if 0 ≤ value then .ok value.toNat else .error (.parse errorOffset lengthOutOfRangeMessage)
  | .null => .error (.parse errorOffset lacksLengthMessage)
  | _ => .error (.parse errorOffset lengthNoIntegerMessage)

def streamLength (dict : ObjectValue) (objectHeaderOffset : ℕ) : Program Input Error ℕ :=
  match dict with
  | .dictionary entries =>
    match entries.lookup (ascii "/Length") with
    | none => Program.fail (.parse objectHeaderOffset lacksLengthMessage)
    | some length => do
      let value ← tryDereference env length
      Program.ofExcept (lengthOfValue objectHeaderOffset value)
  | _ => Program.fail (.parse objectHeaderOffset noDictionaryMessage)

def isRecoverableStreamError : Error → Bool
  | .parse _ message => message == lacksLengthMessage || message == lengthNoIntegerMessage ||
      message == lengthOutOfRangeMessage || message == expectedEndstreamMessage
  | _ => false

def warnStreamFailure (error : Error) (objectHeaderOffset : ℕ) : Program Input Error Unit :=
  match error with
  | .parse offset message =>
    pushWarning env (if message = expectedEndstreamMessage then offset else objectHeaderOffset)
      message
  | _ => pure ()

/-- The recovered length, and the place from which reading goes on. -/
def followTerminator (streamOffset : ℕ) (terminator : Option (ℕ × ℕ)) : Program Input Error ℕ :=
  match terminator with
  | some (position, nextPosition) => do
    seek file nextPosition
    pure (position - streamOffset)
  | none => pure 0

def recoveredMessage (length : ℕ) : Bytes :=
  if length = 0 then ascii "unable to recover stream data; treating stream as empty"
  else ascii "recovered stream length: " ++ natDecimal length

def recoverStreamLength (streamOffset : ℕ) : Program Input Error ℕ := do
  pushWarning env streamOffset (ascii "attempting to recover stream length")
  let terminator ← findStreamRecoveryTerminator file streamOffset
  let length ← followTerminator file streamOffset terminator
  pushWarning env streamOffset (recoveredMessage length)
  pure length

/-- The stream that `read_stream` returns: its dictionary, and where its data is. -/
structure StreamValue where
  streamDict : ObjectValue
  streamOffset : ℕ
  streamLength : ℕ

/-- The recovery, if it is enabled. -/
def recoverFrom (error : Error) (objectHeaderOffset streamOffset : ℕ) :
    Program Input Error ℕ :=
  if !env.attemptRecovery then Program.fail error
  else do
    warnStreamFailure env error objectHeaderOffset
    recoverStreamLength env file streamOffset

/-- The declared length, if `endstream` is behind it. -/
def checkFraming (length objectHeaderOffset streamOffset : ℕ) : Program Input Error ℕ := do
  seek file streamOffset
  seekRelative length
  let (token, offset) ← readTokenFromInput file
  if token.isWordValue (ascii "endstream") then pure length
  else recoverFrom env file (.parse offset expectedEndstreamMessage) objectHeaderOffset streamOffset

/-- The length, from what the lookup of `/Length` gives. -/
def settleLength (lookup : Except Error ℕ) (objectHeaderOffset streamOffset : ℕ) :
    Program Input Error ℕ :=
  match lookup with
  | .ok length => checkFraming env file length objectHeaderOffset streamOffset
  | .error error =>
    if isRecoverableStreamError error then
      recoverFrom env file error objectHeaderOffset streamOffset
    else Program.fail error

def readStream (dict : ObjectValue) (objectHeaderOffset : ℕ) :
    Program Input Error StreamValue := do
  validateStreamLineEnd env file
  let streamOffset ← tell file
  let lookup ← (streamLength env dict objectHeaderOffset).attempt
  let length ← settleLength env file lookup objectHeaderOffset streamOffset
  let (trailing, offset) ← readTokenFromInput file
  Program.onlyIf (!trailing.isWordValue (ascii "endobj"))
    (pushWarning env offset (ascii "expected endobj"))
  pure ⟨dict, streamOffset, length⟩

end Streams

end Flpdf.Streams
