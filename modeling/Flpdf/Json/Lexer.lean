import Flpdf.Json.Value

/-!
# The JSON lexer

`get_token` with its twenty states. A delimiter ends every token but a string
and is read again as a token of its own.
-/

namespace Flpdf.Json

inductive LexState where
  | top | numberMinus | numberLeadingZero | numberBeforePoint | numberPoint | numberAfterPoint
  | numberE | numberESign | number | alpha | string | backslash | u4 | afterString
  | beginDictionary | endDictionary | beginArray | endArray | colon | comma
  deriving DecidableEq, Repr

/-- The lexer's part of `Parser`; the unread input is kept beside it. -/
structure Lexer where
  pos : ℕ := 0
  state : LexState := .top
  done : Bool := false
  token : Bytes := []
  tokenStart : ℤ := 0
  uCount : ℕ := 0
  uValue : ℕ := 0
  highSurrogate : ℕ := 0
  highOffset : Option ℤ := none
  deriving DecidableEq, Repr

namespace Lexer

def offset (l : Lexer) : ℤ := l.pos

def append (l : Lexer) (byte : UInt8) : Lexer :=
  { l with token := l.token ++ [byte], pos := l.pos + 1 }

def appendState (l : Lexer) (state : LexState) (byte : UInt8) : Lexer :=
  { l with state := state }.append byte

def ignore (l : Lexer) : Lexer := { l with pos := l.pos + 1 }

def ignoreState (l : Lexer) (state : LexState) : Lexer := { l with state := state }.ignore

def push (l : Lexer) (bytes : Bytes) : Lexer := { l with token := l.token ++ bytes }

def isDelimiterOrBlank (byte : UInt8) : Bool :=
  byte == 0x20 || byte == 0x09 || byte == 0x0a || byte == 0x0d || byte == 0x7b || byte == 0x7d ||
    byte == 0x5b || byte == 0x5d || byte == 0x3a || byte == 0x2c

/-- The message of `token_error`; without a current byte the input has ended. -/
def tokenError (l : Lexer) : Option UInt8 → Bytes
  | none => ascii "JSON: premature end of input"
  | some byte =>
    match l.state with
    | .u4 => ascii s!"JSON: offset {l.offset - l.uCount - 1}: \\u must be followed by four hex digits"
    | .alpha => ascii s!"JSON: offset {l.offset}: keyword: unexpected character " ++ [byte]
    | .string => ascii s!"JSON: offset {l.offset}: control character in string (missing \"?)"
    | .backslash =>
      ascii s!"JSON: offset {l.offset}: invalid character after backslash: " ++ [byte]
    | state =>
      if byte = 0x2e then
        if state = .number ∨ state = .numberE ∨ state = .numberESign then
          ascii s!"JSON: offset {l.offset}: numeric literal: decimal point after e"
        else ascii s!"JSON: offset {l.offset}: numeric literal: decimal point already seen"
      else if byte = 0x65 ∨ byte = 0x45 then
        ascii s!"JSON: offset {l.offset}: numeric literal: e already seen"
      else if byte = 0x2b ∨ byte = 0x2d then
        ascii s!"JSON: offset {l.offset}: numeric literal: unexpected sign"
      else if isDelimiterOrBlank byte then
        ascii s!"JSON: offset {l.offset}: numeric literal: incomplete number"
      else ascii s!"JSON: offset {l.offset}: numeric literal: unexpected character " ++ [byte]

/-- The UTF-8 bytes of a code point. -/
def utf8 (codepoint : ℕ) : Bytes := String.utf8EncodeChar (Char.ofNat codepoint)

/-- What a `\u` escape does to the token. A missing high surrogate has the
offset 0, so that a low surrogate at offset 6 is accepted. -/
def handleUCode (l : Lexer) (codepoint : ℕ) (offset : ℤ) : Except Bytes Lexer :=
  if codepoint &&& 0xfc00 = 0xd800 then
    match l.highOffset with
    | some highOffset =>
      .error (ascii s!"JSON: offset {offset}: UTF-16 high surrogate found after previous high surrogate at offset {highOffset}")
    | none => .ok { l with highOffset := some offset, highSurrogate := codepoint }
  else if codepoint &&& 0xfc00 = 0xdc00 then
    if offset ≠ l.highOffset.getD 0 + 6 then
      .error (ascii s!"JSON: offset {offset}: UTF-16 low surrogate found not immediately after high surrogate")
    else
      .ok ({ l with highOffset := none }.push
        (utf8 (0x10000 + ((l.highSurrogate &&& 0x3ff) <<< 10) + (codepoint &&& 0x3ff))))
  else .ok (l.push (utf8 codepoint))

/-- What one byte does: the token goes on, ends before the byte, or ends with it. -/
inductive Step where
  | more (l : Lexer)
  | stop (l : Lexer)
  | last (l : Lexer)

/-- The token of a delimiter. -/
def delimiter (byte : UInt8) : Option LexState :=
  if byte = 0x2c then some .comma
  else if byte = 0x3a then some .colon
  else if byte = 0x7b then some .beginDictionary
  else if byte = 0x7d then some .endDictionary
  else if byte = 0x5b then some .beginArray
  else if byte = 0x5d then some .endArray
  else none

/-- A delimiter at the top is a token; an opening one starts its container. -/
def beginDelimiter (l : Lexer) (state : LexState) : Lexer :=
  if state = .beginDictionary ∨ state = .beginArray then
    { l with tokenStart := l.offset }.ignoreState state
  else l.ignoreState state

def isLowercase (byte : UInt8) : Bool := 0x61 ≤ byte && byte ≤ 0x7a

def isNonzeroDigit (byte : UInt8) : Bool := 0x31 ≤ byte && byte ≤ 0x39

def isExponent (byte : UInt8) : Bool := byte == 0x65 || byte == 0x45

def inTop (l : Lexer) (byte : UInt8) : Except Bytes Step :=
  let l := { l with tokenStart := l.offset }
  if byte = 0x22 then .ok (.more (l.ignoreState .string))
  else if isLowercase byte then .ok (.more (l.appendState .alpha byte))
  else if byte = 0x2d then .ok (.more (l.appendState .numberMinus byte))
  else if isNonzeroDigit byte then .ok (.more (l.appendState .numberBeforePoint byte))
  else if byte = 0x30 then .ok (.more (l.appendState .numberLeadingZero byte))
  else .error (ascii s!"JSON: offset {l.offset}: unexpected character " ++ [byte])

/-- The transitions of the number states; `none` is an error. -/
def numberStep (state : LexState) (byte : UInt8) : Option LexState :=
  match state with
  | .numberMinus =>
    if isNonzeroDigit byte then some .numberBeforePoint
    else if byte = 0x30 then some .numberLeadingZero
    else none
  | .numberLeadingZero =>
    if byte = 0x2e then some .numberPoint
    else if isExponent byte then some .numberE
    else none
  | .numberBeforePoint =>
    if isAsciiDigit byte then some .numberBeforePoint
    else if byte = 0x2e then some .numberPoint
    else if isExponent byte then some .numberE
    else none
  | .numberPoint => if isAsciiDigit byte then some .numberAfterPoint else none
  | .numberAfterPoint =>
    if isAsciiDigit byte then some .numberAfterPoint
    else if isExponent byte then some .numberE
    else none
  | .numberE =>
    if isAsciiDigit byte then some .number
    else if byte = 0x2b ∨ byte = 0x2d then some .numberESign
    else none
  | .numberESign => if isAsciiDigit byte then some .number else none
  | .number => if isAsciiDigit byte then some .number else none
  | _ => none

def inNumber (l : Lexer) (byte : UInt8) : Except Bytes Step :=
  match numberStep l.state byte with
  | some state => .ok (.more (l.appendState state byte))
  | none =>
    if l.state = .numberMinus then
      .error (ascii s!"JSON: offset {l.offset}: numeric literal: no digit after minus sign")
    else if l.state = .numberLeadingZero then
      .error (ascii s!"JSON: offset {l.offset}: number with leading zero")
    else .error (l.tokenError (some byte))

def inString (l : Lexer) (byte : UInt8) : Except Bytes Step :=
  if byte = 0x22 then
    match l.highOffset with
    | some highOffset =>
      .error (ascii s!"JSON: offset {highOffset}: UTF-16 high surrogate not followed by low surrogate")
    | none => .ok (.last (l.ignoreState .afterString))
  else if byte = 0x5c then .ok (.more (l.ignoreState .backslash))
  else .ok (.more (l.append byte))

/-- The byte that a simple escape stands for. -/
def escaped (byte : UInt8) : Option UInt8 :=
  if byte = 0x5c ∨ byte = 0x22 ∨ byte = 0x2f then some byte
  else if byte = 0x62 then some 0x08
  else if byte = 0x66 then some 0x0c
  else if byte = 0x6e then some 0x0a
  else if byte = 0x72 then some 0x0d
  else if byte = 0x74 then some 0x09
  else none

def inBackslash (l : Lexer) (byte : UInt8) : Except Bytes Step :=
  match escaped byte with
  | some value => .ok (.more (({ l with state := .string }.push [value]).ignore))
  | none =>
    if byte = 0x75 then .ok (.more ({ l with state := .u4, uCount := 0, uValue := 0 }.ignore))
    else .error (l.tokenError (some byte))

def inU4 (l : Lexer) (byte : UInt8) : Except Bytes Step :=
  match hexValue byte with
  | none => .error (l.tokenError (some byte))
  | some value =>
    let l := { l with uValue := 16 * l.uValue + value.toNat, uCount := l.uCount + 1 }
    if l.uCount = 4 then
      match l.handleUCode l.uValue (l.offset - 5) with
      | .error e => .error e
      | .ok l => .ok (.more (l.ignoreState .string))
    else .ok (.more l.ignore)

def inAlpha (l : Lexer) (byte : UInt8) : Except Bytes Step :=
  if isLowercase byte then .ok (.more (l.append byte)) else .error (l.tokenError (some byte))

/-- The dispatch on the state. -/
@[grind =] def inState (l : Lexer) (byte : UInt8) : Except Bytes Step :=
  match l.state with
  | .top => l.inTop byte
  | .alpha => l.inAlpha byte
  | .string => l.inString byte
  | .backslash => l.inBackslash byte
  | .u4 => l.inU4 byte
  | _ => l.inNumber byte

/-- One turn of the loop of `get_token`. -/
@[grind =] def lexByte (l : Lexer) (byte : UInt8) : Except Bytes Step :=
  if byte < 32 then
    if byte = 0x09 ∨ byte = 0x0a ∨ byte = 0x0d then
      if l.state = .top then .ok (.more l.ignore) else .ok (.stop l)
    else .error (ascii s!"JSON: control or null character at offset {l.offset}")
  else if byte = 0x20 then
    if l.state = .top then .ok (.more l.ignore)
    else if l.state = .string then .ok (.more (l.append byte))
    else .ok (.stop l)
  else
    match delimiter byte with
    | some state =>
      if l.state = .top then .ok (.last (l.beginDelimiter state))
      else if l.state = .string then .ok (.more (l.append byte))
      else .ok (.stop l)
    | none => l.inState byte

/-- What follows the loop: a number or a keyword is complete, anything else is
an error unless its token is empty. -/
def endToken (l : Lexer) (current : Option UInt8) : Except Bytes Lexer :=
  if l.token = [] then .ok l
  else
    match l.state with
    | .numberLeadingZero | .numberBeforePoint | .numberAfterPoint => .ok { l with state := .number }
    | .number | .alpha => .ok l
    | _ => .error (l.tokenError current)

/-- The loop over the unread input; it returns what is left of it. -/
@[grind =] def scan : Bytes → Lexer → Except Bytes (Lexer × Bytes)
  | [], l => ({ l with done := true }.endToken none).map fun l => (l, [])
  | byte :: rest, l =>
    match l.lexByte byte with
    | .error e => .error e
    | .ok (.more l) => scan rest l
    | .ok (.stop l) => (l.endToken (some byte)).map fun l => (l, byte :: rest)
    | .ok (.last l) => .ok (l, rest)

def getToken (l : Lexer) (rest : Bytes) : Except Bytes (Lexer × Bytes) :=
  scan rest { l with token := [], highSurrogate := 0, highOffset := none }

end Lexer

end Flpdf.Json
