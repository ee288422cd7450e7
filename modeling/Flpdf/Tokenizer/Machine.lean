import Flpdf.Bytes.Ascii

/-! # The lexical state machine

`Tokenizer` with its twenty-one states.  A handler receives the state record
after the byte has been taken from the input; whether that byte joins the token
is decided by the two flags `beforeToken` and `inToken` it leaves behind.
-/

namespace Flpdf

inductive TokenType where
  | bad | arrayClose | arrayOpen | braceClose | braceOpen | dictClose | dictOpen
  | integer | name | real | string | null | bool | word | eof | space | comment | inlineImage
  deriving DecidableEq, Repr

structure Token where
  tokenType : TokenType
  value : Bytes
  raw : Bytes
  errorMessage : Option Bytes
  errorOffset : ℕ
  start : ℕ
  endPos : ℕ
  deriving DecidableEq, Repr

def Token.isInteger (t : Token) : Bool := t.tokenType == .integer

def Token.isWordValue (t : Token) (value : Bytes) : Bool :=
  t.tokenType == .word && t.value == value

inductive LexState where
  | inHexString | inString | inHexStringSecond | name | literal | inSpace | inComment
  | stringEscape | charCode | stringAfterCr | lt | gt | inlineImage | sign | number | real
  | decimal | nameHex1 | nameHex2 | beforeToken | tokenReady
  deriving DecidableEq, Repr

/-- The record `Tokenizer`.  `charCode` is a `u16` that never exceeds 511. -/
structure Tokenizer where
  input : Bytes
  pos : ℕ := 0
  state : LexState := .beforeToken
  allowEof : Bool := false
  includeIgnorable : Bool := false
  tokenType : TokenType := .bad
  value : Bytes := []
  raw : Bytes := []
  errorMessage : Option Bytes := none
  beforeToken : Bool := true
  inToken : Bool := false
  charToUnread : Option UInt8 := none
  inlineImageBytes : ℕ := 0
  bad : Bool := false
  stringDepth : ℕ := 0
  charCode : ℕ := 0
  hexByte : UInt8 := 0
  digitCount : ℕ := 0
  tokenStart : ℕ := 0
  deriving DecidableEq, Repr

namespace Tokenizer

def reset (t : Tokenizer) : Tokenizer :=
  { t with
    state := .beforeToken, tokenType := .bad, value := [], raw := [], errorMessage := none
    beforeToken := true, inToken := false, charToUnread := none, inlineImageBytes := 0
    stringDepth := 0, bad := false, charCode := 0, hexByte := 0, digitCount := 0
    tokenStart := t.pos }

/-- A token that ends in front of `byte`, which is given back to the input. -/
def endBefore (t : Tokenizer) (type : TokenType) (byte : UInt8) : Tokenizer :=
  { t with tokenType := type, inToken := false, charToUnread := some byte, state := .tokenReady }

/-- A token that ends with the current byte. -/
def endWith (t : Tokenizer) (type : TokenType) : Tokenizer :=
  { t with tokenType := type, state := .tokenReady }

def badWith (t : Tokenizer) (message : Bytes) : Tokenizer :=
  { t with tokenType := .bad, errorMessage := some message, state := .tokenReady }

def push (t : Tokenizer) (bytes : Bytes) : Tokenizer := { t with value := t.value ++ bytes }

def goto (t : Tokenizer) (state : LexState) : Tokenizer := { t with state := state }

def inTop (t : Tokenizer) (byte : UInt8) : Tokenizer :=
  if byte = 0x28 then { t with stringDepth := 1, state := .inString }
  else if byte = 0x3c then t.goto .lt
  else if byte = 0x3e then t.goto .gt
  else if byte = 0x29 then t.badWith (ascii "unexpected )")
  else if byte = 0x5b then t.endWith .arrayOpen
  else if byte = 0x5d then t.endWith .arrayClose
  else if byte = 0x7b then t.endWith .braceOpen
  else if byte = 0x7d then t.endWith .braceClose
  else if byte = 0x2f then (t.goto .name).push [byte]
  else if isAsciiDigit byte then t.goto .number
  else if byte = 0x2b ∨ byte = 0x2d then t.goto .sign
  else if byte = 0x2e then t.goto .decimal
  else t.goto .literal

def inBeforeToken (t : Tokenizer) (byte : UInt8) : Tokenizer :=
  if isWs byte then
    { t with
      beforeToken := !t.includeIgnorable, inToken := t.includeIgnorable
      state := if t.includeIgnorable then .inSpace else t.state }
  else if byte = 0x25 then
    { t with
      beforeToken := !t.includeIgnorable, inToken := t.includeIgnorable, state := .inComment }
  else { t with beforeToken := false, inToken := true }.inTop byte

def handleInSpace (t : Tokenizer) (byte : UInt8) : Tokenizer :=
  if isWs byte then t else t.endBefore .space byte

def handleInComment (t : Tokenizer) (byte : UInt8) : Tokenizer :=
  if byte = 0x0d ∨ byte = 0x0a then
    if t.includeIgnorable then t.endBefore .comment byte else t.goto .beforeToken
  else t

def handleInString (t : Tokenizer) (byte : UInt8) : Tokenizer :=
  if byte = 0x5c then t.goto .stringEscape
  else if byte = 0x28 then { t.push [byte] with stringDepth := t.stringDepth + 1 }
  else if byte = 0x29 then
    if t.stringDepth - 1 = 0 then
      { t with stringDepth := t.stringDepth - 1 }.endWith .string
    else { t.push [byte] with stringDepth := t.stringDepth - 1 }
  else if byte = 0x0d then (t.push [0x0a]).goto .stringAfterCr
  else t.push [byte]

def inName (t : Tokenizer) (byte : UInt8) : Tokenizer :=
  if isTokenDelimiter byte then t.endBefore (if t.bad then .bad else .name) byte
  else if byte = 0x23 then { t with charCode := 0, state := .nameHex1 }
  else t.push [byte]

def strayHashMessage : Bytes := ascii "name with stray # will not work with PDF >= 1.2"

def inNameHex1 (t : Tokenizer) (byte : UInt8) : Tokenizer :=
  match hexValue byte with
  | some v => { t with hexByte := byte, charCode := v.toNat <<< 4, state := .nameHex2 }
  | none =>
    ({ t with hexByte := byte, errorMessage := some strayHashMessage, state := .name }.push
      [0]).inName byte

def inNameHex2 (t : Tokenizer) (byte : UInt8) : Tokenizer :=
  match hexValue byte with
  | none =>
    ({ t with errorMessage := some strayHashMessage, state := .name }.push
      [0, t.hexByte]).inName byte
  | some v =>
    let code := t.charCode ||| v.toNat
    if code = 0 then
      { t with
        charCode := code, errorMessage := some (ascii "null character not allowed in name token")
        value := t.value ++ ascii "#00", state := .name, bad := true }
    else { t with charCode := code, value := t.value ++ [code.toUInt8], state := .name }

/-- `in_literal`; the comparison is with the bytes collected before this one. -/
def inLiteral (t : Tokenizer) (byte : UInt8) : Tokenizer :=
  if isTokenDelimiter byte then
    t.endBefore
      (if t.raw = ascii "true" ∨ t.raw = ascii "false" then .bool
        else if t.raw = ascii "null" then .null else .word) byte
  else t

def inSign (t : Tokenizer) (byte : UInt8) : Tokenizer :=
  if isAsciiDigit byte then t.goto .number
  else if byte = 0x2e then t.goto .decimal
  else (t.goto .literal).inLiteral byte

def inDecimal (t : Tokenizer) (byte : UInt8) : Tokenizer :=
  if isAsciiDigit byte then t.goto .real else (t.goto .literal).inLiteral byte

def inNumber (t : Tokenizer) (byte : UInt8) : Tokenizer :=
  if isAsciiDigit byte then t
  else if byte = 0x2e then t.goto .real
  else if isTokenDelimiter byte then t.endBefore .integer byte
  else t.goto .literal

def inReal (t : Tokenizer) (byte : UInt8) : Tokenizer :=
  if isAsciiDigit byte then t
  else if isTokenDelimiter byte then t.endBefore .real byte
  else t.goto .literal

def isOctalDigit (byte : UInt8) : Bool := 0x30 ≤ byte && byte ≤ 0x37

def inCharCode (t : Tokenizer) (byte : UInt8) : Tokenizer :=
  if isOctalDigit byte then
    let code := 8 * t.charCode + (byte - 0x30).toNat
    if t.digitCount + 1 < 3 then { t with charCode := code, digitCount := t.digitCount + 1 }
    else
      ({ t with charCode := code, digitCount := t.digitCount + 1 }.push
        [(code % 256).toUInt8]).goto .inString
  else ((t.push [(t.charCode % 256).toUInt8]).goto .inString).handleInString byte

def inStringEscape (t : Tokenizer) (byte : UInt8) : Tokenizer :=
  if isOctalDigit byte then
    { t with state := .charCode, charCode := 0, digitCount := 0 }.inCharCode byte
  else if byte = 0x6e then (t.goto .inString).push [0x0a]
  else if byte = 0x72 then (t.goto .inString).push [0x0d]
  else if byte = 0x74 then (t.goto .inString).push [0x09]
  else if byte = 0x62 then (t.goto .inString).push [0x08]
  else if byte = 0x66 then (t.goto .inString).push [0x0c]
  else if byte = 0x0a then t.goto .inString
  else if byte = 0x0d then t.goto .stringAfterCr
  else (t.goto .inString).push [byte]

def inStringAfterCr (t : Tokenizer) (byte : UInt8) : Tokenizer :=
  if byte = 0x0a then t.goto .inString else (t.goto .inString).handleInString byte

def invalidHexCharacterMessage (byte : UInt8) : Bytes :=
  ascii "invalid character (" ++ [byte] ++ ascii ") in hexstring"

def handleInHexString (t : Tokenizer) (byte : UInt8) : Tokenizer :=
  match hexValue byte with
  | some v => { t with charCode := v.toNat <<< 4, state := .inHexStringSecond }
  | none =>
    if byte = 0x3e then t.endWith .string
    else if isWs byte then t
    else t.badWith (invalidHexCharacterMessage byte)

def handleInHexStringSecond (t : Tokenizer) (byte : UInt8) : Tokenizer :=
  match hexValue byte with
  | some v => (t.push [(t.charCode ||| v.toNat).toUInt8]).goto .inHexString
  | none =>
    if byte = 0x3e then (t.push [t.charCode.toUInt8]).endWith .string
    else if isWs byte then t
    else t.badWith (invalidHexCharacterMessage byte)

def inLt (t : Tokenizer) (byte : UInt8) : Tokenizer :=
  if byte = 0x3c then t.endWith .dictOpen
  else (t.goto .inHexString).handleInHexString byte

def inGt (t : Tokenizer) (byte : UInt8) : Tokenizer :=
  if byte = 0x3e then t.endWith .dictClose
  else { t with errorMessage := some (ascii "unexpected >") }.endBefore .bad byte

def inInlineImage (t : Tokenizer) (_byte : UInt8) : Tokenizer :=
  if t.raw.length + 1 = t.inlineImageBytes then
    { t with inlineImageBytes := 0 }.endWith .inlineImage
  else t

def handleCharacter (t : Tokenizer) (byte : UInt8) : Tokenizer :=
  match t.state with
  | .inSpace => t.handleInSpace byte
  | .inComment => t.handleInComment byte
  | .lt => t.inLt byte
  | .gt => t.inGt byte
  | .inString => t.handleInString byte
  | .name => t.inName byte
  | .number => t.inNumber byte
  | .real => t.inReal byte
  | .stringAfterCr => t.inStringAfterCr byte
  | .stringEscape => t.inStringEscape byte
  | .charCode => t.inCharCode byte
  | .literal => t.inLiteral byte
  | .inlineImage => t.inInlineImage byte
  | .inHexString => t.handleInHexString byte
  | .inHexStringSecond => t.handleInHexStringSecond byte
  | .nameHex1 => t.inNameHex1 byte
  | .nameHex2 => t.inNameHex2 byte
  | .sign => t.inSign byte
  | .decimal => t.inDecimal byte
  | .beforeToken => t.inBeforeToken byte
  | .tokenReady => t

/-- `present_character` on a tokenizer that is not waiting with a token. -/
def presentCharacter (t : Tokenizer) (byte : UInt8) : Tokenizer :=
  let t := t.handleCharacter byte
  if t.inToken then { t with raw := t.raw ++ [byte] } else t

/-- `present_eof`: an unfinished word is closed by an artificial form feed. -/
def presentEof (t : Tokenizer) : Tokenizer :=
  match t.state with
  | .name | .nameHex1 | .nameHex2 | .number | .real | .sign | .decimal | .literal =>
    { t.presentCharacter 0x0c with inToken := true, state := .tokenReady }
  | .beforeToken => t.endWith .eof
  | .inSpace => t.endWith (if t.includeIgnorable then .space else .eof)
  | .inComment => t.endWith (if t.includeIgnorable then .comment else .bad)
  | .tokenReady => t
  | .inHexString | .inString | .inHexStringSecond | .stringEscape | .charCode
  | .stringAfterCr | .lt | .gt | .inlineImage => t.badWith (ascii "EOF while reading token")

def takeReadyToken (t : Tokenizer) : Token where
  tokenType := t.tokenType
  value := if t.tokenType = .name ∨ t.tokenType = .string then t.value else t.raw
  raw := t.raw
  errorMessage := t.errorMessage
  errorOffset := t.tokenStart
  start := t.tokenStart
  endPos := t.tokenStart + t.raw.length

/-- What the loop of `read_token_with_options` does with a byte its handler has seen. -/
def afterCharacter (maxLen : ℕ) (t : Tokenizer) (byte : UInt8) : Tokenizer :=
  let t := if t.beforeToken then { t with tokenStart := t.tokenStart + 1 } else t
  let t := if t.inToken then { t with raw := t.raw ++ [byte] } else t
  if maxLen ≠ 0 ∧ maxLen ≤ t.raw.length ∧ t.state ≠ .tokenReady then
    t.badWith (ascii "exceeded allowable length while reading token")
  else t

/-- One round of that loop on an input byte. -/
def readByte (maxLen : ℕ) (t : Tokenizer) (byte : UInt8) : Tokenizer :=
  ({ t with pos := t.pos + 1 }.handleCharacter byte).afterCharacter maxLen byte

/-- The round of the loop that finds the input exhausted. -/
def readEof (t : Tokenizer) : Tokenizer :=
  let t := t.presentEof
  if t.tokenType = .eof ∧ !t.allowEof then
    { t with tokenType := .bad, errorMessage := some (ascii "unexpected EOF") }
  else t

/-- The loop of `read_token_with_options` over the input from the cursor on. -/
def readLoop (maxLen : ℕ) : Bytes → Tokenizer → Tokenizer
  | [], t => if t.state = .tokenReady then t else t.readEof
  | b :: rest, t => if t.state = .tokenReady then t else readLoop maxLen rest (t.readByte maxLen b)

/-- The state in which `read_token_with_options` enters its loop. -/
def beginRead (t : Tokenizer) : Tokenizer :=
  { (if t.state = .inlineImage then t else t.reset) with tokenStart := t.pos }

/-- The byte a token has ended in front of goes back to the input. -/
def unread (t : Tokenizer) : Tokenizer :=
  if !t.inToken && !t.beforeToken then { t with pos := t.pos - 1 } else t

/-- `read_token_with_options`; the tokenizer is the one left behind, also on an error. -/
def readTokenWithOptions (t : Tokenizer) (allowBad : Bool) (maxLen : ℕ) :
    Except (ℕ × Bytes) Token × Tokenizer :=
  let t := (readLoop maxLen (t.input.drop t.pos) t.beginRead).unread
  let token := t.takeReadyToken
  if token.tokenType = .bad ∧ !allowBad then
    (.error (token.start, token.errorMessage.getD (ascii "bad token")), t.reset)
  else (.ok token, t.reset)

/-- `read_qpdf_token`: bad tokens are ordinary values and EOF is a token. -/
def readQpdfToken (t : Tokenizer) (maxLen : ℕ) : Except (ℕ × Bytes) Token × Tokenizer :=
  { t with allowEof := true }.readTokenWithOptions true maxLen

def setPosition (t : Tokenizer) (position : ℕ) : Except (ℕ × Bytes) Tokenizer :=
  if t.input.length < position then
    .error (position, ascii "tokenizer position beyond end of input")
  else .ok { t with pos := position }.reset

end Tokenizer

end Flpdf
