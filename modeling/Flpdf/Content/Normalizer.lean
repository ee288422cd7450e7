import Flpdf.Tokenizer.Machine
import Flpdf.Syntax.Names
import Flpdf.Syntax.Strings

/-! # Content normalization

`normalize_content_stream`: the stage `QpdfTokenizer` cuts the content into tokens
and the filter `ContentNormalizer` writes them again.  Strings and names are written
from their values, white space byte by byte, everything else as it was.
-/

namespace Flpdf

/-- `value.strip_prefix(b"/").unwrap_or(value)`. -/
def withoutSlash (value : Bytes) : Bytes := if value.head? = some 0x2f then value.tail else value

def canonicalNameRaw (value : Bytes) : Bytes := 0x2f :: writeNameEscaped (withoutSlash value)

/-- `Token::new`. -/
def Token.new (tokenType : TokenType) (value : Bytes) : Token where
  tokenType := tokenType
  value := value
  raw :=
    match tokenType with
    | .name => canonicalNameRaw value
    | .string => canonicalStringRaw value
    | _ => value
  errorMessage := none
  errorOffset := 0
  start := 0
  endPos := 0

/-! ## Inline images -/

namespace Tokenizer

def consumeOneByteOr (t : Tokenizer) (default : UInt8) : UInt8 × Tokenizer :=
  (t.input[t.pos]?.getD default,
    { t with pos := if t.pos < t.input.length then t.pos + 1 else t.pos }.reset)

def isAsciiAlphabetic (byte : UInt8) : Bool :=
  (0x41 ≤ byte && byte ≤ 0x5a) || (0x61 ≤ byte && byte ≤ 0x7a)

/-- The scan of a word behind `EI`; `i8` makes the bytes from 128 on negative. -/
def wordIsSuspicious : Bool → Bool → Bytes → Bool
  | foundAlpha, foundOther, [] => foundAlpha && foundOther
  | foundAlpha, foundOther, byte :: rest =>
    if isAsciiAlphabetic byte || byte == 0x2a then wordIsSuspicious true foundOther rest
    else if (byte < 32 || 128 ≤ byte) && !isWs byte then true
    else wordIsSuspicious foundAlpha true rest

/-- The loop of `inline_lookahead_is_plausible`; bad tokens are not errors here. -/
def inlineLookahead (afterEi : ℕ) : ℕ → Tokenizer → Bool × ℕ
  | 0, t => (true, afterEi + t.pos)
  | n + 1, t =>
    match t.readTokenWithOptions true 0 with
    | (.error _, t') => (false, afterEi + t'.pos)
    | (.ok token, t') =>
      if token.tokenType = .eof then (true, afterEi + t'.pos)
      else if token.tokenType = .bad then (false, afterEi + t'.pos)
      else if token.tokenType = .word ∧ wordIsSuspicious false false token.value then
        (false, afterEi + t'.pos)
      else inlineLookahead afterEi n t'

def inlineLookaheadIsPlausible (input : Bytes) (afterEi : ℕ) : Bool × ℕ :=
  inlineLookahead afterEi 10 { input := input.drop afterEi, allowEof := true }

def wordTokenAt (input : Bytes) (start : ℕ) (expected : Bytes) : Option ℕ :=
  if start = 0 ∨ slice input start (start + expected.length) ≠ expected ∨
      (input[start + expected.length]?).any fun byte => !isTokenDelimiter byte then none
  else some (start + expected.length)

/-- The first position of `EI`. -/
def positionOfEi : Bytes → Option ℕ
  | [] => none
  | byte :: rest =>
    if byte = 0x45 ∧ rest.head? = some 0x49 then some 0 else (positionOfEi rest).map (· + 1)

/-- The loop of `find_ei`; the search position grows in every round. -/
def findEiLoop (input : Bytes) (initialPos : ℕ) : ℕ → ℕ → Option ℕ → Option ℕ
  | 0, _, candidateDistance => candidateDistance
  | fuel + 1, searchPos, candidateDistance =>
    match positionOfEi (input.drop searchPos) with
    | none => candidateDistance
    | some relativeStart =>
      let candidateStart := searchPos + relativeStart
      match wordTokenAt input candidateStart (ascii "EI") with
      | none => findEiLoop input initialPos fuel (candidateStart + 1) candidateDistance
      | some afterEi =>
        let lookahead := inlineLookaheadIsPlausible input afterEi
        if lookahead.1 then some (candidateStart - initialPos)
        else findEiLoop input initialPos fuel lookahead.2 (some (candidateStart - initialPos))

def findEi (t : Tokenizer) : Option ℕ := findEiLoop t.input t.pos (t.input.length + 1) t.pos none

/-- `expect_inline_image`; `none` is the error about the state. -/
def expectInlineImage (t : Tokenizer) : Option Tokenizer :=
  let t := if t.state = .tokenReady then t.reset else t
  if t.state ≠ .beforeToken then none
  else
    some { t with
      inlineImageBytes := t.findEi.getD 0, beforeToken := false, inToken := true
      state := .inlineImage }

end Tokenizer

/-! ## The filter -/

structure ContentNormalizer where
  anyBadTokens : Bool := false
  lastTokenWasBad : Bool := false
  deriving DecidableEq, Repr

structure ContentNormalization where
  bytes : Bytes
  anyBadTokens : Bool
  lastTokenWasBad : Bool
  deriving DecidableEq, Repr

namespace ContentNormalizer

/-- `write_space`: a carriage return becomes a newline or goes, if a newline follows it. -/
def writeSpace : Bytes → Bytes
  | [] => []
  | byte :: rest =>
    if byte = 0x0d then
      if rest.head? ≠ some 0x0a then 0x0a :: writeSpace rest else writeSpace rest
    else byte :: writeSpace rest

def isLineByte (byte : UInt8) : Bool := byte == 0x0d || byte == 0x0a

/-- `handle_token`: the state behind the token and the bytes written for it. -/
def handleToken (s : ContentNormalizer) (token : Token) : ContentNormalizer × Bytes :=
  let s :=
    if token.tokenType = .bad then ⟨true, true⟩
    else if token.tokenType ≠ .eof then { s with lastTokenWasBad := false }
    else s
  let written :=
    match token.tokenType with
    | .space => writeSpace token.raw
    | .string | .name => (Token.new token.tokenType token.value).raw
    | _ => token.raw
  let newline :=
    if (token.tokenType = .string ∨ token.tokenType = .name) ∧ token.raw.any isLineByte then [0x0a]
    else []
  (s, written ++ newline)

def finish (s : ContentNormalizer) (bytes : Bytes) : ContentNormalization :=
  ⟨bytes, s.anyBadTokens, s.lastTokenWasBad⟩

end ContentNormalizer

/-- The loop of `QpdfTokenizer::finish` with the normalizer as its filter. -/
def finishLoop : ℕ → Tokenizer → ContentNormalizer → Bytes → Option ContentNormalization
  | 0, _, _, _ => none
  | fuel + 1, t, s, output =>
    match t.readTokenWithOptions true 0 with
    | (.error _, _) => none
    | (.ok token, t') =>
      let handled := s.handleToken token
      if token.tokenType = .eof then some (handled.1.finish (output ++ handled.2))
      else if token.isWordValue (ascii "ID") then
        let separator := t'.consumeOneByteOr 0x20
        let spaced := handled.1.handleToken (Token.new .space [separator.1])
        match separator.2.expectInlineImage with
        | none => none
        | some t'' => finishLoop fuel t'' spaced.1 (output ++ handled.2 ++ spaced.2)
      else finishLoop fuel t' handled.1 (output ++ handled.2)

/-- `normalize_content_stream`; only an image at the end of the input takes a round without
a byte of its own. -/
def normalizeContentStream (input : Bytes) : Option ContentNormalization :=
  finishLoop (2 * input.length + 2)
    { input := input, allowEof := true, includeIgnorable := true } {} []

example : normalizeContentStream (ascii "q\rQ") = some ⟨ascii "q\nQ", false, false⟩ := by
  decide

end Flpdf
