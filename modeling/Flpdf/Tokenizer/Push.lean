import Flpdf.Parser.LiveParser

/-! # Tokens without an input

In push mode the tokenizer has no input: its caller presents one byte after the other, takes a
token when one is ready, and gets back a byte that does not belong to it.  A parser takes a live
token, whose value comes from the buffers of the tokenizer.
-/

namespace Flpdf

inductive TokenizerStateError where
  | tokenWaiting
  | improperInlineImageState
  deriving DecidableEq, Repr

structure PushedToken where
  token : Token
  unread : Option UInt8

/-- An integer, whose conversion may have failed. -/
structure PushedInteger where
  value : Except ParseError ℤ
  rawLen : ℕ
  unread : Option UInt8

inductive PushedSimpleToken where
  | bool (value : Bool) (rawLen : ℕ) (unread : Option UInt8)
  | simple (tokenType : TokenType) (rawLen : ℕ) (unread : Option UInt8)

structure PushedLiveOwnedToken where
  tokenType : TokenType
  value : Bytes
  errorMessage : Option Bytes
  rawLen : ℕ
  unread : Option UInt8

inductive PushedLiveToken where
  | integer (pushed : PushedInteger)
  | simple (pushed : PushedSimpleToken)
  | owned (pushed : PushedLiveOwnedToken)

namespace Tokenizer

/-- `present_character`. -/
def present (t : Tokenizer) (byte : UInt8) : Except TokenizerStateError Tokenizer :=
  if t.state = .tokenReady then .error .tokenWaiting else .ok (t.presentCharacter byte)

/-- The byte that a ready token does not take. -/
def unreadByte (t : Tokenizer) : Option UInt8 :=
  if !t.inToken && !t.beforeToken then t.charToUnread else none

def getToken (t : Tokenizer) : Option (PushedToken × Tokenizer) :=
  if t.state = .tokenReady then some (⟨t.takeReadyToken, t.unreadByte⟩, t.reset) else none

def getLiveToken (t : Tokenizer) : Option (PushedLiveToken × Tokenizer) :=
  if t.state = .tokenReady then
    match t.tokenType with
    | .integer =>
      some (.integer ⟨parseIntegerBytes t.raw t.tokenStart, t.raw.length, t.unreadByte⟩, t.reset)
    | .bool => some (.simple (.bool (t.raw = ascii "true") t.raw.length t.unreadByte), t.reset)
    | .arrayClose | .arrayOpen | .braceClose | .braceOpen | .dictClose | .dictOpen | .eof | .null =>
      some (.simple (.simple t.tokenType t.raw.length t.unreadByte), t.reset)
    | .name | .string =>
      some (.owned ⟨t.tokenType, t.value, t.errorMessage, t.raw.length, t.unreadByte⟩, t.reset)
    | .real | .word =>
      some (.owned ⟨t.tokenType, t.raw, t.errorMessage, t.raw.length, t.unreadByte⟩, t.reset)
    | .bad => some (.owned ⟨t.tokenType, [], t.errorMessage, t.raw.length, t.unreadByte⟩, t.reset)
    | .space | .comment | .inlineImage => none
  else none

/-! ## Reading a sequence of tokens -/

section Push

variable {α : Type} (get : Tokenizer → Option (α × Tokenizer)) (unread : α → Option UInt8)

/-- Bytes are presented until a token is ready; when there are none left, the end of the input is.
The bytes that are left come with the token, with an unread one in front. -/
def pushToken : Bytes → Tokenizer → Except TokenizerStateError (Option (α × Bytes × Tokenizer))
  | [], t =>
    match get t.presentEof with
    | some (token, t) => .ok (some (token, (unread token).toList, t))
    | none => .ok none
  | byte :: rest, t => do
    let t ← t.present byte
    match get t with
    | some (token, t) => return some (token, (unread token).toList ++ rest, t)
    | none => pushToken rest t

/-- The first tokens. -/
def pushTokens : ℕ → Bytes → Tokenizer → Except TokenizerStateError (List α)
  | 0, _, _ => .ok []
  | count + 1, bytes, t => do
    match ← pushToken get unread bytes t with
    | some (token, bytes, t) => return token :: (← pushTokens count bytes t)
    | none => return []

end Push

/-- The first tokens as `read_token_with_options` returns them, bad ones too. -/
def pullTokens : ℕ → Tokenizer → Except (ℕ × Bytes) (List Token)
  | 0, _ => .ok []
  | count + 1, t => do
    let (result, t) := t.readTokenWithOptions true 0
    return (← result) :: (← pullTokens count t)

end Tokenizer

/-! ## What a parser takes from a token -/

/-- The value of a token, as far as it has one. -/
inductive TokenValue where
  | integer (value : Except ParseError ℤ)
  | bool (value : Bool)
  | bytes (value : Bytes)
  | none

/-- What a token says. -/
def Token.content (token : Token) : TokenType × Bytes × Bytes × Option Bytes :=
  (token.tokenType, token.value, token.raw, token.errorMessage)

/-- `parse_integer_token` for an integer, and what `parse_owned_scalar_token` looks at for the others. -/
def Token.parsedValue (token : Token) : TokenValue :=
  match token.tokenType with
  | .integer => .integer (parseIntegerBytes token.value token.start)
  | .bool => .bool (token.value = ascii "true")
  | .name | .string | .real | .word => .bytes token.value
  | _ => .none

namespace PushedLiveToken

def tokenType : PushedLiveToken → TokenType
  | integer _ => .integer
  | simple (.bool ..) => .bool
  | simple (.simple tokenType ..) => tokenType
  | owned pushed => pushed.tokenType

def rawLen : PushedLiveToken → ℕ
  | integer pushed => pushed.rawLen
  | simple (.bool _ rawLen _) => rawLen
  | simple (.simple _ rawLen _) => rawLen
  | owned pushed => pushed.rawLen

def unread : PushedLiveToken → Option UInt8
  | integer pushed => pushed.unread
  | simple (.bool _ _ unread) => unread
  | simple (.simple _ _ unread) => unread
  | owned pushed => pushed.unread

/-- A bad token has no value. -/
def value : PushedLiveToken → TokenValue
  | integer pushed => .integer pushed.value
  | simple (.bool value ..) => .bool value
  | simple (.simple ..) => .none
  | owned pushed => if pushed.tokenType = .bad then .none else .bytes pushed.value

end PushedLiveToken

end Flpdf
