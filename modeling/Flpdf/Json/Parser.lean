import Flpdf.Json.Lexer

/-!
# The JSON parser

`handle_token` with its ten states and the loop of `parse`. The handle of a
container is shared with its parent; here the parent receives the container
when it is closed, under the key kept in the stack entry.
-/

namespace Flpdf.Json

inductive ParseState where
  | top | dictionaryBegin | dictionaryAfterKey | dictionaryAfterColon | dictionaryAfterItem
  | dictionaryAfterComma | arrayBegin | arrayAfterItem | arrayAfterComma | done
  deriving DecidableEq, Repr

/-- An open container, the state to go back to, the keys it has seen, and its
own key in a parent dictionary. -/
structure StackEntry where
  state : ParseState
  item : Json
  parsedKeys : List Bytes
  key : Bytes

structure Parser where
  lexer : Lexer := {}
  rest : Bytes
  parseState : ParseState := .top
  stack : List StackEntry := []
  dictKey : Bytes := []
  dictKeyOffset : ℤ := 0

namespace Parser

def offset (p : Parser) : ℤ := p.lexer.offset

/-- Add a finished value to the container on the top of the stack. -/
def attach (key : Bytes) (value : Json) : List StackEntry → Except Bytes (List StackEntry)
  | [] => .ok []
  | entry :: stack =>
    (if entry.item.isDictionary then entry.item.addDictionaryMember key value
      else entry.item.addArrayElement value).map fun item => { entry with item := item } :: stack

/-- A closing delimiter: the value goes to its parent, or stays as the result. -/
def closeContainer (p : Parser) : Except Bytes Parser :=
  match p.stack with
  | [] => .ok p
  | entry :: stack =>
    let item := entry.item.setEnd p.offset
    if entry.state = .done then
      .ok { p with parseState := .done, stack := { entry with item := item } :: stack }
    else
      (attach entry.key item stack).map fun stack =>
        { p with parseState := entry.state, stack := stack }

/-- A dictionary remembers a key when its value begins. -/
def checkKey (p : Parser) : Except Bytes Parser :=
  match p.stack with
  | [] => .ok p
  | entry :: stack =>
    if p.dictKey ∈ entry.parsedKeys then
      .error (ascii s!"JSON: offset {p.dictKeyOffset}: duplicated dictionary key")
    else
      .ok { p with stack := { entry with parsedKeys := p.dictKey :: entry.parsedKeys } :: stack }

/-- The state behind a value; the second match of `handle_token`. -/
def afterValue (p : Parser) : Except Bytes Parser :=
  match p.parseState with
  | .dictionaryBegin | .dictionaryAfterComma =>
    .error (ascii s!"JSON: offset {p.offset}: expect string as dictionary key")
  | .dictionaryAfterColon => p.checkKey.map fun p => { p with parseState := .dictionaryAfterItem }
  | .arrayBegin | .arrayAfterComma => .ok { p with parseState := .arrayAfterItem }
  | .top => .ok { p with parseState := .done }
  | .dictionaryAfterKey => .error (ascii s!"JSON: offset {p.offset}: expected ':'")
  | .dictionaryAfterItem => .error (ascii s!"JSON: offset {p.offset}: expected ',' or '\x7d'")
  | .arrayAfterItem => .error (ascii s!"JSON: offset {p.offset}: expected ',' or ']'")
  | .done => .ok p

/-- A container is opened; at most 500 may be open at a time. -/
def openContainer (p : Parser) (value : Json) : Except Bytes Parser :=
  let p : Parser :=
    { p with
      stack := ⟨p.parseState, value, [], p.dictKey⟩ :: p.stack
      parseState := if value.isDictionary then .dictionaryBegin else .arrayBegin }
  if p.stack.length > 500 then
    .error (ascii s!"JSON: offset {p.offset}: maximum object depth exceeded")
  else .ok p

def placeValue (p : Parser) (value : Json) : Except Bytes Parser :=
  match p.afterValue with
  | .error e => .error e
  | .ok p =>
    if value.isDictionary || value.isArray then p.openContainer value
    else if p.parseState = .done then
      .ok { p with stack := ⟨.done, value, [], p.dictKey⟩ :: p.stack }
    else (attach p.dictKey value p.stack).map fun stack => { p with stack := stack }

def handleKeyword (p : Parser) : Except Bytes Parser :=
  if p.lexer.token = ascii "true" then p.placeValue (.bool true p.lexer.tokenStart p.offset)
  else if p.lexer.token = ascii "false" then p.placeValue (.bool false p.lexer.tokenStart p.offset)
  else if p.lexer.token = ascii "null" then p.placeValue (.null p.lexer.tokenStart p.offset)
  else .error (ascii s!"JSON: offset {p.offset}: invalid keyword " ++ p.lexer.token)

/-- A string in the place of a key is a key. -/
def handleString (p : Parser) : Except Bytes Parser :=
  if p.parseState = .dictionaryBegin ∨ p.parseState = .dictionaryAfterComma then
    .ok { p with
      dictKey := p.lexer.token
      dictKeyOffset := p.lexer.tokenStart
      parseState := .dictionaryAfterKey }
  else p.placeValue (makeString p.lexer.token p.lexer.tokenStart p.offset)

def handleComma (p : Parser) : Except Bytes Parser :=
  match p.parseState with
  | .dictionaryAfterItem => .ok { p with parseState := .dictionaryAfterComma }
  | .arrayAfterItem => .ok { p with parseState := .arrayAfterComma }
  | _ => .error (ascii s!"JSON: offset {p.offset}: unexpected comma")

def handleColon (p : Parser) : Except Bytes Parser :=
  if p.parseState = .dictionaryAfterKey then .ok { p with parseState := .dictionaryAfterColon }
  else .error (ascii s!"JSON: offset {p.offset}: unexpected colon")

def handleEndArray (p : Parser) : Except Bytes Parser :=
  if p.parseState = .arrayBegin ∨ p.parseState = .arrayAfterItem then p.closeContainer
  else .error (ascii s!"JSON: offset {p.offset}: unexpected array end delimiter")

def handleEndDictionary (p : Parser) : Except Bytes Parser :=
  if p.parseState = .dictionaryBegin ∨ p.parseState = .dictionaryAfterItem then p.closeContainer
  else .error (ascii s!"JSON: offset {p.offset}: unexpected dictionary end delimiter")

/-- The dispatch on a token; the lexer has already gone back to the top. -/
def dispatch (p : Parser) (state : LexState) : Except Bytes Parser :=
  match state with
  | .beginDictionary => p.placeValue (.dictionary [] p.lexer.tokenStart p.offset)
  | .beginArray => p.placeValue (.array [] p.lexer.tokenStart p.offset)
  | .colon => p.handleColon
  | .comma => p.handleComma
  | .endArray => p.handleEndArray
  | .endDictionary => p.handleEndDictionary
  | .number => p.placeValue (.number p.lexer.token p.lexer.tokenStart p.offset)
  | .alpha => p.handleKeyword
  | .afterString => p.handleString
  | _ => .error (ascii s!"JSON: offset {p.offset}: premature end of input")

def handleToken (p : Parser) : Except Bytes Parser :=
  if p.lexer.state = .top then .ok p
  else if p.parseState = .done then
    .error (ascii s!"JSON: offset {p.offset}: material follows end of object: " ++ p.lexer.token)
  else { p with lexer := { p.lexer with state := .top } }.dispatch p.lexer.state

/-- The result once the input has ended. -/
def result (p : Parser) : Except Bytes Json :=
  if p.parseState = .done then
    match p.stack with
    | [] => .error []
    | entry :: _ => .ok entry.item
  else .error (ascii "JSON: premature end of input")

/-- One turn of the loop of `parse`. -/
def turn (p : Parser) : Except Bytes Parser :=
  match p.lexer.getToken p.rest with
  | .error e => .error e
  | .ok (lexer, rest) => { p with lexer := lexer, rest := rest }.handleToken

/-- The loop of `parse`; `none` when the fuel is used up. -/
def parseFrom : ℕ → Parser → Option (Except Bytes Json)
  | 0, _ => none
  | fuel + 1, p =>
    if p.lexer.done then some p.result
    else
      match p.turn with
      | .error e => some (.error e)
      | .ok p => parseFrom fuel p

end Parser

/-- `Json::parse`: every turn but the last takes a byte. -/
def parse (input : Bytes) : Option (Except Bytes Json) :=
  Parser.parseFrom (input.length + 2) { rest := input }

end Flpdf.Json
