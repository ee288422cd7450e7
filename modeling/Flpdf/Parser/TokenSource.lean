import Flpdf.Tokenizer.PushPull

/-!
# The token source of the parser

`LiveTokenSource` over a slice: the bytes of the input are presented to a push
tokenizer, and the source gives the token with its place in the input. It is
compared with the tokenizer that reads the input itself, which the parser's
model uses.
-/

namespace Flpdf

open Tokenizer

structure LiveTokenSource where
  input : Bytes
  pos : ℕ := 0
  tokenizer : Tokenizer
  lastOffset : ℕ := 0

/-- A live token with its place. -/
inductive LiveToken where
  | integer (value : ℤ) (start stop : ℕ)
  | bool (value : Bool) (start stop : ℕ)
  | simple (tokenType : TokenType) (start stop : ℕ)
  | owned (token : Token)

namespace LiveToken

def tokenType : LiveToken → TokenType
  | integer .. => .integer
  | bool .. => .bool
  | simple tokenType _ _ => tokenType
  | owned token => token.tokenType

def start : LiveToken → ℕ
  | integer _ start _ | bool _ start _ | simple _ start _ => start
  | owned token => token.start

def stop : LiveToken → ℕ
  | integer _ _ stop | bool _ _ stop | simple _ _ stop => stop
  | owned token => token.endPos

/-- What a parser takes from the token. -/
def value : LiveToken → TokenValue
  | integer value _ _ => .integer (.ok value)
  | bool value _ _ => .bool value
  | simple .. => .none
  | owned token => if token.tokenType = .bad then .none else .bytes token.value

/-- The variants the parser's `unreachable!` arms leave out: an owned token is
no integer, and a name is owned. -/
def Compact : LiveToken → Prop
  | owned token => token.tokenType ≠ .integer
  | live => live.tokenType ≠ .name

end LiveToken

/-- A ready token; one that has no live form is taken whole. -/
inductive Pushed where
  | live (pushed : PushedLiveToken)
  | token (pushed : PushedToken)

namespace Pushed

def unread : Pushed → Option UInt8
  | live pushed => pushed.unread
  | token pushed => pushed.unread

def rawLen : Pushed → ℕ
  | live pushed => pushed.rawLen
  | token pushed => pushed.token.raw.length

/-- The token of the parser at its place. -/
def place (start stop : ℕ) : Pushed → Except ParseError LiveToken
  | live (.integer pushed) => pushed.value.map fun value => .integer value start stop
  | live (.simple (.bool value _ _)) => .ok (.bool value start stop)
  | live (.simple (.simple tokenType _ _)) => .ok (.simple tokenType start stop)
  | live (.owned pushed) =>
    .ok (.owned ⟨pushed.tokenType, pushed.value, [], pushed.errorMessage, start, start, stop⟩)
  | token pushed =>
    .ok (.owned { pushed.token with start := start, errorOffset := start, endPos := stop })

end Pushed

namespace LiveTokenSource

/-- `get_live_token`, else `get_token`. -/
def take (t : Tokenizer) : Option (Pushed × Tokenizer) :=
  match t.getLiveToken with
  | some (pushed, t) => some (.live pushed, t)
  | none => t.getToken.map fun (pushed, t) => (.token pushed, t)

def new (input : Bytes) : LiveTokenSource where
  input := input
  tokenizer := { input := [], allowEof := true }

def stateError : ParseError := .internal (ascii "live tokenizer state error")

/-- `next_live_token`: the bytes up to the end of the token are presented, and
an unread one goes back to the input. -/
def nextLiveToken (s : LiveTokenSource) : Except ParseError (LiveToken × LiveTokenSource) :=
  match pushToken take Pushed.unread (s.input.drop s.pos) s.tokenizer with
  | .error _ | .ok none => .error stateError
  | .ok (some (pushed, left, tokenizer)) =>
    let stop := s.input.length - left.length
    let start := stop - pushed.rawLen
    (pushed.place start stop).map fun live =>
      (live, { s with pos := stop, tokenizer := tokenizer, lastOffset := start })

/-! ## The same tokens -/

/-- The source stands where the tokenizer of the parser's model stands. -/
structure Follows (s : LiveTokenSource) (t : Tokenizer) : Prop where
  input : s.input = t.input
  pos : s.pos = t.pos
  state : t.state ≠ .inlineImage
  pos_le : t.pos ≤ t.input.length
  ignorable : t.includeIgnorable = false
  alike : Alike t.reset s.tokenizer

theorem follows_new (input : Bytes) : Follows (new input) { input := input } where
  input := rfl
  pos := rfl
  state := nofun
  pos_le := Nat.zero_le _
  ignorable := rfl
  alike := rfl

variable {s : LiveTokenSource} {t : Tokenizer}

theorem take_of_not_ready (w : Tokenizer) (h : w.state ≠ .tokenReady) : take w = none := by
  rw [take, getLiveToken, if_neg h]
  dsimp only
  rw [getToken, if_neg h]
  rfl

variable {token : Token} {unread : Option UInt8} {live : PushedLiveToken}

/-- A report of an integer is an integer, and one of a name is owned. -/
theorem reports_variant (h : Reports (token, unread) live) :
    (∀ pushed, live = .owned pushed → pushed.tokenType ≠ .integer) ∧
      ∀ tokenType rawLen unread, live = .simple (.simple tokenType rawLen unread) →
        tokenType ≠ .name := by
  obtain ⟨htype, -, hvalue, -⟩ := h
  constructor
  · rintro pushed rfl hint
    have htoken : token.tokenType = .integer := htype.symm.trans hint
    simp [PushedLiveToken.value, Token.parsedValue, hint, htoken] at hvalue
  · rintro tokenType rawLen unread rfl rfl
    have htoken : token.tokenType = .name := htype.symm
    simp [PushedLiveToken.value, Token.parsedValue, htoken] at hvalue

/-- The token of a report, at its place; only an integer can fail. -/
theorem place_of_reports (h : Reports (token, unread) live) (start stop : ℕ) :
    (∃ e, Pushed.place start stop (.live live) = .error e ∧ token.tokenType = .integer ∧
        parseIntegerBytes token.value token.start = .error e) ∨
      ∃ placed, Pushed.place start stop (.live live) = .ok placed ∧ placed.Compact ∧
        placed.tokenType = token.tokenType ∧ placed.start = start ∧ placed.stop = stop ∧
        placed.value = token.parsedValue := by
  obtain ⟨howned, hsimple⟩ := reports_variant h
  obtain ⟨htype, -, hvalue, -⟩ := h
  rcases live with pushed | (⟨value, rawLen, back⟩ | ⟨tokenType, rawLen, back⟩) | pushed
  · have htoken : token.tokenType = .integer := htype.symm
    have hparsed : pushed.value = parseIntegerBytes token.value token.start := by
      simpa [PushedLiveToken.value, Token.parsedValue, htoken] using hvalue
    cases hint : pushed.value with
    | error e => exact .inl ⟨e, by rw [Pushed.place, hint]; rfl, htoken, hparsed ▸ hint⟩
    | ok value =>
      refine .inr ⟨.integer value start stop, by rw [Pushed.place, hint]; rfl, by rintro ⟨⟩, htoken.symm,
        rfl, rfl, ?_⟩
      rw [← hvalue, PushedLiveToken.value, hint]
      rfl
  · exact .inr ⟨.bool value start stop, rfl, by rintro ⟨⟩, htype, rfl, rfl, hvalue⟩
  · exact .inr ⟨.simple tokenType start stop, rfl, hsimple _ _ _ rfl, htype, rfl, rfl, hvalue⟩
  · exact .inr ⟨_, rfl, howned _ rfl, htype, rfl, rfl, hvalue⟩

/-- The source gives the tokens of the parser's model: the same type, place and
value, or the error of an integer that does not fit. -/
theorem nextLiveToken_eq (h : Follows s t) : ∃ token t',
    t.readQpdfToken 0 = (.ok token, t') ∧ ReadSpec { t with allowEof := true } token t' ∧
      ((∃ e, s.nextLiveToken = .error e ∧ token.tokenType = .integer ∧
          parseIntegerBytes token.value token.start = .error e) ∨
        ∃ live s', s.nextLiveToken = .ok (live, s') ∧ live.Compact ∧
          live.tokenType = token.tokenType ∧ live.start = token.start ∧
          live.stop = token.endPos ∧ live.value = token.parsedValue ∧ Follows s' t') := by
  generalize hT : ({ t with allowEof := true } : Tokenizer) = T
  have hbetween : Between T := hT ▸ ⟨h.state, h.pos_le, rfl⟩
  have hi : T.includeIgnorable = false := hT ▸ h.ignorable
  have halike : Alike T.reset s.tokenizer := hT ▸ h.alike
  have hinput : s.input = T.input := hT ▸ h.input
  have hpos : s.pos = T.pos := hT ▸ h.pos
  have hread : t.readQpdfToken 0 = T.readTokenWithOptions true 0 := by
    rw [readQpdfToken, hT]
  obtain ⟨token, t', hspec, hspecRead⟩ :=
    readTokenWithOptions_spec hbetween.state hbetween.pos_le true 0
  rw [hbetween.read] at hread hspecRead
  obtain ⟨rfl, rfl⟩ : T.lexToken 0 = token ∧ T.nextLoop.unread.reset = t' := by
    simpa using hspecRead
  refine ⟨T.lexToken 0, T.nextLoop.unread.reset, hread, hspec, ?_⟩
  obtain ⟨v, rest', hv⟩ := exists_pushedReady (t := T.reset) (by rintro ⟨⟩) (.skipping (skipping_reset T)) rfl
    hbetween.pos_le hbetween.allowEof halike
  obtain ⟨live, hlive, hunread, hreports⟩ := getLiveToken_reports hi hv.alike hv.ready hv.unread
  have htake : take v = some (.live live, v.reset) := by
    rw [take, hlive]
  have hpush : pushToken take Pushed.unread (s.input.drop s.pos) s.tokenizer =
      .ok (some (.live live, (Pushed.live live).unread.toList ++ rest', v.reset)) := by
    rw [hinput, hpos]
    exact hv.pushToken_eq Pushed.unread take_of_not_ready htake
  obtain ⟨hnext, hnextInput, hnextIgnorable⟩ := hbetween.next
  -- What is left to present is the input behind the token.
  have hleft : (Pushed.live live).unread.toList ++ rest' =
      T.input.drop T.nextLoop.unread.reset.pos := by
    rw [show (Pushed.live live).unread = live.unread from rfl, hunread, ← hv.left]
    rfl
  have hstop : s.input.length - ((Pushed.live live).unread.toList ++ rest').length =
      (T.lexToken 0).endPos := by
    rw [hleft, hinput, List.length_drop, ← hspec.pos]
    have := hspec.pos_le
    omega
  have hstart : (T.lexToken 0).endPos - (Pushed.live live).rawLen = (T.lexToken 0).start := by
    rw [show (Pushed.live live).rawLen = live.rawLen from rfl, hreports.rawLen, hspec.endPos]
    exact Nat.add_sub_cancel ..
  have hnextToken : s.nextLiveToken =
      ((Pushed.live live).place (T.lexToken 0).start (T.lexToken 0).endPos).map fun placed =>
        (placed, { s with pos := (T.lexToken 0).endPos, tokenizer := v.reset,
                          lastOffset := (T.lexToken 0).start }) := by
    rw [nextLiveToken, hpush]
    dsimp only
    rw [hstop, hstart]
  rcases place_of_reports hreports (T.lexToken 0).start (T.lexToken 0).endPos with
    ⟨e, hplace, htype, hparse⟩ | ⟨placed, hplace, hcompact, htype, hstart', hstop', hvalue⟩
  · exact .inl ⟨e, by rw [hnextToken, hplace]; rfl, htype, hparse⟩
  · refine .inr ⟨placed, _, by rw [hnextToken, hplace]; rfl, hcompact, htype, hstart', hstop',
      hvalue, ?_⟩
    exact
      { input := hinput.trans hnextInput.symm
        pos := hspec.pos.symm
        state := hnext.state
        pos_le := hnext.pos_le
        ignorable := hnextIgnorable.trans hi
        alike := hv.alike.reset.reset }

end LiveTokenSource

end Flpdf
