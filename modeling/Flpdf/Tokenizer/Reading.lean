import Flpdf.Tokenizer.Spans

/-! # Inside a token

Round trips are run byte by byte.  `reading` is the tokenizer between two
bytes of a token, with everything it has collected spelled out.
-/

namespace Flpdf.Tokenizer

variable {t : Tokenizer} {b : UInt8} {rest : Bytes} {m : ℕ}

theorem readLoop_of_ready (h : t.state = .tokenReady) : readLoop m rest t = t := by
  cases rest <;> simp [readLoop, h]

theorem readLoop_cons (h : t.state ≠ .tokenReady) :
    readLoop m (b :: rest) t = readLoop m rest (t.readByte m b) := by
  simp [readLoop, h]

/-- A token started at the cursor of `o`, with its decoded value and its raw bytes so far. -/
def reading (o : Tokenizer) (state : LexState) (value raw : Bytes) : Tokenizer where
  input := o.input
  pos := o.pos + raw.length
  state := state
  allowEof := o.allowEof
  includeIgnorable := o.includeIgnorable
  value := value
  raw := raw
  beforeToken := false
  inToken := true
  tokenStart := o.pos

/-- A read whose loop ends with the last byte of its token. -/
theorem readTokenWithOptions_of_loop {o u : Tokenizer} (hs : o.state ≠ .inlineImage)
    (allowBad : Bool) (hu : readLoop m (o.input.drop o.pos) o.reset = u)
    (ht : u.tokenType ≠ .bad) :
    o.readTokenWithOptions allowBad m = (.ok u.unread.takeReadyToken, u.unread.reset) := by
  have hbad : u.unread.takeReadyToken.tokenType ≠ .bad := by
    unfold unread
    split_ifs <;> exact ht
  rw [readTokenWithOptions, beginRead_eq hs, hu]
  simp [hbad]

end Flpdf.Tokenizer
