import Flpdf.Tokenizer.Lossless
import Flpdf.Tokenizer.Regular

/-! # A token depends on its own bytes

What is read at a place of the input depends on the bytes from there on only,
and of those behind the token on nothing but whether they end it.
-/

namespace Flpdf.Tokenizer

variable {o t u : Tokenizer} {b d : UInt8} {l rest : Bytes}

/-! ## The place in the input -/

/-- The tokenizer at another place. -/
def place (input : Bytes) (pos start : ℕ) (allowEof : Bool) (t : Tokenizer) : Tokenizer :=
  { t with input := input, pos := pos, tokenStart := start, allowEof := allowEof }

section Place

variable {i : Bytes} {p s : ℕ} {e : Bool}

theorem place_inTop : (t.inTop b).place i p s e = (t.place i p s e).inTop b := by
  simp only [inTop, apply_ite (place i p s e)]
  rfl

theorem place_handleInString : (t.handleInString b).place i p s e = (t.place i p s e).handleInString b := by
  simp only [handleInString, apply_ite (place i p s e)]
  rfl

theorem place_inName : (t.inName b).place i p s e = (t.place i p s e).inName b := by
  simp only [inName, apply_ite (place i p s e)]
  rfl

theorem place_inLiteral : (t.inLiteral b).place i p s e = (t.place i p s e).inLiteral b := by
  simp only [inLiteral, apply_ite (place i p s e)]
  rfl

theorem place_handleInHexString :
    (t.handleInHexString b).place i p s e = (t.place i p s e).handleInHexString b := by
  unfold handleInHexString
  cases hexValue b with
  | some v => rfl
  | none =>
    simp only [apply_ite (place i p s e)]
    rfl

theorem place_inCharCode : (t.inCharCode b).place i p s e = (t.place i p s e).inCharCode b := by
  simp only [inCharCode, apply_ite (place i p s e), place_handleInString]
  rfl

/-- No handler looks at the place of the tokenizer. -/
theorem place_handleCharacter :
    (t.handleCharacter b).place i p s e = (t.place i p s e).handleCharacter b := by
  unfold handleCharacter
  have hstate : (t.place i p s e).state = t.state := rfl
  rw [hstate]
  cases t.state with
  | inHexString => exact place_handleInHexString
  | inString => exact place_handleInString
  | inHexStringSecond =>
    dsimp only
    unfold handleInHexStringSecond
    cases hexValue b with
    | some v => rfl
    | none =>
      simp only [apply_ite (place i p s e)]
      rfl
  | name => exact place_inName
  | literal => exact place_inLiteral
  | inSpace =>
    simp only [handleInSpace, apply_ite (place i p s e)]
    rfl
  | inComment =>
    simp only [handleInComment, apply_ite (place i p s e)]
    rfl
  | stringEscape =>
    simp only [inStringEscape, apply_ite (place i p s e), place_inCharCode]
    rfl
  | charCode => exact place_inCharCode
  | stringAfterCr =>
    simp only [inStringAfterCr, apply_ite (place i p s e), place_handleInString]
    rfl
  | lt =>
    simp only [inLt, apply_ite (place i p s e), place_handleInHexString]
    rfl
  | gt =>
    simp only [inGt, apply_ite (place i p s e)]
    rfl
  | inlineImage =>
    simp only [inInlineImage, apply_ite (place i p s e)]
    rfl
  | sign =>
    simp only [inSign, apply_ite (place i p s e), place_inLiteral]
    rfl
  | number =>
    simp only [inNumber, apply_ite (place i p s e)]
    rfl
  | real =>
    simp only [inReal, apply_ite (place i p s e)]
    rfl
  | decimal =>
    simp only [inDecimal, apply_ite (place i p s e), place_inLiteral]
    rfl
  | nameHex1 =>
    dsimp only
    unfold inNameHex1
    cases hexValue b with
    | some v => rfl
    | none => exact place_inName
  | nameHex2 =>
    dsimp only
    unfold inNameHex2
    cases hexValue b with
    | none => exact place_inName
    | some v =>
      simp only [apply_ite (place i p s e)]
      rfl
  | beforeToken =>
    simp only [inBeforeToken, apply_ite (place i p s e), place_inTop]
    rfl
  | tokenReady => rfl

theorem place_presentCharacter :
    (t.presentCharacter b).place i p s e = (t.place i p s e).presentCharacter b := by
  simp only [presentCharacter, ← place_handleCharacter, apply_ite (place i p s e)]
  rfl

theorem place_presentEof : t.presentEof.place i p s e = (t.place i p s e).presentEof := by
  unfold presentEof
  have hstate : (t.place i p s e).state = t.state := rfl
  rw [hstate]
  cases t.state with
  | name | nameHex1 | nameHex2 | number | real | sign | decimal | literal =>
    dsimp only
    rw [← place_presentCharacter]
    rfl
  | _ => rfl

end Place

/-- The tokenizer without its place in an input. -/
def core (t : Tokenizer) : Tokenizer := { t with input := [], pos := 0, tokenStart := 0 }

/-- A handler leaves the option for the end of the input alone. -/
theorem core_of_place {f : Tokenizer → Tokenizer} (hf : ∀ t i p s e, (f t).place i p s e = f (t.place i p s e)) :
    (f t).core = f t.core := by
  have hself := hf t t.input t.pos t.tokenStart t.allowEof
  have hallow : (f t).allowEof = t.allowEof := (congrArg allowEof hself).symm
  calc (f t).core = (f t).place [] 0 0 (f t).allowEof := rfl
    _ = (f t).place [] 0 0 t.allowEof := by rw [hallow]
    _ = f t.core := hf t [] 0 0 t.allowEof

theorem core_handleCharacter : (t.handleCharacter b).core = t.core.handleCharacter b :=
  core_of_place (f := fun t => t.handleCharacter b) fun _ _ _ _ _ => place_handleCharacter

theorem core_presentEof : t.presentEof.core = t.core.presentEof :=
  core_of_place (f := presentEof) fun _ _ _ _ _ => place_presentEof

theorem core_readEof : t.readEof.core = t.core.readEof := by
  unfold readEof
  rw [← core_presentEof, apply_ite core]
  rfl

theorem core_afterCharacter : (t.afterCharacter 0 b).core = (t.core.afterCharacter 0 b).core := by
  simp only [afterCharacter, ne_eq, not_true_eq_false, false_and, if_false, apply_ite core]
  have hbefore : t.core.beforeToken = t.beforeToken := rfl
  rw [hbefore]
  cases t.beforeToken with
  | true => rfl
  | false => rfl

theorem core_readByte :
    (t.readByte 0 b).core = ((t.core.handleCharacter b).afterCharacter 0 b).core := by
  have hchar : ((t.advance 1).handleCharacter b).core = t.core.handleCharacter b :=
    core_handleCharacter
  calc (t.readByte 0 b).core = (((t.advance 1).handleCharacter b).afterCharacter 0 b).core := rfl
    _ = ((t.core.handleCharacter b).afterCharacter 0 b).core := by rw [core_afterCharacter, hchar]

/-- The loop treats the input it is given, wherever that input stands. -/
theorem core_readLoop (l : Bytes) (h : t.core = u.core) :
    (readLoop 0 l t).core = (readLoop 0 l u).core := by
  have hstate : t.state = u.state := congrArg (·.state) h
  induction l generalizing t u with
  | nil =>
    simp only [readLoop, ← hstate]
    split_ifs
    · exact h
    · rw [core_readEof, core_readEof, h]
  | cons b l ih =>
    simp only [readLoop, ← hstate]
    split_ifs
    · exact h
    · have hbyte : (t.readByte 0 b).core = (u.readByte 0 b).core := by
        rw [core_readByte, core_readByte, h]
      exact ih hbyte (congrArg (·.state) hbyte)

/-! ## The end of a token -/

/-- What a token says, without its place. -/
structure Lexeme where
  tokenType : TokenType
  value : Bytes
  raw : Bytes
  deriving DecidableEq, Repr

def Lexeme.ofToken (t : Token) : Lexeme := ⟨t.tokenType, t.value, t.raw⟩

/-- The token a tokenizer is ready to hand out. -/
def ready (t : Tokenizer) : Lexeme := .ofToken t.takeReadyToken

theorem ready_congr (h : t.core = u.core) : t.ready = u.ready :=
  show t.core.ready = u.core.ready from congrArg ready h

/-- The bytes that end the token being read without joining it. -/
def closes (s : LexState) (d : UInt8) : Bool :=
  match s with
  | .name | .nameHex1 | .nameHex2 | .number | .real | .sign | .decimal | .literal =>
    isTokenDelimiter d
  | .inSpace => !isWs d
  | .inComment => d == 0x0d || d == 0x0a
  | .gt => d != 0x3e
  | _ => false

theorem word_closes {s : LexState} (h : s ∈ [LexState.name, .nameHex1, .nameHex2, .number, .real,
    .sign, .decimal, .literal]) : closes s d = isTokenDelimiter d := by
  simp only [List.mem_cons, List.not_mem_nil, or_false] at h
  rcases h with rfl | rfl | rfl | rfl | rfl | rfl | rfl | rfl <;> rfl

/-- All delimiters end a word in the same way. -/
theorem handleCharacter_word (hw : t.state ∈ [LexState.name, .nameHex1, .nameHex2, .number, .real,
    .sign, .decimal, .literal]) (hd : isTokenDelimiter d = true) :
    (t.handleCharacter d).inToken = false ∧ (t.handleCharacter d).state = .tokenReady ∧
      (t.handleCharacter d).ready = (t.handleCharacter 0x0c).ready := by
  have hff : isTokenDelimiter 0x0c = true := rfl
  have hx : hexValue 0x0c = none := rfl
  have hg : isAsciiDigit 0x0c = false := rfl
  obtain ⟨hxd, hgd, hdot⟩ : hexValue d = none ∧ isAsciiDigit d = false ∧ d ≠ 0x2e :=
    forall_byte (p := fun d => isTokenDelimiter d = true →
      hexValue d = none ∧ isAsciiDigit d = false ∧ d ≠ 0x2e) (by decide) d hd
  simp only [List.mem_cons, List.not_mem_nil, or_false] at hw
  rcases hw with hw | hw | hw | hw | hw | hw | hw | hw <;>
    simp [handleCharacter, hw, inName, inNameHex1, inNameHex2, inNumber, inReal, inSign, inDecimal,
      inLiteral, hd, hx, hg, hff, hxd, hgd, hdot, endBefore, push, goto, ready, Lexeme.ofToken,
      takeReadyToken]
  all_goals exact ⟨rfl, rfl⟩

theorem ready_readEof_of_ne (h : t.presentEof.tokenType ≠ .eof) :
    t.readEof.ready = t.presentEof.ready := by
  rw [readEof]
  simp [h]

/-- The end of the input ends a word as a delimiter does. -/
theorem readEof_word (hw : t.state ∈ [LexState.name, .nameHex1, .nameHex2, .number, .real,
    .sign, .decimal, .literal]) (hc : Collecting t) (ht : t.tokenType ≠ .eof) :
    t.readEof.ready = (t.handleCharacter 0x0c).ready := by
  have hchar : t.presentCharacter 0x0c = t.handleCharacter 0x0c := by
    simp [presentCharacter, formFeed_ends hw]
  have heof : t.presentEof =
      { t.handleCharacter 0x0c with inToken := true, state := .tokenReady } := by
    rw [← hchar]
    simp only [List.mem_cons, List.not_mem_nil, or_false] at hw
    rcases hw with hw | hw | hw | hw | hw | hw | hw | hw <;> simp [presentEof, hw]
  have hstep := (step_handleCharacter (b := 0x0c) hc).eof_of_eof
  rw [ready_readEof_of_ne (by rw [heof]; exact fun he => ht (hstep he)), heof]
  rfl

/-- What is left of the input decides only whether the token ends. -/
theorem readByte_closes (hc : Collecting t) (ht : t.tokenType ≠ .eof)
    (hd : closes t.state d = true) :
    (t.readByte 0 d).state = .tokenReady ∧ (t.readByte 0 d).ready = t.readEof.ready := by
  have hb := hc.started
  have key (hstop : ((t.advance 1).handleCharacter d).inToken = false)
      (hstate : ((t.advance 1).handleCharacter d).state = .tokenReady)
      (hsame : ((t.advance 1).handleCharacter d).ready = t.readEof.ready) :
      (t.readByte 0 d).state = .tokenReady ∧ (t.readByte 0 d).ready = t.readEof.ready := by
    have hnot : ((t.advance 1).handleCharacter d).beforeToken = false := by
      rcases (step_handleCharacter (b := d) (hc.withPos (t.pos + 1))).outcome with hu | hu
      · exact hu.started
      · exact hu.started
    have hbyte : t.readByte 0 d = (t.advance 1).handleCharacter d := by
      show ((t.advance 1).handleCharacter d).afterCharacter 0 d = _
      simp [afterCharacter, hnot, hstop]
    rw [hbyte]
    exact ⟨hstate, hsame⟩
  by_cases hw : t.state ∈ [LexState.name, .nameHex1, .nameHex2, .number, .real, .sign, .decimal,
      .literal]
  · rw [word_closes hw] at hd
    obtain ⟨hstop, hstate, hsame⟩ := handleCharacter_word (t := t.advance 1) hw hd
    refine key hstop hstate ?_
    rw [hsame, readEof_word hw hc ht]
    exact ready_congr (core_handleCharacter.trans (core_handleCharacter (t := t)).symm)
  · cases hs : t.state with
    | inSpace =>
      have hws : isWs d = false := by simpa [hs, closes] using hd
      have hi := hc.ignorable (.inl hs)
      have heof : t.presentEof = t.endWith .space := by simp [presentEof, hs, hi]
      have hchar : (t.advance 1).handleCharacter d = (t.advance 1).endBefore .space d := by
        simp [handleCharacter, advance, hs, handleInSpace, hws]
      refine key (by rw [hchar]; rfl) (by rw [hchar]; rfl) ?_
      rw [hchar, ready_readEof_of_ne (by simp [heof, endWith]), heof]
      rfl
    | inComment =>
      have hline : d = 0x0d ∨ d = 0x0a := by simpa [hs, closes] using hd
      have hi := hc.ignorable (.inr hs)
      have heof : t.presentEof = t.endWith .comment := by simp [presentEof, hs, hi]
      have hchar : (t.advance 1).handleCharacter d = (t.advance 1).endBefore .comment d := by
        simp [handleCharacter, advance, hs, handleInComment, hline, hi]
      refine key (by rw [hchar]; rfl) (by rw [hchar]; rfl) ?_
      rw [hchar, ready_readEof_of_ne (by simp [heof, endWith]), heof]
      rfl
    | gt =>
      have hne : d ≠ 0x3e := by simpa [hs, closes] using hd
      have heof : t.presentEof = t.badWith (ascii "EOF while reading token") := by
        simp [presentEof, hs]
      have hchar : (t.advance 1).handleCharacter d =
          { t.advance 1 with errorMessage := some (ascii "unexpected >") }.endBefore .bad d := by
        simp [handleCharacter, advance, hs, inGt, hne]
      refine key (by rw [hchar]; rfl) (by rw [hchar]; rfl) ?_
      rw [hchar, ready_readEof_of_ne (by simp [heof, badWith]), heof]
      rfl
    | name | nameHex1 | nameHex2 | number | real | sign | decimal | literal => simp [hs] at hw
    | _ => simp [hs, closes] at hd

theorem inToken_handleInString : (t.handleInString d).inToken = t.inToken := by
  simp [handleInString, apply_ite inToken, goto, push, endWith]

theorem inToken_inCharCode : (t.inCharCode d).inToken = t.inToken := by
  simp [inCharCode, apply_ite inToken, inToken_handleInString, goto, push]

theorem inToken_handleInHexString : (t.handleInHexString d).inToken = t.inToken := by
  unfold handleInHexString
  cases hexValue d <;> simp [apply_ite inToken, endWith, badWith]

theorem inToken_inName (hd : isTokenDelimiter d = false) : (t.inName d).inToken = t.inToken := by
  simp [inName, hd, apply_ite inToken, push]

theorem inToken_handleCharacter (hs : t.state ≠ .beforeToken) (hd : closes t.state d = false) :
    (t.handleCharacter d).inToken = t.inToken := by
  unfold handleCharacter
  cases h : t.state with
  | inHexString => exact inToken_handleInHexString
  | inString => exact inToken_handleInString
  | inHexStringSecond =>
    dsimp only
    unfold handleInHexStringSecond
    cases hexValue d <;> simp [apply_ite inToken, endWith, badWith, goto, push]
  | name | nameHex1 | nameHex2 =>
    have hdelim : isTokenDelimiter d = false := by simpa [h, closes] using hd
    dsimp only [inNameHex1, inNameHex2]
    first
    | exact inToken_inName hdelim
    | cases hexValue d <;> simp [inToken_inName hdelim, apply_ite inToken, push]
  | literal | sign | number | real | decimal =>
    have hdelim : isTokenDelimiter d = false := by simpa [h, closes] using hd
    simp [inLiteral, inSign, inNumber, inReal, inDecimal, hdelim, apply_ite inToken, goto]
  | inSpace =>
    have hws : isWs d = true := by simpa [h, closes] using hd
    simp [handleInSpace, hws]
  | inComment =>
    have hline : d ≠ 0x0d ∧ d ≠ 0x0a := by simpa [h, closes] using hd
    simp [handleInComment, hline]
  | stringEscape =>
    simp [inStringEscape, apply_ite inToken, inToken_inCharCode, goto, push]
  | charCode => exact inToken_inCharCode
  | stringAfterCr => simp [inStringAfterCr, apply_ite inToken, inToken_handleInString, goto]
  | lt => simp [inLt, apply_ite inToken, inToken_handleInHexString, goto, endWith]
  | gt =>
    have hgt : d = 0x3e := by simpa [h, closes] using hd
    simp [inGt, hgt, endWith]
  | inlineImage => simp [inInlineImage, apply_ite inToken, endWith]
  | beforeToken => exact absurd h hs
  | tokenReady => rfl

/-- A byte that does not end the token joins it. -/
theorem readByte_joins (hc : Collecting t) (hd : closes t.state d = false) :
    Collecting (t.readByte 0 d) ∧ (t.readByte 0 d).raw = t.raw ++ [d] ∧
      ((t.readByte 0 d).tokenType = .eof → t.tokenType = .eof) := by
  have hstep := step_handleCharacter (b := d) (hc.withPos (t.pos + 1))
  have hin : ((t.advance 1).handleCharacter d).inToken = true :=
    (inToken_handleCharacter (t := t.advance 1) hc.state_ne hd).trans hc.collects
  obtain ⟨-, -, -, hraw, -, -⟩ := frame_eq_iff.mp hstep.frame
  have hcollect : Collecting ((t.advance 1).handleCharacter d) := by
    rcases hstep.outcome with hu | hu
    · exact hu
    · exact absurd (hin.symm.trans hu.stopped) (by simp)
  have hbyte : t.readByte 0 d = { (t.advance 1).handleCharacter d with
      raw := ((t.advance 1).handleCharacter d).raw ++ [d] } := by
    show ((t.advance 1).handleCharacter d).afterCharacter 0 d = _
    simp [afterCharacter, hcollect.started, hin]
  rw [hbyte]
  exact ⟨⟨hcollect.started, hcollect.collects, hcollect.state_ne, hcollect.ignorable⟩,
    congrArg (· ++ [d]) hraw, hstep.eof_of_eof⟩

/-- `t` has read `pre` into its token and became `u`. -/
structure Collects (t u : Tokenizer) (pre : Bytes) : Prop where
  collecting : Collecting u
  raw : u.raw = t.raw ++ pre
  tokenType : u.tokenType = .eof → t.tokenType = .eof
  readLoop : ∀ rest, readLoop 0 (pre ++ rest) t = readLoop 0 rest u

theorem collects_nil (hc : Collecting t) : Collects t t [] :=
  ⟨hc, (List.append_nil _).symm, id, fun _ => rfl⟩

/-- Inside a token the input splits into what joins the token and what is left. -/
theorem exists_collects (hc : Collecting t) (l : Bytes) : ∃ pre post u, l = pre ++ post ∧
    Collects t u pre ∧
      (u.state = .tokenReady ∨ u.state ≠ .tokenReady ∧ ∀ d ∈ post.head?, closes u.state d = true) := by
  induction l generalizing t with
  | nil =>
    refine ⟨[], [], t, rfl, collects_nil hc, ?_⟩
    by_cases hr : t.state = .tokenReady
    · exact .inl hr
    · exact .inr ⟨hr, by simp⟩
  | cons b l ih =>
    by_cases hr : t.state = .tokenReady
    · exact ⟨[], b :: l, t, rfl, collects_nil hc, .inl hr⟩
    · cases hd : closes t.state b with
      | true => exact ⟨[], b :: l, t, rfl, collects_nil hc, .inr ⟨hr, by simpa using hd⟩⟩
      | false =>
        obtain ⟨hcollect, hraw, htype⟩ := readByte_joins hc hd
        obtain ⟨pre, post, u, rfl, hrun, hend⟩ := ih hcollect
        refine ⟨b :: pre, post, u, rfl, ⟨hrun.collecting, ?_, fun he => htype (hrun.tokenType he), ?_⟩, hend⟩
        · rw [hrun.raw, hraw, List.append_assoc]
          rfl
        · intro rest
          rw [List.cons_append, readLoop_cons hr, hrun.readLoop]

/-- The bytes in front of which a token behaves in the same way. -/
def SameKind (d d' : UInt8) : Prop :=
  isWs d = isWs d' ∧ isTokenDelimiter d = isTokenDelimiter d' ∧
    (d == 0x0d || d == 0x0a) = (d' == 0x0d || d' == 0x0a)

/-- Two remainders of an input that begin alike. -/
def BeginAlike (l l' : Bytes) : Prop :=
  l = [] ∧ l' = [] ∨ ∃ d d' r r', l = d :: r ∧ l' = d' :: r' ∧ SameKind d d'

theorem SameKind.closes {s : LexState} {d d' : UInt8} (h : SameKind d d') (hs : s ≠ .gt) :
    closes s d = closes s d' := by
  obtain ⟨hws, hdelim, hline⟩ := h
  cases s with
  | gt => exact absurd rfl hs
  | _ => simp [Tokenizer.closes, hws, hdelim, hline]

theorem readEof_raw (hc : Collecting t) (ht : t.tokenType ≠ .eof) :
    t.readEof.ready.raw = t.raw := by
  by_cases hw : t.state ∈ [LexState.name, .nameHex1, .nameHex2, .number, .real, .sign, .decimal,
      .literal]
  · rw [readEof_word hw hc ht]
    exact (frame_eq_iff.mp (step_handleCharacter (b := 0x0c) hc).frame).2.2.2.1
  · have hraw : t.presentEof.raw = t.raw := by
      cases hs : t.state <;> simp [presentEof, hs, endWith, badWith] at hw ⊢
    rw [← hraw, readEof]
    split_ifs <;> rfl

theorem readEof_gt (hs : t.state = .gt) : t.readEof.ready.tokenType = .bad := by
  simp [readEof, presentEof, hs, badWith, ready, Lexeme.ofToken, takeReadyToken]

/-- A remainder that ends the token counts no more than the end of the input. -/
theorem readLoop_of_closes (hc : Collecting t) (ht : t.tokenType ≠ .eof) (hr : t.state ≠ .tokenReady)
    (hend : ∀ d ∈ l.head?, closes t.state d = true) : (readLoop 0 l t).ready = t.readEof.ready := by
  cases l with
  | nil => rw [readLoop, if_neg hr]
  | cons d l =>
    obtain ⟨hready, hsame⟩ := readByte_closes hc ht (hend d (by simp))
    rw [readLoop_cons hr, readLoop_of_ready hready, hsame]

/-- The token that `t` is inside, in front of two remainders. -/
theorem ready_readLoop (hc : Collecting t) (ht : t.tokenType ≠ .eof)
    (hend : t.state = .tokenReady ∨ t.state ≠ .tokenReady ∧ ∀ d ∈ rest.head?, closes t.state d = true) :
    (readLoop 0 rest t).ready.raw = t.raw ∧
      ((readLoop 0 rest t).ready.tokenType ≠ .bad → ∀ rest', BeginAlike rest rest' →
        (readLoop 0 rest' t).ready = (readLoop 0 rest t).ready) := by
  rcases hend with hr | ⟨hr, hend⟩
  · rw [readLoop_of_ready hr]
    refine ⟨rfl, fun _ rest' _ => ?_⟩
    rw [readLoop_of_ready hr]
  · rw [readLoop_of_closes hc ht hr hend]
    refine ⟨readEof_raw hc ht, fun hbad rest' halike => readLoop_of_closes hc ht hr ?_⟩
    rcases halike with ⟨-, rfl⟩ | ⟨d, d', r, r', rfl, rfl, hkind⟩
    · simp
    · have hgt : t.state ≠ .gt := by
        intro hgt
        exact hbad (readEof_gt hgt)
      simpa [hkind.closes hgt] using hend

end Flpdf.Tokenizer
