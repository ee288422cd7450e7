import Flpdf.Tokenizer.Regular

/-! # What the next token is

A token behind a gap is a run of regular bytes or starts with a delimiter.  In
the second case it is never an integer or a word, whatever the bytes are; in the
first case the run says which of them it is.
-/

namespace Flpdf

/-- The numbers and the words: what only a run of regular bytes can be. -/
def isRunType : TokenType → Bool
  | .integer | .real | .word => true
  | _ => false

/-- What a token that starts with a delimiter can be. -/
def isDelimitedType : TokenType → Bool
  | .integer | .real | .word | .space | .comment | .inlineImage => false
  | _ => true

theorem isRunType_of_isDelimitedType {type : TokenType} (h : isDelimitedType type = true) :
    isRunType type = false := by
  cases type <;> first | rfl | cases h

namespace Tokenizer

variable {o t : Tokenizer} {b : UInt8} {rest : Bytes} {m : ℕ}

/-! ## Tokens that start with a delimiter -/

/-- The states a token that starts with a delimiter goes through. -/
def isDelimitedState : LexState → Bool
  | .inHexString | .inString | .inHexStringSecond | .name | .stringEscape | .charCode
  | .stringAfterCr | .lt | .gt | .nameHex1 | .nameHex2 | .tokenReady => true
  | _ => false

/-- `t` is inside, or has just ended, a token that is neither a number nor a word. -/
structure Delimited (t : Tokenizer) : Prop where
  state : isDelimitedState t.state = true
  tokenType : isDelimitedType t.tokenType = true

theorem Delimited.goto (h : Delimited t) {s : LexState} (hs : isDelimitedState s = true) :
    Delimited (t.goto s) := ⟨hs, h.tokenType⟩

theorem Delimited.push (h : Delimited t) (bytes : Bytes) : Delimited (t.push bytes) :=
  ⟨h.state, h.tokenType⟩

theorem delimited_badWith (t : Tokenizer) (message : Bytes) : Delimited (t.badWith message) :=
  ⟨rfl, rfl⟩

theorem delimited_inName (h : Delimited t) : Delimited (t.inName b) := by
  unfold inName
  split_ifs
  · exact ⟨rfl, rfl⟩
  · exact ⟨rfl, rfl⟩
  · exact ⟨rfl, h.tokenType⟩
  · exact h.push _

theorem delimited_handleInString (h : Delimited t) : Delimited (t.handleInString b) := by
  unfold handleInString
  split_ifs
  · exact h.goto rfl
  · exact ⟨h.state, h.tokenType⟩
  · exact ⟨rfl, rfl⟩
  · exact ⟨h.state, h.tokenType⟩
  · exact (h.push _).goto rfl
  · exact h.push _

theorem delimited_handleInHexString (h : Delimited t) : Delimited (t.handleInHexString b) := by
  unfold handleInHexString
  cases hexValue b with
  | some v => exact ⟨rfl, h.tokenType⟩
  | none =>
    dsimp only
    split_ifs
    · exact ⟨rfl, rfl⟩
    · exact h
    · exact delimited_badWith t _

theorem delimited_handleInHexStringSecond (h : Delimited t) :
    Delimited (t.handleInHexStringSecond b) := by
  unfold handleInHexStringSecond
  cases hexValue b with
  | some v => exact (h.push _).goto rfl
  | none =>
    dsimp only
    split_ifs
    · exact ⟨rfl, rfl⟩
    · exact h
    · exact delimited_badWith t _

theorem delimited_inCharCode (h : Delimited t) : Delimited (t.inCharCode b) := by
  unfold inCharCode
  dsimp only
  split_ifs
  · exact ⟨h.state, h.tokenType⟩
  · exact ⟨rfl, h.tokenType⟩
  · exact delimited_handleInString ((h.push _).goto rfl)

theorem delimited_inStringEscape (h : Delimited t) : Delimited (t.inStringEscape b) := by
  have hback : Delimited (t.goto .inString) := h.goto rfl
  unfold inStringEscape
  split_ifs
  · exact delimited_inCharCode ⟨rfl, h.tokenType⟩
  any_goals exact hback.push _
  · exact hback
  · exact h.goto rfl

theorem delimited_inNameHex2 (h : Delimited t) : Delimited (t.inNameHex2 b) := by
  unfold inNameHex2
  cases hexValue b with
  | none => exact delimited_inName ⟨rfl, h.tokenType⟩
  | some v =>
    dsimp only
    split_ifs <;> exact ⟨rfl, h.tokenType⟩

theorem delimited_handleCharacter (h : Delimited t) : Delimited (t.handleCharacter b) := by
  unfold handleCharacter
  cases hs : t.state with
  | lt =>
    simp only [inLt]
    split_ifs
    · exact ⟨rfl, rfl⟩
    · exact delimited_handleInHexString (h.goto rfl)
  | gt =>
    simp only [inGt]
    split_ifs
    · exact ⟨rfl, rfl⟩
    · exact ⟨rfl, rfl⟩
  | inString => exact delimited_handleInString h
  | name => exact delimited_inName h
  | stringAfterCr =>
    simp only [inStringAfterCr]
    split_ifs
    · exact h.goto rfl
    · exact delimited_handleInString (h.goto rfl)
  | stringEscape => exact delimited_inStringEscape h
  | charCode => exact delimited_inCharCode h
  | inHexString => exact delimited_handleInHexString h
  | inHexStringSecond => exact delimited_handleInHexStringSecond h
  | nameHex1 =>
    simp only [inNameHex1]
    cases hexValue b with
    | some v => exact ⟨rfl, h.tokenType⟩
    | none => exact delimited_inName ⟨rfl, h.tokenType⟩
  | nameHex2 => exact delimited_inNameHex2 h
  | tokenReady => exact h
  | _ =>
    have := h.state
    simp [hs, isDelimitedState] at this

theorem delimited_afterCharacter (h : Delimited t) : Delimited (t.afterCharacter m b) := by
  rw [afterCharacter]
  split_ifs <;> first | exact delimited_badWith _ _ | exact ⟨h.state, h.tokenType⟩

theorem delimited_readByte (h : Delimited t) : Delimited (t.readByte m b) :=
  delimited_afterCharacter (delimited_handleCharacter ⟨h.state, h.tokenType⟩)

theorem delimited_readEof (h : Delimited t) : isDelimitedType t.readEof.tokenType = true := by
  have hff := delimited_handleCharacter (b := 0x0c) h
  have hchar : (t.presentCharacter 0x0c).tokenType = (t.handleCharacter 0x0c).tokenType := by
    unfold presentCharacter
    dsimp only
    split_ifs <;> rfl
  have heof : isDelimitedType t.presentEof.tokenType = true := by
    unfold presentEof
    have hstate := h.state
    cases hs : t.state with
    | name | nameHex1 | nameHex2 => exact hchar ▸ hff.tokenType
    | tokenReady => exact h.tokenType
    | inHexString | inString | inHexStringSecond | stringEscape | charCode | stringAfterCr
    | lt | gt => rfl
    | _ => simp [hs, isDelimitedState] at hstate
  unfold readEof
  dsimp only
  split_ifs
  · rfl
  · exact heof

theorem delimited_readLoop (h : Delimited t) :
    isDelimitedType (readLoop m rest t).tokenType = true := by
  induction rest generalizing t with
  | nil =>
    rw [readLoop]
    split_ifs
    · exact h.tokenType
    · exact delimited_readEof h
  | cons b rest ih =>
    rw [readLoop]
    split_ifs
    · exact h.tokenType
    · exact ih (delimited_readByte h)

/-- A delimiter in front of a token settles that it is no integer and no word. -/
theorem delimited_first (hb : isTokenDelimiter b = true) (hws : isWs b = false)
    (hpercent : b ≠ 0x25) : Delimited ((o.skipping false).readByte m b) := by
  have hcases : b = 0x28 ∨ b = 0x29 ∨ b = 0x3c ∨ b = 0x3e ∨ b = 0x5b ∨ b = 0x5d ∨ b = 0x7b ∨
      b = 0x7d ∨ b = 0x2f := by
    simp only [isTokenDelimiter, isDelimiter, hws, Bool.false_or, Bool.or_eq_true, beq_iff_eq] at hb
    tauto
  apply delimited_afterCharacter
  simp only [handleCharacter, skipping, inBeforeToken, hws, hpercent, Bool.false_eq_true, if_false]
  rcases hcases with rfl | rfl | rfl | rfl | rfl | rfl | rfl | rfl | rfl <;> exact ⟨rfl, rfl⟩

/-! ## The next token -/

/-- The token `read_qpdf_token` returns. -/
def lexToken (o : Tokenizer) (m : ℕ) : Token :=
  (readLoop m (o.input.drop o.pos) o.reset).unread.takeReadyToken

theorem readQpdfToken_eq (hs : o.state ≠ .inlineImage) :
    (o.readQpdfToken m).1 = .ok ({ o with allowEof := true }.lexToken m) := by
  have hs' : ({ o with allowEof := true } : Tokenizer).state ≠ .inlineImage := hs
  rw [readQpdfToken, readTokenWithOptions, beginRead_eq hs']
  simp [lexToken]

theorem takeReadyToken_unread_type : t.unread.takeReadyToken.tokenType = t.tokenType := by
  unfold unread
  split_ifs <;> rfl

/-- The input from the cursor on, behind its gap. -/
def upcoming (o : Tokenizer) : Bytes := skipGap false (o.input.drop o.pos)

/-- Where the token behind the gap starts. -/
def upcomingStart (o : Tokenizer) : ℕ := o.pos + ((o.input.drop o.pos).length - o.upcoming.length)

theorem lexToken_eq (hi : o.includeIgnorable = false) : ∃ c,
    o.lexToken m = (readLoop m o.upcoming
      (({ o with pos := o.upcomingStart } : Tokenizer).skipping c)).unread.takeReadyToken ∧
      (o.upcoming ≠ [] → c = false) := by
  obtain ⟨c, hloop, hc⟩ := readLoop_skipGap (o := o) (m := m) hi false (o.input.drop o.pos)
  refine ⟨c, ?_, hc⟩
  have hreset : o.reset = o.skipping false := rfl
  rw [lexToken, hreset, hloop]
  rfl

/-- A run within the length limit is the token. -/
theorem lexToken_run (hi : o.includeIgnorable = false) (hrun : regularRun o.upcoming ≠ [])
    (hm : m = 0 ∨ (regularRun o.upcoming).length < m) :
    o.lexToken m =
      runToken o.upcomingStart (runState (regularRun o.upcoming)) (regularRun o.upcoming) := by
  obtain ⟨c, htoken, hc⟩ := lexToken_eq (m := m) hi
  cases hup : o.upcoming with
  | nil =>
    rw [hup] at hrun
    exact absurd rfl hrun
  | cons b rest =>
    obtain rfl := hc (by simp [hup])
    rw [htoken, hup]
    rw [hup] at hrun hm
    have hb : isRegular b = true := by
      by_contra hb
      exact hrun (regularRun_cons_of_delimiter (by simpa [isRegular] using hb) rest)
    have hsplit : regularRun (b :: rest) = b :: regularRun rest :=
      regularRun_cons_of_regular hb rest
    rw [hsplit] at hm ⊢
    rw [List.length_cons] at hm
    rw [readLoop_cons (skipping_not_ready false), readByte_first hb (by omega)]
    have hrest : rest = regularRun rest ++ rest.dropWhile isRegular :=
      (List.takeWhile_append_dropWhile).symm
    conv_lhs => rw [hrest]
    rw [readLoop_run (regularRun rest) (fun a ha => regular_of_mem_regularRun ha) (isRunState_firstState b)
      (by simp; omega)]
    refine takeReadyToken_run (isRunState_runState (b :: regularRun rest)) ?_
    intro d hd
    have hnot := List.head?_dropWhile_not isRegular rest
    rw [Option.mem_def.mp hd] at hnot
    simpa [isRegular] using hnot

/-- Anything else is a token that starts with a delimiter, or the end of the input. -/
theorem lexToken_delimited (hi : o.includeIgnorable = false) (hone : m = 0 ∨ 1 < m)
    (hrun : regularRun o.upcoming = [] ∨ m ≠ 0 ∧ m ≤ (regularRun o.upcoming).length) :
    isDelimitedType (o.lexToken m).tokenType = true := by
  obtain ⟨c, htoken, hc⟩ := lexToken_eq (m := m) hi
  rw [htoken, takeReadyToken_unread_type]
  cases hup : o.upcoming with
  | nil =>
    rw [readLoop, if_neg (skipping_not_ready c)]
    cases c <;>
      simp only [readEof, presentEof, skipping, reset, endWith, hi, if_true, if_false,
        Bool.false_eq_true] <;> split_ifs <;> simp [isDelimitedType]
  | cons b rest =>
    obtain rfl := hc (by simp [hup])
    have hhead := skipGap_head hup
    rw [readLoop_cons (skipping_not_ready false)]
    by_cases hb : isRegular b = true
    · have hsplit : regularRun (b :: rest) = b :: regularRun rest :=
        regularRun_cons_of_regular hb rest
      rw [hup, hsplit] at hrun
      obtain ⟨hm, hlen⟩ := hrun.resolve_left (by simp)
      rw [List.length_cons] at hlen
      have hrest : rest = regularRun rest ++ rest.dropWhile isRegular :=
        (List.takeWhile_append_dropWhile).symm
      rw [readByte_first hb hone]
      conv_lhs => rw [hrest]
      rw [readLoop_run_limit (regularRun rest) (fun a ha => regular_of_mem_regularRun ha) (isRunState_firstState b) hm
          (by simp; omega) (by simp; omega)]
      rfl
    · have hd : isTokenDelimiter b = true := by
        simpa [isRegular] using hb
      exact delimited_readLoop (delimited_first hd hhead.1 hhead.2)

/-- It is neither a number nor a word. -/
theorem lexToken_other (hi : o.includeIgnorable = false) (hone : m = 0 ∨ 1 < m)
    (hrun : regularRun o.upcoming = [] ∨ m ≠ 0 ∧ m ≤ (regularRun o.upcoming).length) :
    isRunType (o.lexToken m).tokenType = false :=
  isRunType_of_isDelimitedType (lexToken_delimited hi hone hrun)

/-! ## Integers -/

theorem foldl_nextState_off_number (digits : Bytes) {s : LexState}
    (hs : s = .real ∨ s = .decimal ∨ s = .literal) : digits.foldl nextState s ≠ .number := by
  induction digits generalizing s with
  | nil => rcases hs with rfl | rfl | rfl <;> simp
  | cons d digits ih =>
    rw [List.foldl_cons]
    apply ih
    rcases hs with rfl | rfl | rfl
    · simp only [nextState]
      split_ifs <;> simp
    · simp only [nextState]
      split_ifs <;> simp
    · simp [nextState]

theorem foldl_nextState_number (digits : Bytes) :
    digits.foldl nextState .number = .number ↔ digits.all isAsciiDigit = true := by
  induction digits with
  | nil => simp
  | cons d digits ih =>
    rw [List.foldl_cons, List.all_cons, Bool.and_eq_true]
    by_cases hd : isAsciiDigit d = true
    · simp only [nextState, hd, if_true, ih, true_and]
    · have hoff : nextState .number d = .real ∨ nextState .number d = .literal := by
        simp only [nextState, if_neg hd]
        split_ifs <;> simp
      have := foldl_nextState_off_number digits (s := nextState .number d) (by tauto)
      simp [this, hd]

theorem foldl_nextState_sign (digits : Bytes) :
    digits.foldl nextState .sign = .number ↔
      digits ≠ [] ∧ digits.all isAsciiDigit = true := by
  cases digits with
  | nil => simp
  | cons d digits =>
    rw [List.foldl_cons, List.all_cons, Bool.and_eq_true]
    by_cases hd : isAsciiDigit d = true
    · simp [nextState, hd, foldl_nextState_number]
    · have hoff : nextState .sign d = .decimal ∨ nextState .sign d = .literal := by
        simp only [nextState, if_neg hd]
        split_ifs <;> simp
      have := foldl_nextState_off_number digits (s := nextState .sign d) (by tauto)
      simp [this, hd]

/-- A run is in the number state exactly when it spells an integer. -/
theorem runState_eq_number (run : Bytes) : runState run = .number ↔ isIntText run = true := by
  cases run with
  | nil => simp [runState, isIntText, splitSign]
  | cons b rest =>
    rw [runState, firstState]
    by_cases hd : isAsciiDigit b = true
    · have hne := isAsciiDigit_not_space b hd
      have hsign : splitSign (b :: rest) = (false, b :: rest) := by
        unfold splitSign
        split <;> simp_all
      rw [if_pos hd, foldl_nextState_number, isIntText, hsign]
      simp [hd]
    · rw [if_neg hd]
      by_cases hs : b = 0x2b ∨ b = 0x2d
      · have hsign : (splitSign (b :: rest)).2 = rest := by
          rcases hs with rfl | rfl <;> rfl
        rw [if_pos hs, foldl_nextState_sign, isIntText, hsign]
        simp
      · have hsign : splitSign (b :: rest) = (false, b :: rest) := by
          unfold splitSign
          split <;> simp_all
        rw [if_neg hs, isIntText, hsign]
        have hoff := foldl_nextState_off_number rest
          (s := if b = 0x2e then .decimal else .literal) (by split_ifs <;> simp)
        simp [hoff, hd]

theorem runType_eq_integer (run : Bytes) :
    runType (runState run) run = .integer ↔ isIntText run = true := by
  rw [← runState_eq_number]
  cases runState run with
  | number | real => simp [runType]
  | _ =>
    simp only [runType, reduceCtorEq, iff_false]
    split_ifs <;> simp

theorem runToken_isInteger (start : ℕ) (run : Bytes) :
    (runToken start (runState run) run).isInteger = isIntText run := by
  rw [Bool.eq_iff_iff, ← runType_eq_integer]
  simp [Token.isInteger, runToken]

/-- The next token is an integer exactly when the run in front is an integer text
within the length limit; it is then that run. -/
theorem lexToken_isInteger (hi : o.includeIgnorable = false) (hone : m = 0 ∨ 1 < m) :
    (o.lexToken m).isInteger = true ↔
      isIntText (regularRun o.upcoming) = true ∧
        (m = 0 ∨ (regularRun o.upcoming).length < m) := by
  by_cases hrun : regularRun o.upcoming = []
  · have hother := lexToken_other hi hone (.inl hrun)
    rw [hrun]
    simp only [Token.isInteger, beq_iff_eq]
    constructor
    · intro h
      rw [h] at hother
      cases hother
    · rintro ⟨h, _⟩
      simp [isIntText, splitSign] at h
  · by_cases hm : m = 0 ∨ (regularRun o.upcoming).length < m
    · rw [lexToken_run hi hrun hm, runToken_isInteger]
      simp [hm]
    · have hother := lexToken_other hi hone (.inr (by omega))
      simp only [hm, and_false, iff_false]
      intro h
      rw [Token.isInteger, beq_iff_eq] at h
      rw [h] at hother
      cases hother

/-- The next token is the word `obj` exactly when the run in front is. -/
theorem lexToken_isWordValue_obj (hi : o.includeIgnorable = false) (hm : m = 0 ∨ 3 < m) :
    (o.lexToken m).isWordValue (ascii "obj") = true ↔
      regularRun o.upcoming = ascii "obj" := by
  have hother : isRunType (o.lexToken m).tokenType = false →
      (o.lexToken m).isWordValue (ascii "obj") = false := by
    intro h
    rw [Token.isWordValue, Bool.and_eq_false_iff]
    left
    rw [beq_eq_false_iff_ne]
    intro hword
    rw [hword] at h
    cases h
  by_cases hrun : regularRun o.upcoming = ascii "obj"
  · have hlen : (regularRun o.upcoming).length = 3 := by
      rw [hrun]
      rfl
    rw [lexToken_run hi (by rw [hrun]; decide) (by omega), hrun]
    simp only [iff_true]
    rfl
  · simp only [hrun, iff_false, Bool.not_eq_true]
    by_cases hne : regularRun o.upcoming = []
    · exact hother (lexToken_other hi (by omega) (.inl hne))
    · by_cases hlen : m = 0 ∨ (regularRun o.upcoming).length < m
      · rw [lexToken_run hi hne hlen, Token.isWordValue, Bool.and_eq_false_iff]
        right
        rw [beq_eq_false_iff_ne]
        exact hrun
      · exact hother (lexToken_other hi (by omega) (.inr (by omega)))

end Tokenizer

end Flpdf
