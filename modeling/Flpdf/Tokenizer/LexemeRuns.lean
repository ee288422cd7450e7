import Flpdf.Tokenizer.Locality
import Flpdf.Syntax.NameMessages
import Flpdf.Syntax.StringRoundTrip

/-! # The lexemes of a byte string

With white space and comments returned as tokens, reading to the end of an input
cuts it into lexemes.  What a lexeme is can be told from its first byte.
-/

namespace Flpdf.Tokenizer

variable {o t u : Tokenizer} {b d : UInt8} {l rest : Bytes}

/-- A tokenizer that returns white space and comments as tokens, in front of its input. -/
def fresh : Tokenizer := { input := [], allowEof := true, includeIgnorable := true }

/-- What is read at the start of a byte string. -/
def lexeme (l : Bytes) : Lexeme := (readLoop 0 l fresh).ready

theorem collecting_fresh (b : UInt8) : Collecting (fresh.readByte 0 b) ∧
    (fresh.readByte 0 b).raw = [b] ∧ (fresh.readByte 0 b).tokenType ≠ .eof := by
  have hskip : Skipping 0 fresh := skipping_reset fresh
  have hfirst : Collecting ((fresh.advance 1).handleCharacter b) ∧
      ((fresh.advance 1).handleCharacter b).frame = (fresh.advance 1).frame ∧
      ((fresh.advance 1).handleCharacter b).tokenType ≠ .eof := by
    rcases hskip.inBeforeToken_cases b 1 with h | ⟨hi, -⟩
    · exact h
    · exact absurd hi (by decide)
  obtain ⟨hc, hframe, htype⟩ := hfirst
  have hraw : ((fresh.advance 1).handleCharacter b).raw = [] := (frame_eq_iff.mp hframe).2.2.2.1
  have hbyte : fresh.readByte 0 b = { (fresh.advance 1).handleCharacter b with raw := [b] } := by
    show ((fresh.advance 1).handleCharacter b).afterCharacter 0 b = _
    simp [afterCharacter, hc.started, hc.collects, hraw]
  rw [hbyte]
  exact ⟨⟨hc.started, hc.collects, hc.state_ne, hc.ignorable⟩, rfl, htype⟩

/-- The bytes of a lexeme stand in front; what follows counts only by the way it begins. -/
theorem lexeme_cons (b : UInt8) (l : Bytes) : ∃ pre post, l = pre ++ post ∧
    (lexeme (b :: l)).raw = b :: pre ∧
      ((lexeme (b :: l)).tokenType ≠ .bad → ∀ post', BeginAlike post post' →
        lexeme (b :: (pre ++ post')) = lexeme (b :: l)) := by
  obtain ⟨hc, hraw, htype⟩ := collecting_fresh b
  obtain ⟨pre, post, u, rfl, hrun, hend⟩ := exists_collects hc l
  have hlex (rest : Bytes) : lexeme (b :: (pre ++ rest)) = (readLoop 0 rest u).ready := by
    rw [lexeme, readLoop_cons (by simp [fresh]), hrun.readLoop]
  have hu : u.tokenType ≠ .eof := fun he => htype (hrun.tokenType he)
  refine ⟨pre, post, rfl, ?_, ?_⟩
  · have hbytes : (readLoop 0 post u).ready.raw = u.raw :=
      (ready_readLoop hrun.collecting hu hend).1
    rw [hlex, hbytes, hrun.raw, hraw]
    rfl
  · intro hbad post' halike
    rw [hlex] at hbad ⊢
    rw [hlex]
    exact (ready_readLoop hrun.collecting hu hend).2 hbad post' halike

theorem lexeme_append (h : l ≠ []) : (lexeme l).raw ≠ [] ∧
    ∃ rest, l = (lexeme l).raw ++ rest := by
  cases l with
  | nil => exact absurd rfl h
  | cons b l =>
    obtain ⟨pre, post, rfl, hraw, -⟩ := lexeme_cons b l
    rw [hraw]
    exact ⟨by simp, post, rfl⟩

/-- A lexeme is read again in front of a remainder that begins alike. -/
theorem lexeme_congr {raw rest rest' : Bytes} (hne : raw ≠ []) (hraw : (lexeme (raw ++ rest)).raw = raw)
    (hbad : (lexeme (raw ++ rest)).tokenType ≠ .bad) (halike : BeginAlike rest rest') :
    lexeme (raw ++ rest') = lexeme (raw ++ rest) := by
  cases raw with
  | nil => exact absurd rfl hne
  | cons b raw =>
    obtain ⟨pre, post, happend, hpre, hcongr⟩ := lexeme_cons b (raw ++ rest)
    rw [List.cons_append] at hraw hbad ⊢
    obtain rfl : pre = raw := (List.cons.inj (hpre.symm.trans hraw)).2
    obtain rfl : rest = post := List.append_cancel_left happend
    exact hcongr hbad rest' halike

/-- The lexemes of a byte string, in order. -/
def lexemes (l : Bytes) : List Lexeme :=
  if _h : l = [] then [] else lexeme l :: lexemes (l.drop (lexeme l).raw.length)
termination_by l.length
decreasing_by
  have hpos := List.length_pos_of_ne_nil (lexeme_append _h).1
  have hlen := List.length_pos_of_ne_nil _h
  rw [List.length_drop]
  omega

theorem lexemes_nil : lexemes [] = [] := by rw [lexemes, dif_pos rfl]

theorem lexemes_of_ne (h : l ≠ []) :
    lexemes l = lexeme l :: lexemes (l.drop (lexeme l).raw.length) := by
  rw [lexemes, dif_neg h]

theorem lexemes_append {raw : Bytes} (hne : raw ≠ []) (h : (lexeme (raw ++ rest)).raw = raw) :
    lexemes (raw ++ rest) = lexeme (raw ++ rest) :: lexemes rest := by
  rw [lexemes_of_ne (by simp [hne]), h, List.drop_left]

/-- The end-of-file token. -/
def endLexeme : Lexeme := ⟨.eof, [], []⟩

theorem lexeme_nil : lexeme [] = endLexeme := rfl


/-- A read anywhere in an input returns the lexeme of the rest. -/
theorem readTokenWithOptions_lexeme (hs : o.state ≠ .inlineImage) (ha : o.allowEof = true)
    (hi : o.includeIgnorable = true) (hp : o.pos ≤ o.input.length) :
    ∃ token t', o.readTokenWithOptions true 0 = (.ok token, t') ∧ ReadSpec o token t' ∧
      Lexeme.ofToken token = lexeme (o.input.drop o.pos) := by
  obtain ⟨token, t', hspec, hread⟩ := readTokenWithOptions_spec hs hp true 0
  have hread : o.readTokenWithOptions true 0 = (.ok token, t') := by simpa using hread
  refine ⟨token, t', hread, hspec, ?_⟩
  rw [readTokenWithOptions, beginRead_eq hs] at hread
  have htoken : token = (readLoop 0 (o.input.drop o.pos) o.reset).unread.takeReadyToken := by
    have h := congrArg Prod.fst hread
    simpa using h.symm
  have hcore : o.reset.core = fresh.core := by
    simp [core, reset, fresh, ha, hi]
  have hunread (u : Tokenizer) : Lexeme.ofToken u.unread.takeReadyToken = u.ready := by
    unfold unread
    split_ifs <;> rfl
  rw [htoken, hunread, lexeme]
  exact ready_congr (core_readLoop _ hcore)

/-- Repeated reads return the lexemes and end with the end-of-file token. -/
theorem readAll_lexemes (n : ℕ) (hs : o.state ≠ .inlineImage) (ha : o.allowEof = true)
    (hi : o.includeIgnorable = true) (hp : o.pos ≤ o.input.length)
    (hn : o.input.length - o.pos < n) : ∃ calls, readAll n o = some calls ∧
      calls.map (fun c => Lexeme.ofToken c.token) =
        lexemes (o.input.drop o.pos) ++ [endLexeme] := by
  induction n generalizing o with
  | zero => omega
  | succ n ih =>
    obtain ⟨token, t', hread, hspec, hlex⟩ := readTokenWithOptions_lexeme hs ha hi hp
    have htype : token.tokenType = (lexeme (o.input.drop o.pos)).tokenType :=
      congrArg Lexeme.tokenType hlex
    have hraw : token.raw = (lexeme (o.input.drop o.pos)).raw := congrArg Lexeme.raw hlex
    simp only [readAll, hread]
    by_cases hend : o.input.drop o.pos = []
    · rw [hend, lexeme_nil] at hlex htype
      rw [if_pos (by rw [htype]; rfl)]
      refine ⟨_, rfl, ?_⟩
      simp [hend, lexemes_nil, hlex]
    · have hne : token.raw ≠ [] := hraw ▸ (lexeme_append hend).1
      have hpos := hspec.pos
      rw [hspec.endPos, ← hspec.ignorable hi] at hpos
      have hlen := List.length_pos_of_ne_nil hne
      have horigin := hspec.origin
      simp only [origin, Prod.mk.injEq] at horigin
      obtain ⟨hin, ha', hi'⟩ := horigin
      have hproper : token.tokenType ≠ .eof := (hspec.proper hne).1
      obtain ⟨calls, hcalls, hmap⟩ := ih (o := t') (by simp [hspec.state]) (ha'.trans ha)
        (hi'.trans hi) (hin ▸ hspec.pos_le) (by
          have hle := hspec.pos_le
          rw [hin]
          omega)
      rw [if_neg hproper, hcalls]
      refine ⟨_, rfl, ?_⟩
      rw [List.map_cons, hmap, hlex, lexemes_of_ne hend, hin, hpos, List.drop_drop, hraw]
      rfl

/-! ## White space and comments -/

theorem readEof_space (h : t.state = .inSpace) (hi : t.includeIgnorable = true) :
    t.readEof = t.endWith .space := by
  simp [readEof, presentEof, h, hi, endWith]

theorem readEof_comment (h : t.state = .inComment) (hi : t.includeIgnorable = true) :
    t.readEof = t.endWith .comment := by
  simp [readEof, presentEof, h, hi, endWith]

theorem readByte_fresh_space (hb : isWs b = true) :
    fresh.readByte 0 b = reading fresh .inSpace [] [b] := by
  simp [readByte, handleCharacter, inBeforeToken, fresh, hb, afterCharacter, reading]

theorem readLoop_space (l r : Bytes) : (readLoop 0 l (reading fresh .inSpace [] r)).ready =
    ⟨.space, r ++ l.takeWhile isWs, r ++ l.takeWhile isWs⟩ := by
  induction l generalizing r with
  | nil =>
    rw [readLoop, if_neg (by simp [reading]), readEof_space rfl rfl]
    simp [endWith, reading, ready, Lexeme.ofToken, takeReadyToken]
  | cons c l ih =>
    rw [readLoop_cons (by simp [reading])]
    by_cases hc : isWs c = true
    · have hbyte : (reading fresh .inSpace [] r).readByte 0 c =
          reading fresh .inSpace [] (r ++ [c]) := by
        simp [readByte, handleCharacter, handleInSpace, hc, afterCharacter, reading, Nat.add_assoc]
      rw [hbyte, ih, List.takeWhile_cons_of_pos hc]
      simp
    · have hready : ((reading fresh .inSpace [] r).readByte 0 c).state = .tokenReady := by
        simp [readByte, handleCharacter, handleInSpace, hc, afterCharacter, reading, endBefore]
      rw [readLoop_of_ready hready, List.takeWhile_cons_of_neg hc]
      simp [readByte, handleCharacter, handleInSpace, hc, afterCharacter, reading, endBefore, ready,
        Lexeme.ofToken, takeReadyToken]

/-- White space is collected up to the next byte that is none. -/
theorem lexeme_space (hb : isWs b = true) (l : Bytes) : lexeme (b :: l) =
    ⟨.space, b :: l.takeWhile isWs, b :: l.takeWhile isWs⟩ := by
  rw [lexeme, readLoop_cons (by simp [fresh]), readByte_fresh_space hb, readLoop_space]
  rfl

theorem lexemes_space (hb : isWs b = true) (l : Bytes) : lexemes (b :: l) =
    ⟨.space, b :: l.takeWhile isWs, b :: l.takeWhile isWs⟩ :: lexemes (l.dropWhile isWs) := by
  have hdrop : (b :: l).drop (b :: l.takeWhile isWs).length = l.dropWhile isWs := by
    have hsplit : (b :: l.takeWhile isWs) ++ l.dropWhile isWs = b :: l := by
      rw [List.cons_append, List.takeWhile_append_dropWhile]
    rw [← hsplit, List.drop_left]
  rw [lexemes_of_ne (by simp), lexeme_space hb, hdrop]

theorem lexeme_comment (l : Bytes) : (lexeme (0x25 :: l)).tokenType = .comment := by
  have hfirst : fresh.readByte 0 0x25 = reading fresh .inComment [] [0x25] := by decide
  have key (l r : Bytes) :
      (readLoop 0 l (reading fresh .inComment [] r)).ready.tokenType = .comment := by
    induction l generalizing r with
    | nil =>
      rw [readLoop, if_neg (by simp [reading]), readEof_comment rfl rfl]
      rfl
    | cons c l ih =>
      rw [readLoop_cons (by simp [reading])]
      by_cases hc : c = 0x0d ∨ c = 0x0a
      · have hready : ((reading fresh .inComment [] r).readByte 0 c).state = .tokenReady := by
          simp [readByte, handleCharacter, handleInComment, hc, afterCharacter, reading, endBefore,
            fresh]
        rw [readLoop_of_ready hready]
        simp [readByte, handleCharacter, handleInComment, hc, afterCharacter, reading, endBefore,
          ready, Lexeme.ofToken, takeReadyToken, fresh]
      · have hbyte : (reading fresh .inComment [] r).readByte 0 c =
            reading fresh .inComment [] (r ++ [c]) := by
          simp [readByte, handleCharacter, handleInComment, hc, afterCharacter, reading,
            Nat.add_assoc]
        rw [hbyte, ih]
  rw [lexeme, readLoop_cons (by simp [fresh]), hfirst, key]

/-! ## Regular bytes -/

/-- A run of regular bytes is a number, a keyword or a word. -/
theorem lexeme_regular (hb : isRegular b = true) (l : Bytes) :
    lexeme (b :: l) = .ofToken (runToken 0 (runState (b :: regularRun l)) (b :: regularRun l)) := by
  have hfirst : fresh.readByte 0 b = reading fresh (firstState b) [] [b] :=
    readByte_first (o := fresh) hb (.inl rfl)
  have hsplit : l = regularRun l ++ l.dropWhile isRegular :=
    (List.takeWhile_append_dropWhile).symm
  have htail : ∀ d ∈ (l.dropWhile isRegular).head?, isTokenDelimiter d = true := by
    intro d hd
    have hnot := List.head?_dropWhile_not isRegular l
    rw [Option.mem_def.mp hd] at hnot
    simpa [isRegular] using hnot
  have hrun : readLoop 0 (regularRun l ++ l.dropWhile isRegular)
      (reading fresh (firstState b) [] [b]) = readLoop 0 (l.dropWhile isRegular)
        (reading fresh (runState (b :: regularRun l)) [] (b :: regularRun l)) :=
    readLoop_run (regularRun l) (fun a ha => regular_of_mem_regularRun ha) (isRunState_firstState b)
      (.inl rfl)
  have htoken : (readLoop 0 (l.dropWhile isRegular) (reading fresh (runState (b :: regularRun l)) []
      (b :: regularRun l))).unread.takeReadyToken =
        runToken 0 (runState (b :: regularRun l)) (b :: regularRun l) :=
    takeReadyToken_run (isRunState_runState (b :: regularRun l)) htail
  have hunread (u : Tokenizer) : u.ready = .ofToken u.unread.takeReadyToken := by
    unfold unread
    split_ifs <;> rfl
  rw [lexeme, readLoop_cons (by simp [fresh]), hfirst]
  conv_lhs => rw [hsplit]
  rw [hrun, hunread]
  exact congrArg Lexeme.ofToken htoken

theorem runType_ne (s : LexState) (raw : Bytes) :
    runType s raw ≠ .name ∧ runType s raw ≠ .string ∧ runType s raw ≠ .space := by
  cases s <;> simp only [runType, ne_eq, reduceCtorEq, not_false_eq_true, and_self] <;>
    split_ifs <;> simp

/-! ## Names -/

/-- The states of strings and of tokens of one or two delimiters. -/
def isStringState : LexState → Bool
  | .inHexString | .inString | .inHexStringSecond | .stringEscape | .charCode
  | .stringAfterCr | .lt | .gt | .tokenReady => true
  | _ => false

/-- The token is not going to be a name or white space. -/
structure NoName (t : Tokenizer) : Prop where
  state : isStringState t.state = true
  tokenType : t.tokenType ≠ .name ∧ t.tokenType ≠ .space

theorem NoName.goto (h : NoName t) {s : LexState} (hs : isStringState s = true) :
    NoName (t.goto s) := ⟨hs, h.tokenType⟩

theorem NoName.push (h : NoName t) (bytes : Bytes) : NoName (t.push bytes) :=
  ⟨h.state, h.tokenType⟩

theorem noName_endWith {type : TokenType} (h : type ≠ .name ∧ type ≠ .space) : NoName (t.endWith type) := ⟨rfl, h⟩

theorem noName_badWith (message : Bytes) : NoName (t.badWith message) :=
  ⟨rfl, by simp [badWith]⟩

theorem noName_handleInString (h : NoName t) : NoName (t.handleInString d) := by
  unfold handleInString
  split_ifs
  · exact h.goto rfl
  · exact ⟨h.state, h.tokenType⟩
  · exact noName_endWith (by decide)
  · exact ⟨h.state, h.tokenType⟩
  · exact (h.push _).goto rfl
  · exact h.push _

theorem noName_handleInHexString (h : NoName t) : NoName (t.handleInHexString d) := by
  unfold handleInHexString
  cases hexValue d with
  | some v => exact ⟨rfl, h.tokenType⟩
  | none =>
    dsimp only
    split_ifs
    · exact noName_endWith (by decide)
    · exact h
    · exact noName_badWith _

theorem noName_handleInHexStringSecond (h : NoName t) : NoName (t.handleInHexStringSecond d) := by
  unfold handleInHexStringSecond
  cases hexValue d with
  | some v => exact (h.push _).goto rfl
  | none =>
    dsimp only
    split_ifs
    · exact noName_endWith (by decide)
    · exact h
    · exact noName_badWith _

theorem noName_inCharCode (h : NoName t) : NoName (t.inCharCode d) := by
  unfold inCharCode
  dsimp only
  split_ifs
  · exact ⟨h.state, h.tokenType⟩
  · exact ⟨rfl, h.tokenType⟩
  · exact noName_handleInString ((h.push _).goto rfl)

theorem noName_inStringEscape (h : NoName t) : NoName (t.inStringEscape d) := by
  have hback : NoName (t.goto .inString) := h.goto rfl
  unfold inStringEscape
  split_ifs
  · exact noName_inCharCode ⟨rfl, h.tokenType⟩
  any_goals exact hback.push _
  · exact hback
  · exact h.goto rfl

theorem noName_handleCharacter (h : NoName t) : NoName (t.handleCharacter d) := by
  unfold handleCharacter
  cases hs : t.state with
  | inHexString => exact noName_handleInHexString h
  | inString => exact noName_handleInString h
  | inHexStringSecond => exact noName_handleInHexStringSecond h
  | stringEscape => exact noName_inStringEscape h
  | charCode => exact noName_inCharCode h
  | stringAfterCr =>
    simp only [inStringAfterCr]
    split_ifs
    · exact h.goto rfl
    · exact noName_handleInString (h.goto rfl)
  | lt =>
    simp only [inLt]
    split_ifs
    · exact noName_endWith (by decide)
    · exact noName_handleInHexString (h.goto rfl)
  | gt =>
    simp only [inGt]
    split_ifs
    · exact noName_endWith (by decide)
    · exact ⟨rfl, by simp [endBefore]⟩
  | tokenReady => exact h
  | _ =>
    have hstate := h.state
    simp [hs, isStringState] at hstate

theorem noName_readByte (h : NoName t) : NoName (t.readByte 0 d) := by
  have hchar : NoName ((t.advance 1).handleCharacter d) :=
    noName_handleCharacter ⟨h.state, h.tokenType⟩
  show NoName (((t.advance 1).handleCharacter d).afterCharacter 0 d)
  simp only [afterCharacter, ne_eq, not_true_eq_false, false_and, if_false]
  split_ifs <;> exact ⟨hchar.state, hchar.tokenType⟩

theorem noName_readLoop (h : NoName t) (l : Bytes) : (readLoop 0 l t).tokenType ≠ .name ∧
    (readLoop 0 l t).tokenType ≠ .space := by
  induction l generalizing t with
  | nil =>
    rw [readLoop]
    split_ifs with hr
    · exact h.tokenType
    · have heof : t.presentEof.tokenType ≠ .name ∧ t.presentEof.tokenType ≠ .space := by
        have hstate := h.state
        cases hs : t.state <;> simp [hs, isStringState, presentEof, badWith] at hstate hr ⊢
      rw [readEof]
      split_ifs
      · simp
      · exact heof
  | cons d l ih =>
    rw [readLoop]
    split_ifs
    · exact h.tokenType
    · exact ih (noName_readByte h)

theorem delimiter_cases (hd : isTokenDelimiter b = true) (hws : isWs b = false)
    (hpercent : b ≠ 0x25) (hslash : b ≠ 0x2f) :
    b = 0x28 ∨ b = 0x29 ∨ b = 0x3c ∨ b = 0x3e ∨ b = 0x5b ∨ b = 0x5d ∨ b = 0x7b ∨ b = 0x7d := by
  simp only [isTokenDelimiter, isDelimiter, hws, Bool.false_or, Bool.or_eq_true, beq_iff_eq] at hd
  tauto

theorem noName_first (hd : isTokenDelimiter b = true) (hws : isWs b = false) (hpercent : b ≠ 0x25)
    (hslash : b ≠ 0x2f) : NoName (fresh.readByte 0 b) := by
  rcases delimiter_cases hd hws hpercent hslash with rfl | rfl | rfl | rfl | rfl | rfl | rfl | rfl <;>
    exact ⟨rfl, by decide, by decide⟩

theorem ready_tokenType : t.ready.tokenType = t.tokenType := rfl

/-- Only a delimiter starts a name or a string. -/
theorem lexeme_delimiter (h : (lexeme (b :: l)).tokenType = .name ∨
    (lexeme (b :: l)).tokenType = .string) :
    isTokenDelimiter b = true ∧ isWs b = false ∧ b ≠ 0x25 := by
  have hws : isWs b = false := by
    by_contra hws
    rw [lexeme_space (by simpa using hws)] at h
    simp at h
  have hpercent : b ≠ 0x25 := by
    rintro rfl
    rw [lexeme_comment] at h
    simp at h
  refine ⟨?_, hws, hpercent⟩
  by_contra hd
  have hb : isRegular b = true := by simpa [isRegular] using hd
  rw [lexeme_regular hb] at h
  obtain ⟨hname, hstring, -⟩ := runType_ne (runState (b :: regularRun l)) (b :: regularRun l)
  exact h.elim hname hstring

/-- White space starts with white space. -/
theorem isWs_of_space (h : (lexeme (b :: l)).tokenType = .space) : isWs b = true := by
  by_contra hws
  have hws : isWs b = false := by simpa using hws
  by_cases hpercent : b = 0x25
  · rw [hpercent, lexeme_comment] at h
    cases h
  by_cases hd : isTokenDelimiter b = true
  · have hloop : (lexeme (b :: l)).tokenType = (readLoop 0 l (fresh.readByte 0 b)).tokenType := by
      rw [lexeme, readLoop_cons (by simp [fresh])]
      rfl
    rw [hloop] at h
    by_cases hslash : b = 0x2f
    · have hends : EndsName (readLoop 0 l (fresh.readByte 0 b)) := by
        rw [hslash]
        exact endsName_readLoop (inNameText_slash fresh)
      rcases hends.type with htype | htype <;> rw [h] at htype <;> cases htype
    · exact (noName_readLoop (noName_first hd hws hpercent hslash) l).2 h
  · have hb : isRegular b = true := by simpa [isRegular] using hd
    rw [lexeme_regular hb] at h
    exact (runType_ne (runState (b :: regularRun l)) (b :: regularRun l)).2.2 h

/-- A name starts with a slash, in its value too. -/
theorem lexeme_name (h : (lexeme (b :: l)).tokenType = .name) :
    b = 0x2f ∧ ∃ n, (lexeme (b :: l)).value = 0x2f :: n := by
  obtain ⟨hd, hws, hpercent⟩ := lexeme_delimiter (.inl h)
  have hloop : lexeme (b :: l) = (readLoop 0 l (fresh.readByte 0 b)).ready := by
    rw [lexeme, readLoop_cons (by simp [fresh])]
  rw [hloop] at h ⊢
  have hslash : b = 0x2f := by
    by_contra hslash
    exact (noName_readLoop (noName_first hd hws hpercent hslash) l).1 h
  subst hslash
  refine ⟨rfl, ?_⟩
  obtain ⟨-, n, hn⟩ := readLoop_name (t := fresh.readByte 0 0x2f) rfl h
  refine ⟨n, ?_⟩
  have hvalue : (readLoop 0 l (fresh.readByte 0 0x2f)).ready.value =
      (readLoop 0 l (fresh.readByte 0 0x2f)).value := if_pos (.inl h)
  rw [hvalue, ← hn]
  rfl

theorem isNameState_handleCharacter (h : isNameState t.state = true)
    (hd : isTokenDelimiter d = false) : isNameState (t.handleCharacter d).state = true := by
  have hname (u : Tokenizer) (hu : u.state = .name) : isNameState (u.inName d).state = true := by
    rw [inName, hd]
    by_cases hhash : d = 0x23 <;> simp [hhash, push, isNameState, hu]
  unfold handleCharacter
  cases hs : t.state with
  | name => exact hname t hs
  | nameHex1 =>
    dsimp only [inNameHex1]
    cases hexValue d with
    | some v => rfl
    | none => exact hname _ rfl
  | nameHex2 =>
    dsimp only [inNameHex2]
    cases hexValue d with
    | none => exact hname _ rfl
    | some v =>
      dsimp only
      split_ifs <;> rfl
  | _ => simp [hs, isNameState] at h

theorem isNameState_readByte (h : isNameState t.state = true) (hd : isTokenDelimiter d = false) :
    isNameState (t.readByte 0 d).state = true := by
  have hchar : isNameState ((t.advance 1).handleCharacter d).state = true :=
    isNameState_handleCharacter h hd
  show isNameState (((t.advance 1).handleCharacter d).afterCharacter 0 d).state = true
  simp only [afterCharacter, ne_eq, not_true_eq_false, false_and, if_false]
  split_ifs <;> exact hchar

/-- A name takes all regular bytes. -/
theorem readLoop_name_raw (hc : Collecting t) (ht : t.tokenType ≠ .eof)
    (hs : isNameState t.state = true) (l : Bytes) :
    (readLoop 0 l t).ready.raw = t.raw ++ regularRun l := by
  have hcloses (u : Tokenizer) (hu : isNameState u.state = true) (d : UInt8) :
      closes u.state d = isTokenDelimiter d ∧ u.state ≠ .tokenReady := by
    cases hstate : u.state <;> simp [hstate, isNameState, closes] at hu ⊢
  induction l generalizing t with
  | nil =>
    rw [readLoop_of_closes hc ht (hcloses t hs 0).2 (by simp), readEof_raw hc ht]
    exact (List.append_nil _).symm
  | cons d l ih =>
    obtain ⟨hclose, hr⟩ := hcloses t hs d
    cases hd : isTokenDelimiter d with
    | true =>
      rw [readLoop_of_closes hc ht hr (by simp [hclose, hd]), readEof_raw hc ht,
        regularRun_cons_of_delimiter hd]
      exact (List.append_nil _).symm
    | false =>
      obtain ⟨hcollect, hraw, heof⟩ := readByte_joins hc (hclose.trans hd)
      rw [readLoop_cons hr, ih hcollect (fun he => ht (heof he)) (isNameState_readByte hs hd), hraw,
        regularRun_cons_of_regular (by simp [isRegular, hd]), List.append_assoc]
      rfl

/-- In front of `rest` a name comes to its end. -/
def EndsNames (rest : Bytes) : Prop := ∀ d ∈ rest.head?, isTokenDelimiter d = true

theorem endsNames_of_name {raw rest : Bytes} (hraw : (lexeme (raw ++ rest)).raw = raw)
    (hname : (lexeme (raw ++ rest)).tokenType = .name) (hne : raw ≠ []) : EndsNames rest := by
  cases raw with
  | nil => exact absurd rfl hne
  | cons b raw =>
    obtain rfl := (lexeme_name hname).1
    have hloop : (lexeme (0x2f :: (raw ++ rest))).raw = 0x2f :: regularRun (raw ++ rest) := by
      rw [lexeme, readLoop_cons (by simp [fresh]),
        readLoop_name_raw (collecting_fresh 0x2f).1 (collecting_fresh 0x2f).2.2 rfl]
      rfl
    have hrun : regularRun (raw ++ rest) = raw :=
      (List.cons.inj (hloop.symm.trans hraw)).2
    have hrest : (raw ++ rest).dropWhile isRegular = rest := by
      have hsplit : regularRun (raw ++ rest) ++ (raw ++ rest).dropWhile isRegular = raw ++ rest :=
        List.takeWhile_append_dropWhile
      rw [hrun] at hsplit
      exact List.append_cancel_left hsplit
    intro d hd
    have hnot := List.head?_dropWhile_not isRegular (raw ++ rest)
    rw [hrest, Option.mem_def.mp hd] at hnot
    simpa [isRegular] using hnot

/-! ## What the writers write -/

/-- A string is read back from its written form. -/
theorem lexeme_writeStringValue (value rest : Bytes) :
    lexeme (writeStringValue value ++ rest) = ⟨.string, value, writeStringValue value⟩ := by
  have hdrop : ({ fresh with input := writeStringValue value ++ rest } : Tokenizer).input.drop 0 =
      writeStringValue value ++ rest := rfl
  obtain ⟨token, t', hread, -, hlex⟩ :=
    readTokenWithOptions_lexeme (o := { fresh with input := writeStringValue value ++ rest })
      (by simp [fresh]) rfl rfl (Nat.zero_le _)
  have htoken : token = stringToken 0 value (writeStringValue value) := by
    have hwritten : ({ fresh with input := writeStringValue value ++ rest } :
        Tokenizer).readTokenWithOptions true 0 = (.ok (stringToken 0 value (writeStringValue value)),
          { fresh with input := writeStringValue value ++ rest
                       pos := 0 + (writeStringValue value).length }.reset) := by
      generalize hw : writeStringValue value = w at hdrop ⊢
      rw [writeStringValue] at hw
      split_ifs at hw
      · subst hw
        exact readTokenWithOptions_writeHexString (by simp [fresh]) true hdrop
      · subst hw
        exact readTokenWithOptions_writeLiteralString (by simp [fresh]) true hdrop
    rw [hwritten] at hread
    exact (Except.ok.inj (congrArg Prod.fst hread)).symm
  rw [htoken] at hlex
  exact hlex.symm

theorem NameAt.collecting {p : NamePart} {v r : Bytes} (h : NameAt o p v r t) :
    Collecting t ∧ t.tokenType ≠ .eof ∧ t.state ∈ [LexState.name, .nameHex1, .nameHex2, .number,
      .real, .sign, .decimal, .literal] ∧ t.raw = r := by
  obtain ⟨code, hex, message, rfl⟩ := h
  cases p with
  | plain => exact ⟨collecting_of_inside rfl rfl rfl, by simp [readingName, reading], by simp [readingName, reading], rfl⟩
  | hash => exact ⟨collecting_of_inside rfl rfl rfl, by simp [readingName, reading], by simp [readingName, reading], rfl⟩
  | digit => exact ⟨collecting_of_inside rfl rfl rfl, by simp [readingName, reading], by simp [readingName, reading], rfl⟩

/-- A name is read back from its written form when no stray `#` captures two digits. -/
theorem lexeme_writtenName {n rest : Bytes} (hn : strayHashCaptures n = false)
    (hrest : EndsNames rest) : lexeme (0x2f :: (n.flatMap nameByte ++ rest)) =
      ⟨.name, 0x2f :: n, 0x2f :: n.flatMap nameByte⟩ := by
  obtain ⟨p, v, u, htext, hat, hread⟩ := (nameAt_slash fresh).flatMap_nameByte (n := n) (by
    rw [foldlM_next_isSome .plain n]
    simpa [NamePart.text] using hn) rest
  have hloop : lexeme (0x2f :: (n.flatMap nameByte ++ rest)) = (readLoop 0 rest u).ready := by
    rw [lexeme, readLoop_cons (by simp [fresh]), ← hread]
    rfl
  obtain ⟨hready, htype, hvalue⟩ := hat.delimiter (d := 0x0c) rfl
  obtain ⟨hc, ht, hword, hraw⟩ := hat.collecting
  have hnot := hat.not_ready
  have heof : u.readEof.ready = ⟨.name, 0x2f :: n, 0x2f :: n.flatMap nameByte⟩ := by
    have hclosed := (readByte_closes hc ht (d := 0x0c) (word_closes hword)).2
    have hend : (u.readByte 0 0x0c).ready.value = 0x2f :: n := by
      rw [ready, Lexeme.ofToken, takeReadyToken, if_pos (.inl htype), hvalue, htext]
      rfl
    have hrawEof := readEof_raw hc ht
    rw [← hclosed] at hrawEof ⊢
    calc (u.readByte 0 0x0c).ready
        = ⟨(u.readByte 0 0x0c).ready.tokenType, (u.readByte 0 0x0c).ready.value,
            (u.readByte 0 0x0c).ready.raw⟩ := rfl
      _ = _ := by
        rw [hend, hrawEof, hraw, ready_tokenType, htype]
        rfl
  rw [hloop, readLoop_of_closes hc ht hnot (fun d hd => (word_closes hword).trans (hrest d hd)), heof]

/-- A stray `#` that captures two digits leaves another name, or none. -/
theorem lexeme_capturedName {n : Bytes} (hn : strayHashCaptures n = true) (rest : Bytes) :
    (lexeme (0x2f :: (n.flatMap nameByte ++ rest))).tokenType ≠ .space ∧
      ¬((lexeme (0x2f :: (n.flatMap nameByte ++ rest))).tokenType = .name ∧
        (lexeme (0x2f :: (n.flatMap nameByte ++ rest))).value = 0x2f :: n) := by
  have hloop : lexeme (0x2f :: (n.flatMap nameByte ++ rest)) =
      (readLoop 0 (n.flatMap nameByte ++ rest) (fresh.readByte 0 0x2f)).ready := by
    rw [lexeme, readLoop_cons (by simp [fresh])]
  have hends : EndsName (readLoop 0 (n.flatMap nameByte ++ rest) (fresh.readByte 0 0x2f)) :=
    endsName_readLoop (inNameText_slash fresh)
  obtain ⟨t', rest', hread, hstate, hclash⟩ := (nameAt_slash fresh).clash (n := n) (by
    rw [foldlM_next_isSome .plain n]
    simpa [NamePart.text] using hn) rest
  have hread : readLoop 0 (n.flatMap nameByte ++ rest) (fresh.readByte 0 0x2f) =
      readLoop 0 rest' t' := hread
  rw [hloop]
  constructor
  · rw [ready_tokenType]
    intro hspace
    rcases hends.type with htype | htype <;> rw [hspace] at htype <;> cases htype
  · rintro ⟨htype, hvalue⟩
    rw [ready_tokenType] at htype
    rw [ready, Lexeme.ofToken, takeReadyToken, if_pos (.inl htype)] at hvalue
    dsimp only at hvalue
    rw [hread] at htype hvalue
    obtain ⟨hbad, hstarts⟩ := readLoop_name hstate htype
    rcases hclash with hb | ⟨w, c, hw, hne, hzero⟩
    · simp [hb] at hbad
    · have hc : w ++ [c] <+: 0x2f :: n := hw.trans (hvalue ▸ hstarts)
      have hz : w ++ [0] <+: 0x2f :: n := by simpa [NamePart.text] using hzero
      have heq := List.prefix_of_prefix_length_le hc hz (by simp)
      simpa [hne] using heq.eq_of_length (by simp)

end Flpdf.Tokenizer
