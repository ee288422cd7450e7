import Flpdf.Syntax.NameMessages
import Flpdf.Syntax.StringRoundTrip
import Flpdf.Tokenizer.Lexemes

/-! # Spellings of tokens

A written text is a row of spellings with white space between them.  Each spelling is
read back as one token without a message, wherever it stands, as long as what follows
a run or a name begins with a delimiter.
-/

namespace Flpdf.Tokenizer

variable {o t : Tokenizer} {raw value rest gap : Bytes} {type : TokenType} {b : UInt8}

/-- A byte string that is one token, with the type and the value of the token. -/
inductive Spelling : Bytes → TokenType → Bytes → Prop where
  | run {raw : Bytes} (hne : raw ≠ []) (hregular : ∀ b ∈ raw, isRegular b = true) :
      Spelling raw (runType (runState raw) raw) raw
  | name {n : Bytes} (hn : 0 ∉ n) : Spelling (0x2f :: n.flatMap nameByte) .name (0x2f :: n)
  | literal (value : Bytes) : Spelling (writeLiteralString value) .string value
  | hex (value : Bytes) : Spelling (writeHexString value) .string value
  | arrayOpen : Spelling [0x5b] .arrayOpen [0x5b]
  | arrayClose : Spelling [0x5d] .arrayClose [0x5d]
  | dictOpen : Spelling [0x3c, 0x3c] .dictOpen [0x3c, 0x3c]
  | dictClose : Spelling [0x3e, 0x3e] .dictClose [0x3e, 0x3e]

/-- The tokens that end with their last byte, whatever follows. -/
def endsItself : TokenType → Bool
  | .string | .arrayOpen | .arrayClose | .dictOpen | .dictClose => true
  | _ => false

/-- What follows lets the token end. -/
def LetsEnd (type : TokenType) (rest : Bytes) : Prop :=
  endsItself type = true ∨ ∀ d ∈ rest.head?, isTokenDelimiter d = true

/-- The token of a spelling. -/
def spelledToken (start : ℕ) (type : TokenType) (value raw : Bytes) : Token where
  tokenType := type
  value := value
  raw := raw
  errorMessage := none
  errorOffset := start
  start := start
  endPos := start + raw.length

theorem Spelling.writeStringValue (value : Bytes) :
    Spelling (Flpdf.writeStringValue value) .string value := by
  rw [Flpdf.writeStringValue]
  split_ifs
  · exact .hex value
  · exact .literal value

/-- A spelling begins with neither white space nor a comment. -/
theorem Spelling.exists_cons (h : Spelling raw type value) :
    ∃ b l, raw = b :: l ∧ isWs b = false ∧ b ≠ 0x25 := by
  cases h with
  | run hne hregular =>
    cases raw with
    | nil => exact absurd rfl hne
    | cons b l =>
      have hb : isRegular b = true := hregular b List.mem_cons_self
      have hfacts : isRegular b = true → isWs b = false ∧ b ≠ 0x25 :=
        forall_byte (p := fun b => isRegular b = true → isWs b = false ∧ b ≠ 0x25)
          (by decide) b
      exact ⟨b, l, rfl, hfacts hb⟩
  | name hn => exact ⟨_, _, rfl, by decide, by decide⟩
  | literal value => exact ⟨_, _, rfl, by decide, by decide⟩
  | hex value => exact ⟨_, _, rfl, by decide, by decide⟩
  | arrayOpen => exact ⟨_, _, rfl, by decide, by decide⟩
  | arrayClose => exact ⟨_, _, rfl, by decide, by decide⟩
  | dictOpen => exact ⟨_, _, rfl, by decide, by decide⟩
  | dictClose => exact ⟨_, _, rfl, by decide, by decide⟩

theorem Spelling.length_pos (h : Spelling raw type value) : 0 < raw.length := by
  obtain ⟨b, l, rfl, _⟩ := h.exists_cons
  exact Nat.succ_pos _

theorem endsItself_runType (s : LexState) (raw : Bytes) : endsItself (runType s raw) = false := by
  have hword : endsItself (if raw = ascii "true" ∨ raw = ascii "false" then .bool
      else if raw = ascii "null" then .null else .word) = false := by
    split_ifs <;> rfl
  cases s <;> first | rfl | exact hword

theorem Spelling.isIntText (h : Spelling raw type value) (htype : type = .integer) :
    isIntText raw = true := by
  cases h with
  | run hne hregular => exact (runType_eq_integer raw).mp htype
  | _ => cases htype

theorem regular_of_isIntText {raw : Bytes} (h : isIntText raw = true) :
    ∀ b ∈ raw, isRegular b = true := by
  have hdigit : ∀ b, isAsciiDigit b = true → isRegular b = true :=
    forall_byte (p := fun b => isAsciiDigit b = true → isRegular b = true) (by decide)
  simp only [isIntText, Bool.and_eq_true, List.all_eq_true] at h
  rcases splitSign_cases raw with ⟨hraw, -⟩ | ⟨hraw, -⟩ | ⟨hraw, -⟩
  · rw [hraw, List.forall_mem_cons]
    exact ⟨by decide, fun b hb => hdigit b (h.2 b hb)⟩
  · rw [hraw, List.forall_mem_cons]
    exact ⟨by decide, fun b hb => hdigit b (h.2 b hb)⟩
  · rw [hraw]
    exact fun b hb => hdigit b (h.2 b hb)

/-- A decimal number is one token. -/
theorem Spelling.integer {raw : Bytes} (h : Flpdf.isIntText raw = true) :
    Spelling raw .integer raw := by
  have hne : raw ≠ [] := by
    rintro rfl
    cases h
  have hregular : ∀ b ∈ raw, isRegular b = true := regular_of_isIntText h
  have hspelling := Spelling.run hne hregular
  rwa [(runType_eq_integer raw).mpr h] at hspelling

/-! ## The token at the cursor -/

theorem lexToken_gap (hi : o.includeIgnorable = false) (hgap : ∀ b ∈ gap, isWs b = true)
    (h : o.input.drop o.pos = gap ++ rest) : o.lexToken 0 = (o.advance gap.length).lexToken 0 := by
  induction gap generalizing o with
  | nil => rfl
  | cons a gap ih =>
    have hdrop : (o.advance 1).input.drop (o.advance 1).pos = gap ++ rest := by
      show o.input.drop (o.pos + 1) = _
      rw [← List.drop_drop, h, List.cons_append, List.drop_one, List.tail_cons]
    have hone : o.lexToken 0 = (o.advance 1).lexToken 0 := by
      rw [lexToken, lexToken, hdrop, h, List.cons_append, readLoop_cons (by simp [reset])]
      have hspace : o.reset.readByte 0 a = (o.advance 1).reset :=
        readByte_skipping_space hi (hgap a List.mem_cons_self)
      rw [hspace]
    rw [hone, ih (o := o.advance 1) hi (fun c hc => hgap c (List.mem_cons_of_mem _ hc)) hdrop,
      advance_advance, List.length_cons, Nat.add_comm 1]

theorem lexToken_of_string (hs : o.state ≠ .inlineImage) {u : Tokenizer}
    (h : o.readTokenWithOptions true 0 = (.ok (stringToken o.pos value raw), u)) :
    o.lexToken 0 = spelledToken o.pos .string value raw := by
  rw [readTokenWithOptions, beginRead_eq hs] at h
  have htoken : (readLoop 0 (o.input.drop o.pos) o.reset).unread.takeReadyToken =
      stringToken o.pos value raw := by
    simpa using congrArg Prod.fst h
  rw [lexToken, htoken]
  rfl

theorem lexToken_name {n : Bytes} (hn : 0 ∉ n)
    (h : o.input.drop o.pos = 0x2f :: n.flatMap nameByte ++ rest)
    (hrest : ∀ d ∈ rest.head?, isTokenDelimiter d = true) :
    o.lexToken 0 = spelledToken o.pos .name (0x2f :: n) (0x2f :: n.flatMap nameByte) := by
  obtain ⟨t, ⟨code, hex, rfl⟩, hloop⟩ := (cleanName_slash o).flatMap_nameByte hn rest
  rw [lexToken, h, List.cons_append, readLoop_cons (by simp [reset]), hloop]
  cases rest with
  | nil =>
    have hd : isTokenDelimiter 0x0c = true := rfl
    rw [readLoop, if_neg (readingName_not_ready _ _ _)]
    simp [readEof, presentEof, presentCharacter, handleCharacter, inName, hd, endBefore, readingName,
      reading, unread, takeReadyToken, spelledToken]
  | cons d rest =>
    have hd : isTokenDelimiter d = true := hrest d rfl
    rw [readLoop_cons (readingName_not_ready _ _ _)]
    have hbyte : (readingName o ([0x2f] ++ n) ([0x2f] ++ n.flatMap nameByte) code hex none
        .plain).readByte 0 d =
          { readingName o ([0x2f] ++ n) ([0x2f] ++ n.flatMap nameByte) code hex none .plain with
            pos := o.pos + ([0x2f] ++ n.flatMap nameByte).length + 1
            tokenType := .name, inToken := false, charToUnread := some d
            state := .tokenReady } := by
      simp [readByte, handleCharacter, inName, hd, endBefore, afterCharacter, readingName, reading]
    rw [hbyte, readLoop_of_ready rfl]
    simp [readingName, reading, unread, takeReadyToken, spelledToken]

/-- The bytes are one token of type `Real`. -/
def isRealToken (encoded : Bytes) : Bool :=
  match (({ input := encoded } : Tokenizer).readQpdfToken 0).1 with
  | .ok token => token.tokenType == .real && token.raw == encoded
  | .error _ => false

/-- Only a run of regular bytes is such a token. -/
theorem Spelling.real {encoded : Bytes} (h : isRealToken encoded = true) :
    Spelling encoded .real encoded := by
  have hstate : ({ input := encoded } : Tokenizer).state ≠ .inlineImage := LexState.noConfusion
  rw [isRealToken, readQpdfToken_eq hstate] at h
  simp only [Bool.and_eq_true, beq_iff_eq] at h
  obtain ⟨htype, hraw⟩ := h
  have hi : ({ input := encoded, allowEof := true } : Tokenizer).includeIgnorable = false := rfl
  have hrun : regularRun ({ input := encoded, allowEof := true } : Tokenizer).upcoming ≠ [] := by
    intro hnil
    have hother := lexToken_other hi (.inl rfl) (.inl hnil)
    rw [htype] at hother
    cases hother
  rw [lexToken_run hi hrun (.inl rfl)] at htype hraw
  have hspelling := Spelling.run hrun fun _ hb => regular_of_mem_regularRun hb
  have hencoded : regularRun ({ input := encoded, allowEof := true } : Tokenizer).upcoming =
      encoded := hraw
  rw [hencoded] at hspelling htype
  have hreal : runType (runState encoded) encoded = .real := htype
  rwa [hreal] at hspelling

/-- A spelling at the cursor is the next token. -/
theorem lexToken_spelling (hs : o.state ≠ .inlineImage) (hi : o.includeIgnorable = false)
    (hspelling : Spelling raw type value) (h : o.input.drop o.pos = raw ++ rest)
    (hrest : LetsEnd type rest) : o.lexToken 0 = spelledToken o.pos type value raw := by
  obtain ⟨b, l, hraw, hws, hpercent⟩ := hspelling.exists_cons
  cases hspelling with
  | run hne hregular =>
    have hdelimiter : ∀ d ∈ rest.head?, isTokenDelimiter d = true := by
      rcases hrest with hends | hends
      · rw [endsItself_runType] at hends
        cases hends
      · exact hends
    have hup : o.upcoming = raw ++ rest := by
      rw [upcoming, h, hraw, List.cons_append, skipGap, if_neg (by simp [hws]), if_neg hpercent]
    have hrun : regularRun o.upcoming = raw := by
      rw [hup, regularRun, List.takeWhile_append_of_pos hregular]
      cases rest with
      | nil => simp
      | cons d rest =>
        have hd : isRegular d = false := by simp [isRegular, hdelimiter d rfl]
        rw [List.takeWhile_cons_of_neg (by simp [hd]), List.append_nil]
    have hstart : o.upcomingStart = o.pos := by
      rw [upcomingStart, hup, h, Nat.sub_self, Nat.add_zero]
    rw [lexToken_run hi (by rw [hrun]; exact hne) (.inl rfl), hrun, hstart]
    rfl
  | name hn =>
    rcases hrest with hends | hends
    · cases hends
    · exact lexToken_name hn h hends
  | literal value =>
    exact lexToken_of_string hs (readTokenWithOptions_writeLiteralString hs true h)
  | hex value => exact lexToken_of_string hs (readTokenWithOptions_writeHexString hs true h)
  | arrayOpen =>
    rw [lexToken, h, List.singleton_append, readLoop_cons (by simp [reset]), readLoop_of_ready rfl]
    rfl
  | arrayClose =>
    rw [lexToken, h, List.singleton_append, readLoop_cons (by simp [reset]), readLoop_of_ready rfl]
    rfl
  | dictOpen =>
    rw [lexToken, h, List.cons_append, List.singleton_append, readLoop_cons (by simp [reset]),
      readLoop_cons (LexState.noConfusion : LexState.lt ≠ .tokenReady), readLoop_of_ready rfl]
    rfl
  | dictClose =>
    rw [lexToken, h, List.cons_append, List.singleton_append, readLoop_cons (by simp [reset]),
      readLoop_cons (LexState.noConfusion : LexState.gt ≠ .tokenReady), readLoop_of_ready rfl]
    rfl

/-! ## Reading on -/

/-- The tokenizer passes white space and comments and stands in front of a text. -/
structure StandsAt (o : Tokenizer) (text : Bytes) : Prop where
  state : o.state ≠ .inlineImage
  ignorable : o.includeIgnorable = false
  pos_le : o.pos ≤ o.input.length
  drop : o.input.drop o.pos = text

theorem StandsAt.readTokenWithOptions (h : StandsAt o (gap ++ raw ++ rest))
    (hgap : ∀ b ∈ gap, isWs b = true) (hspelling : Spelling raw type value)
    (hrest : LetsEnd type rest) : ∃ o', o.readTokenWithOptions true 0 =
      (.ok (spelledToken (o.pos + gap.length) type value raw), o') ∧ StandsAt o' rest ∧
      o'.input = o.input := by
  obtain ⟨token, o', hspec, hread⟩ := readTokenWithOptions_spec h.state h.pos_le true 0
  rw [if_neg (by simp)] at hread
  have hgapped : o.lexToken 0 = (o.advance gap.length).lexToken 0 := by
    apply lexToken_gap h.ignorable hgap
    rw [h.drop, List.append_assoc]
  have hstands : (o.advance gap.length).input.drop (o.advance gap.length).pos = raw ++ rest := by
    show o.input.drop (o.pos + gap.length) = _
    rw [← List.drop_drop, h.drop, List.append_assoc, List.drop_left]
  have htoken : token = spelledToken (o.pos + gap.length) type value raw := by
    have hlex : token = o.lexToken 0 := by
      rw [Tokenizer.readTokenWithOptions, beginRead_eq h.state] at hread
      simpa [lexToken] using (congrArg Prod.fst hread).symm
    rw [hlex, hgapped]
    exact lexToken_spelling h.state h.ignorable hspelling hstands hrest
  have horigin := hspec.origin
  simp only [origin, Prod.mk.injEq] at horigin
  refine ⟨o', htoken ▸ hread, ⟨?_, ?_, ?_, ?_⟩, horigin.1⟩
  · rw [hspec.state]
    decide
  · rw [horigin.2.2]
    exact h.ignorable
  · rw [horigin.1]
    exact hspec.pos_le
  · rw [horigin.1, hspec.pos, htoken]
    show o.input.drop (o.pos + gap.length + raw.length) = rest
    rw [← List.drop_drop, ← List.drop_drop, h.drop, List.append_assoc, List.drop_left,
      List.drop_left]

/-- The next token is the next spelling, and behind it the rest of the text is read. -/
theorem StandsAt.readQpdfToken (h : StandsAt o (gap ++ raw ++ rest))
    (hgap : ∀ b ∈ gap, isWs b = true) (hspelling : Spelling raw type value)
    (hrest : LetsEnd type rest) : ∃ o', o.readQpdfToken 0 =
      (.ok (spelledToken (o.pos + gap.length) type value raw), o') ∧ StandsAt o' rest ∧
      o'.input = o.input := by
  have hstands : StandsAt { o with allowEof := true } (gap ++ raw ++ rest) :=
    ⟨h.state, h.ignorable, h.pos_le, h.drop⟩
  exact hstands.readTokenWithOptions hgap hspelling hrest

/-- The text reaches to the end of the input. -/
theorem StandsAt.pos_add (h : StandsAt o rest) :
    o.pos + rest.length = o.input.length := by
  have hlen := congrArg List.length h.drop
  rw [List.length_drop] at hlen
  have := h.pos_le
  omega

end Flpdf.Tokenizer
