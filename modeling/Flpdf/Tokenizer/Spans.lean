import Flpdf.Tokenizer.Steps

/-! # The span of a token

The loop of `read_token_with_options` is in one of three situations: it skips
white space and comments, it is inside a token, or it has read one byte past
the token.  In each of them the input between the start of the read and the
cursor is accounted for.
-/

namespace Flpdf

/-- White space and comments; the flag tells whether the text ends inside a comment. -/
inductive Gap : Bool → Bytes → Prop where
  | nil : Gap false []
  | space {l : Bytes} {b : UInt8} : Gap false l → isWs b = true → Gap false (l ++ [b])
  | percent {l : Bytes} : Gap false l → Gap true (l ++ [0x25])
  | text {l : Bytes} {b : UInt8} : Gap true l → ¬(b = 0x0d ∨ b = 0x0a) → Gap true (l ++ [b])
  | endOfLine {l : Bytes} {b : UInt8} : Gap true l → b = 0x0d ∨ b = 0x0a → Gap false (l ++ [b])

namespace Tokenizer

variable {t t' : Tokenizer} {b : UInt8} {s₀ maxLen : ℕ}

/-- The bytes since the read began at `s₀` are skipped text. -/
structure Skipping (s₀ : ℕ) (t : Tokenizer) : Prop where
  before : t.beforeToken = true
  outside : t.inToken = false
  raw : t.raw = []
  start : t.tokenStart = t.pos
  state : t.state = .beforeToken ∨ t.state = .inComment ∧ t.includeIgnorable = false
  tokenType : t.tokenType ≠ .eof
  le : s₀ ≤ t.pos
  ignorable : t.includeIgnorable = true → s₀ = t.pos
  gap : Gap (decide (t.state = .inComment)) (slice t.input s₀ t.pos)

/-- The token collected so far is the input from its start to `e`. -/
structure Spans (s₀ e : ℕ) (t : Tokenizer) : Prop where
  tokenType : t.tokenType ≠ .eof
  le : s₀ ≤ t.tokenStart
  ignorable : t.includeIgnorable = true → s₀ = t.tokenStart
  gap : Gap false (slice t.input s₀ t.tokenStart)
  end_eq : e = t.tokenStart + t.raw.length
  raw : slice t.input t.tokenStart e = t.raw
  raw_ne : t.raw ≠ []

/-- What holds whenever `read_token_with_options` tests for the end of its loop. -/
inductive Reading (s₀ : ℕ) (t : Tokenizer) : Prop where
  | skipping (h : Skipping s₀ t)
  | collecting (h : Collecting t) (hs : Spans s₀ t.pos t)
  | ended {e : ℕ} (hb : t.beforeToken = false) (hi : t.inToken = false) (hr : t.state = .tokenReady)
      (hp : t.pos = e + 1) (hs : Spans s₀ e t)

theorem frame_eq_iff : t'.frame = t.frame ↔
    t'.input = t.input ∧ t'.pos = t.pos ∧ t'.tokenStart = t.tokenStart ∧ t'.raw = t.raw ∧
      t'.allowEof = t.allowEof ∧ t'.includeIgnorable = t.includeIgnorable := by
  simp [frame]

theorem Spans.congr {e : ℕ} (h : Spans s₀ e t) (hi : t'.input = t.input)
    (hs : t'.tokenStart = t.tokenStart) (hr : t'.raw = t.raw)
    (hg : t'.includeIgnorable = t.includeIgnorable) (ht : t'.tokenType ≠ .eof) : Spans s₀ e t' where
  tokenType := ht
  le := hs ▸ h.le
  ignorable he := hs ▸ h.ignorable (hg ▸ he)
  gap := by rw [hi, hs]; exact h.gap
  end_eq := by rw [hs, hr]; exact h.end_eq
  raw := by rw [hi, hs, hr]; exact h.raw
  raw_ne := hr ▸ h.raw_ne

theorem Collecting.withPos (h : Collecting t) (p : ℕ) : Collecting { t with pos := p } :=
  ⟨h.started, h.collects, h.state_ne, h.ignorable⟩

/-- A byte that joins the token extends its span. -/
theorem Spans.snoc (h : Spans s₀ t.pos t) (hb : t.input[t.pos]? = some b)
    (hi : t'.input = t.input) (hs : t'.tokenStart = t.tokenStart) (hr : t'.raw = t.raw ++ [b])
    (hg : t'.includeIgnorable = t.includeIgnorable) (ht : t'.tokenType ≠ .eof) :
    Spans s₀ (t.pos + 1) t' where
  tokenType := ht
  le := hs ▸ h.le
  ignorable he := hs ▸ h.ignorable (hg ▸ he)
  gap := by rw [hi, hs]; exact h.gap
  end_eq := by simp [hs, hr, h.end_eq, Nat.add_assoc]
  raw := by
    have hle : t.tokenStart ≤ t.pos := h.end_eq ▸ Nat.le_add_right _ _
    rw [hi, hs, hr, slice_succ hle hb, h.raw]
  raw_ne := by simp [hr]

/-- The first byte of a token. -/
theorem Skipping.spans (h : Skipping s₀ t) (hc : t.state = .beforeToken)
    (hb : t.input[t.pos]? = some b) (hi : t'.input = t.input) (hs : t'.tokenStart = t.tokenStart)
    (hr : t'.raw = t.raw ++ [b]) (hg : t'.includeIgnorable = t.includeIgnorable)
    (ht : t'.tokenType ≠ .eof) : Spans s₀ (t.pos + 1) t' where
  tokenType := ht
  le := by rw [hs, h.start]; exact h.le
  ignorable he := by rw [hs, h.start]; exact h.ignorable (hg ▸ he)
  gap := by simpa [hi, hs, h.start, hc] using h.gap
  end_eq := by simp [hs, h.start, hr, h.raw]
  raw := by rw [hi, hs, hr, h.start, slice_succ (Nat.le_refl _) hb, slice_self, h.raw]
  raw_ne := by simp [hr]

theorem reading_of_collecting (hc : Collecting t)
    (hs : Spans s₀ t.pos { t with raw := t.raw ++ [b] }) :
    Reading s₀ (t.afterCharacter maxLen b) := by
  have hc' : Collecting { t with raw := t.raw ++ [b] } :=
    ⟨hc.started, hc.collects, hc.state_ne, hc.ignorable⟩
  unfold afterCharacter
  rw [if_neg (show ¬t.beforeToken = true by simp [hc.started])]
  dsimp only
  rw [if_pos hc.collects]
  -- the test on the length of the token does not disturb its span
  split_ifs
  · exact .collecting (hc'.move rfl rfl rfl)
      ⟨nofun, hs.le, hs.ignorable, hs.gap, hs.end_eq, hs.raw, hs.raw_ne⟩
  · exact .collecting hc' hs

theorem reading_of_ended (hb : t.beforeToken = false) (hi : t.inToken = false)
    (hr : t.state = .tokenReady) {e : ℕ} (hp : t.pos = e + 1) (hs : Spans s₀ e t) :
    Reading s₀ (t.afterCharacter maxLen b) := by
  simpa [afterCharacter, hb, hi, hr] using Reading.ended hb hi hr hp hs

theorem reading_of_skipping (h : Skipping s₀ { t with tokenStart := t.tokenStart + 1 }) :
    Reading s₀ (t.afterCharacter maxLen b) := by
  have hb : t.beforeToken = true := h.before
  have hi : t.inToken = false := h.outside
  have hr : t.raw = [] := h.raw
  have hlen : ¬(maxLen ≠ 0 ∧ maxLen ≤ t.raw.length ∧ t.state ≠ .tokenReady) := by
    rintro ⟨hne, hle, -⟩
    rw [hr] at hle
    exact hne (Nat.le_zero.mp hle)
  simpa only [afterCharacter, hb, hi, if_true, Bool.false_eq_true, if_false, if_neg hlen] using
    Reading.skipping h

theorem reading_collecting (hc : Collecting t) (hs : Spans s₀ t.pos t)
    (hb : t.input[t.pos]? = some b) : Reading s₀ (t.readByte maxLen b) := by
  have hstep := step_handleCharacter (b := b) (hc.withPos (t.pos + 1))
  obtain ⟨hi, hp, hst, hr, -, hg⟩ := frame_eq_iff.mp hstep.frame
  have hne : ({ t with pos := t.pos + 1 }.handleCharacter b).tokenType ≠ .eof :=
    fun he => hs.tokenType (hstep.eof_of_eof he)
  unfold readByte
  generalize ({ t with pos := t.pos + 1 } : Tokenizer).handleCharacter b = u at *
  rcases hstep.outcome with hu | hu
  · refine reading_of_collecting hu ?_
    rw [hp]
    exact hs.snoc hb hi hst (congrArg (· ++ [b]) hr) hg hne
  · exact reading_of_ended hu.started hu.stopped hu.ready hp (hs.congr hi hst hr hg hne)

/-- The handlers of a byte that starts a token, ignorable or not. -/
theorem Skipping.reading_start (h : Skipping s₀ t) (hs : t.state = .beforeToken)
    (hb : t.input[t.pos]? = some b) (hc : Collecting t')
    (hf : t'.frame = { t with pos := t.pos + 1 }.frame) (ht : t'.tokenType ≠ .eof) :
    Reading s₀ (t'.afterCharacter maxLen b) := by
  obtain ⟨hi, hp, hst, hr, -, hg⟩ := frame_eq_iff.mp hf
  refine reading_of_collecting hc ?_
  rw [hp]
  exact h.spans hs hb hi hst (congrArg (· ++ [b]) hr) hg ht

/-- A skipped byte. -/
theorem Skipping.reading_skip (h : Skipping s₀ t) (hb : t.input[t.pos]? = some b)
    (hign : t.includeIgnorable = false) {s : LexState} (hs : s = .beforeToken ∨ s = .inComment)
    (hgap : Gap (decide (s = .inComment)) (slice t.input s₀ t.pos ++ [b])) :
    Reading s₀ ({ t with pos := t.pos + 1, state := s }.afterCharacter maxLen b) := by
  refine reading_of_skipping ⟨h.before, h.outside, h.raw, congrArg (· + 1) h.start, ?_,
    h.tokenType, Nat.le_succ_of_le h.le, fun he => ?_, ?_⟩
  · exact hs.imp id fun hs => ⟨hs, hign⟩
  · simp [hign] at he
  · exact slice_succ h.le hb ▸ hgap

/-- A byte in front of a token is skipped or starts the token. -/
theorem Skipping.inBeforeToken_cases (h : Skipping s₀ t) (b : UInt8) (p : ℕ) :
    (Collecting ({ t with pos := p }.inBeforeToken b) ∧
      ({ t with pos := p }.inBeforeToken b).frame = { t with pos := p }.frame ∧
      ({ t with pos := p }.inBeforeToken b).tokenType ≠ .eof) ∨
    t.includeIgnorable = false ∧ ∃ s, { t with pos := p }.inBeforeToken b =
      { t with pos := p, state := s } ∧ (s = t.state ∧ isWs b = true ∨ s = .inComment ∧ b = 0x25) := by
  have hbefore := h.before
  have houtside := h.outside
  by_cases hw : isWs b = true
  · rw [inBeforeToken, if_pos hw]
    cases hign : t.includeIgnorable
    · refine .inr ⟨rfl, t.state, ?_, .inl ⟨rfl, hw⟩⟩
      cases t
      simp_all
    · exact .inl ⟨⟨rfl, rfl, by simp, fun _ => rfl⟩, rfl, h.tokenType⟩
  · by_cases hp : b = 0x25
    · rw [inBeforeToken, if_neg hw, if_pos hp]
      cases hign : t.includeIgnorable
      · refine .inr ⟨rfl, .inComment, ?_, .inr ⟨rfl, hp⟩⟩
        cases t
        simp_all
      · exact .inl ⟨⟨rfl, rfl, by simp, fun _ => rfl⟩, rfl, h.tokenType⟩
    · rw [inBeforeToken, if_neg hw, if_neg hp]
      obtain ⟨hs, hf, hb, hi, ht⟩ :=
        inTop_inside { t with pos := p, beforeToken := false, inToken := true } b
      exact .inl ⟨collecting_of_inside hb hi hs, hf, fun he => h.tokenType (ht he)⟩

/-- A byte of a skipped comment. -/
theorem Skipping.inComment_char (hs : t.state = .inComment) (hign : t.includeIgnorable = false)
    (b : UInt8) (p : ℕ) : { t with pos := p }.handleCharacter b =
      { t with pos := p, state := if b = 0x0d ∨ b = 0x0a then .beforeToken else .inComment } := by
  simp only [handleCharacter, hs, handleInComment, hign, Bool.false_eq_true, if_false]
  split_ifs <;> simp [goto, ← hs]

theorem Skipping.beforeToken_char (hs : t.state = .beforeToken) (b : UInt8) (p : ℕ) :
    { t with pos := p }.handleCharacter b = { t with pos := p }.inBeforeToken b := by
  simp [handleCharacter, hs]

theorem reading_skipping (h : Skipping s₀ t) (hb : t.input[t.pos]? = some b) :
    Reading s₀ (t.readByte maxLen b) := by
  rcases h.state with hs | ⟨hs, hign⟩
  · have hgap : Gap false (slice t.input s₀ t.pos) := by simpa [hs] using h.gap
    rw [readByte, Skipping.beforeToken_char hs]
    rcases h.inBeforeToken_cases b (t.pos + 1) with ⟨hc, hf, ht⟩ | ⟨hign, s, hu, hcase⟩
    · exact h.reading_start hs hb hc hf ht
    · rw [hu]
      rcases hcase with ⟨rfl, hw⟩ | ⟨rfl, rfl⟩
      · exact h.reading_skip hb hign (.inl hs) (by simpa [hs] using hgap.space hw)
      · exact h.reading_skip hb hign (.inr rfl) (by simpa using hgap.percent)
  · have hgap : Gap true (slice t.input s₀ t.pos) := by simpa [hs] using h.gap
    rw [readByte, Skipping.inComment_char hs hign]
    split_ifs with he
    · exact h.reading_skip hb hign (.inl rfl) (by simpa using hgap.endOfLine he)
    · exact h.reading_skip hb hign (.inr rfl) (by simpa using hgap.text he)

/-! ## The whole loop -/

/-- The input, the options and the cursor. -/
def config (t : Tokenizer) : Bytes × ℕ × Bool × Bool :=
  (t.input, t.pos, t.allowEof, t.includeIgnorable)

/-- The part of the configuration that no read changes. -/
def origin (t : Tokenizer) : Bytes × Bool × Bool := (t.input, t.allowEof, t.includeIgnorable)

theorem config_of_frame (h : t'.frame = t.frame) : t'.config = t.config := by
  obtain ⟨hi, hp, -, -, ha, hg⟩ := frame_eq_iff.mp h
  simp [config, hi, hp, ha, hg]

theorem afterCharacter_config : (t.afterCharacter maxLen b).config = t.config := by
  unfold afterCharacter
  dsimp only
  split_ifs <;> rfl

theorem Skipping.config_readByte (h : Skipping s₀ t) :
    (t.readByte maxLen b).config = { t with pos := t.pos + 1 }.config := by
  rw [readByte, afterCharacter_config]
  rcases h.state with hs | ⟨hs, hign⟩
  · rw [Skipping.beforeToken_char hs]
    rcases h.inBeforeToken_cases b (t.pos + 1) with ⟨-, hf, -⟩ | ⟨-, s, hu, -⟩
    · exact config_of_frame hf
    · rw [hu]
      rfl
  · rw [Skipping.inComment_char hs hign]
    rfl

theorem Collecting.config_readByte (h : Collecting t) :
    (t.readByte maxLen b).config = { t with pos := t.pos + 1 }.config := by
  rw [readByte, afterCharacter_config]
  exact config_of_frame (step_handleCharacter (h.withPos (t.pos + 1))).frame

theorem Reading.readByte (h : Reading s₀ t) (maxLen : ℕ) (hr : t.state ≠ .tokenReady)
    (hb : t.input[t.pos]? = some b) : Reading s₀ (t.readByte maxLen b) ∧
      (t.readByte maxLen b).config = { t with pos := t.pos + 1 }.config := by
  cases h with
  | skipping h => exact ⟨reading_skipping h hb, h.config_readByte⟩
  | collecting hc hs => exact ⟨reading_collecting hc hs hb, hc.config_readByte⟩
  | ended _ _ hready => exact absurd hready hr

/-- The token is complete and the cursor stands behind it. -/
structure Finished (s₀ : ℕ) (t : Tokenizer) : Prop where
  le : s₀ ≤ t.tokenStart
  ignorable : t.includeIgnorable = true → s₀ = t.tokenStart
  pos : t.pos = t.tokenStart + t.raw.length
  pos_le : t.pos ≤ t.input.length
  raw : slice t.input t.tokenStart t.pos = t.raw
  proper : t.raw ≠ [] → t.tokenType ≠ .eof ∧ Gap false (slice t.input s₀ t.tokenStart)
  empty : t.raw = [] → t.pos = t.input.length ∧ ∃ c, Gap c (slice t.input s₀ t.tokenStart) ∧
    t.tokenType = if c = false ∧ t.allowEof = true then .eof else .bad

/-- A span is never empty, so it ends inside the input. -/
theorem Spans.end_le {e : ℕ} (h : Spans s₀ e t) : e ≤ t.input.length := by
  have hlen := congrArg List.length h.raw
  rw [slice_length] at hlen
  have := h.end_eq
  have := List.length_pos_of_ne_nil h.raw_ne
  omega

theorem Spans.finished {e : ℕ} (h : Spans s₀ e t) : Finished s₀ { t with pos := e } where
  le := h.le
  ignorable := h.ignorable
  pos := h.end_eq
  pos_le := h.end_le
  raw := h.raw
  proper _ := ⟨h.tokenType, h.gap⟩
  empty he := absurd he h.raw_ne

/-- The token that ends the loop on an input byte. -/
theorem Reading.finished (h : Reading s₀ t) (hr : t.state = .tokenReady) :
    Finished s₀ t.unread ∧ t.unread.origin = t.origin := by
  cases h with
  | skipping h => rcases h.state with hs | ⟨hs, -⟩ <;> simp [hs] at hr
  | collecting hc hs =>
    rw [show t.unread = t by simp [unread, hc.collects]]
    exact ⟨hs.finished, rfl⟩
  | @ended e hb hi _ hp hs =>
    rw [show t.unread = { t with pos := e } by simp [unread, hb, hi, hp]]
    exact ⟨hs.finished, rfl⟩

/-- The artificial form feed ends every unfinished word. -/
theorem formFeed_ends (hw : t.state ∈ [LexState.name, .nameHex1, .nameHex2, .number, .real,
    .sign, .decimal, .literal]) : (t.handleCharacter 0x0c).inToken = false := by
  have hd : isTokenDelimiter 0x0c = true := rfl
  have hx : hexValue 0x0c = none := rfl
  have hg : isAsciiDigit 0x0c = false := rfl
  simp only [List.mem_cons, List.not_mem_nil, or_false] at hw
  rcases hw with hw | hw | hw | hw | hw | hw | hw | hw <;>
    simp [handleCharacter, hw, inName, inNameHex1, inNameHex2, inNumber, inReal, inSign, inDecimal,
      inLiteral, hd, hx, hg, endBefore]

/-- `present_eof` inside a token completes it and adds nothing to it. -/
theorem presentEof_collecting (hc : Collecting t) (hs : Spans s₀ t.pos t) :
    t.presentEof.inToken = true ∧ Spans s₀ t.pos t.presentEof ∧
      t.presentEof.config = t.config := by
  have keep {u : Tokenizer} (hu : u.tokenType ≠ .eof) (hi : u.inToken = true)
      (hf : u.frame = t.frame) :
      u.inToken = true ∧ Spans s₀ t.pos u ∧ u.config = t.config := by
    obtain ⟨hin, -, hst, hr, -, hg⟩ := frame_eq_iff.mp hf
    exact ⟨hi, hs.congr hin hst hr hg hu, config_of_frame hf⟩
  have word (hw : t.state ∈ [LexState.name, .nameHex1, .nameHex2, .number, .real, .sign,
      .decimal, .literal]) :
      let u := { t.presentCharacter 0x0c with inToken := true, state := .tokenReady }
      u.inToken = true ∧ Spans s₀ t.pos u ∧ u.config = t.config := by
    have hstep := step_handleCharacter (b := 0x0c) hc
    have hstop := formFeed_ends hw
    have hchar : t.presentCharacter 0x0c = t.handleCharacter 0x0c := by
      simp [presentCharacter, hstop]
    rw [hchar]
    exact keep (fun he => hs.tokenType (hstep.eof_of_eof he)) rfl hstep.frame
  unfold presentEof
  cases hst : t.state with
  | beforeToken => exact absurd hst hc.state_ne
  | inSpace =>
    simp only [hc.ignorable (.inl hst), if_true]
    exact keep (by simp [endWith]) hc.collects rfl
  | inComment =>
    simp only [hc.ignorable (.inr hst), if_true]
    exact keep (by simp [endWith]) hc.collects rfl
  | tokenReady => exact keep hs.tokenType hc.collects rfl
  | name | nameHex1 | nameHex2 | number | real | sign | decimal | literal =>
    exact word (by simp [hst])
  | _ => exact keep nofun hc.collects rfl

/-- The input ends in front of a token. -/
theorem Skipping.finished_readEof (h : Skipping s₀ t) (hend : t.pos = t.input.length) :
    Finished s₀ t.readEof.unread ∧ t.readEof.unread.origin = t.origin := by
  have key (u : Tokenizer) (hb : u.beforeToken = true) (hf : u.frame = t.frame)
      (ht : ∃ c, Gap c (slice t.input s₀ t.pos) ∧
        u.tokenType = if c = false ∧ t.allowEof = true then .eof else .bad) :
      Finished s₀ u.unread ∧ u.unread.origin = t.origin := by
    obtain ⟨hin, hp, hst, hr, ha, hg⟩ := frame_eq_iff.mp hf
    have hraw : u.raw = [] := hr.trans h.raw
    have hstart : u.tokenStart = u.pos := by rw [hst, hp, h.start]
    rw [show u.unread = u by simp [unread, hb]]
    exact ⟨⟨by rw [hstart, hp]; exact h.le, fun he => by rw [hstart, hp]; exact h.ignorable (hg ▸ he),
      by simp [hraw, hstart], by rw [hp, hin, hend], by simp [hraw, hstart], absurd hraw,
      fun _ => ⟨by rw [hp, hin, hend], by rw [hin, hstart, hp, ha]; exact ht⟩⟩,
      by simp [origin, hin, ha, hg]⟩
  rcases h.state with hs | ⟨hs, hign⟩
  · have hgap : Gap false (slice t.input s₀ t.pos) := by simpa [hs] using h.gap
    have heof : t.presentEof = t.endWith .eof := by simp [presentEof, hs]
    rw [readEof, heof]
    cases ha : t.allowEof
    · rw [if_pos ⟨rfl, by simp [endWith, ha]⟩]
      exact key _ h.before rfl ⟨false, hgap, by simp [ha]⟩
    · rw [if_neg (by simp [endWith, ha])]
      exact key _ h.before rfl ⟨false, hgap, by simp [ha, endWith]⟩
  · have hgap : Gap true (slice t.input s₀ t.pos) := by simpa [hs] using h.gap
    have heof : t.presentEof = t.endWith .bad := by simp [presentEof, hs, hign]
    rw [readEof, heof, if_neg (by simp [endWith])]
    exact key _ h.before rfl ⟨true, hgap, by simp [endWith]⟩

theorem Collecting.finished_readEof (hc : Collecting t) (hs : Spans s₀ t.pos t) :
    Finished s₀ t.readEof.unread ∧ t.readEof.unread.origin = t.origin := by
  obtain ⟨hi, hspan, hconf⟩ := presentEof_collecting hc hs
  have heof : t.readEof = t.presentEof := by simp [readEof, hspan.tokenType]
  simp only [config, Prod.mk.injEq] at hconf
  obtain ⟨hin, hp, ha, hg⟩ := hconf
  rw [heof, show t.presentEof.unread = t.presentEof by simp [unread, hi]]
  rw [← hp] at hspan
  exact ⟨hspan.finished, by simp [origin, hin, ha, hg]⟩

/-- The loop over the rest of the input ends with the cursor behind a complete token. -/
theorem finished_readLoop (maxLen : ℕ) {rest : Bytes} (h : Reading s₀ t) (hrest : t.input.drop t.pos = rest)
    (hle : t.pos ≤ t.input.length) :
    Finished s₀ (readLoop maxLen rest t).unread ∧
      (readLoop maxLen rest t).unread.origin = t.origin := by
  induction rest generalizing t with
  | nil =>
    rw [readLoop]
    split_ifs with hr
    · exact h.finished hr
    · have hend : t.pos = t.input.length := le_antisymm hle (List.drop_eq_nil_iff.mp hrest)
      cases h with
      | skipping h => exact h.finished_readEof hend
      | collecting hc hs => exact hc.finished_readEof hs
      | ended _ _ hready => exact absurd hready hr
  | cons b rest ih =>
    rw [readLoop]
    split_ifs with hr
    · exact h.finished hr
    · obtain ⟨hb, hdrop⟩ := drop_eq_cons_iff.mp hrest
      obtain ⟨hread, hconf⟩ := h.readByte maxLen hr hb
      simp only [config, Prod.mk.injEq] at hconf
      obtain ⟨hin, hp, ha, hg⟩ := hconf
      have hlt := (List.getElem?_eq_some_iff.mp hb).1
      have := ih hread (by rw [hin, hp, hdrop]) (by rw [hin, hp]; exact hlt)
      rwa [show (t.readByte maxLen b).origin = t.origin by simp [origin, hin, ha, hg]] at this

/-! ## One read -/

theorem beginRead_eq (h : t.state ≠ .inlineImage) : t.beginRead = t.reset := by
  simp [beginRead, h, reset]

theorem skipping_reset (t : Tokenizer) : Skipping t.pos t.reset where
  before := rfl
  outside := rfl
  raw := rfl
  start := rfl
  state := .inl rfl
  tokenType := nofun
  le := le_rfl
  ignorable _ := rfl
  gap := by simpa [reset] using Gap.nil

/-- The token a read returns and the tokenizer it leaves behind. -/
structure ReadSpec (t : Tokenizer) (token : Token) (t' : Tokenizer) : Prop where
  origin : t'.origin = t.origin
  state : t'.state = .beforeToken
  le : t.pos ≤ token.start
  ignorable : t.includeIgnorable = true → t.pos = token.start
  endPos : token.endPos = token.start + token.raw.length
  pos : t'.pos = token.endPos
  pos_le : t'.pos ≤ t.input.length
  raw : slice t.input token.start token.endPos = token.raw
  proper : token.raw ≠ [] → token.tokenType ≠ .eof ∧ Gap false (slice t.input t.pos token.start)
  empty : token.raw = [] → t'.pos = t.input.length ∧ ∃ c, Gap c (slice t.input t.pos token.start) ∧
    token.tokenType = if c = false ∧ t.allowEof = true then .eof else .bad

/-- Every read ends with a token; `allowBad` decides whether a bad one is an error. -/
theorem readTokenWithOptions_spec (hs : t.state ≠ .inlineImage) (hp : t.pos ≤ t.input.length)
    (allowBad : Bool) (maxLen : ℕ) : ∃ token t', ReadSpec t token t' ∧
      t.readTokenWithOptions allowBad maxLen =
        (if token.tokenType = .bad ∧ !allowBad then
          .error (token.start, token.errorMessage.getD (ascii "bad token"))
        else .ok token, t') := by
  have hstart : Reading t.pos t.beginRead := beginRead_eq hs ▸ .skipping (skipping_reset t)
  have hrest : t.beginRead.input.drop t.beginRead.pos = t.input.drop t.pos := by
    rw [beginRead_eq hs]
    rfl
  have hle : t.beginRead.pos ≤ t.beginRead.input.length := by
    rw [beginRead_eq hs]
    exact hp
  obtain ⟨hf, ho⟩ := finished_readLoop maxLen hstart hrest hle
  have ho : (readLoop maxLen (t.input.drop t.pos) t.beginRead).unread.origin = t.origin := by
    rw [ho, beginRead_eq hs]
    rfl
  generalize hu : (readLoop maxLen (t.input.drop t.pos) t.beginRead).unread = u at hf ho
  simp only [origin, Prod.mk.injEq] at ho
  obtain ⟨hin, ha, hg⟩ := ho
  refine ⟨u.takeReadyToken, u.reset, ?_, ?_⟩
  · exact
      { origin := by simp [origin, reset, hin, ha, hg]
        state := rfl
        le := hf.le
        ignorable := fun he => hf.ignorable (hg ▸ he)
        endPos := rfl
        pos := hf.pos
        pos_le := hin ▸ hf.pos_le
        raw := by
          have hraw := hf.raw
          rwa [hf.pos, hin] at hraw
        proper := fun he => hin ▸ hf.proper he
        empty := fun he => by
          have := hf.empty he
          rwa [hin, ha] at this }
  · simp only [readTokenWithOptions, hu]
    split_ifs <;> rfl

end Tokenizer

end Flpdf
