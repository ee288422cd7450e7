import Flpdf.Syntax.NameRoundTrip

/-! # Messages about names

A NUL comes into the value of a name only with a message about a stray `#`, and
a written name without NUL is read back without a message.
-/

namespace Flpdf.Tokenizer

variable {t o : Tokenizer} {b : UInt8} {rest v r : Bytes}

/-! ## A NUL has a message -/

/-- A name with a NUL has a message. -/
def Complains (t : Tokenizer) : Prop := 0 ∈ t.value → t.errorMessage.isSome = true

/-- Inside a name whose NULs all have a message. -/
structure InNameText (t : Tokenizer) : Prop where
  state : isNameState t.state = true
  complains : t.Complains
  code : t.state = .nameHex2 → t.charCode < 256

/-- The token is a name whose NULs have a message, or a bad token. -/
structure EndsName (t : Tokenizer) : Prop where
  state : t.state = .tokenReady
  type : t.tokenType = .name ∨ t.tokenType = .bad
  complains : t.Complains

theorem inName_complains (hstate : t.state = .name) (h : t.Complains) :
    InNameText (t.inName b) ∨ EndsName (t.inName b) := by
  unfold inName
  by_cases hd : isTokenDelimiter b = true
  · rw [if_pos hd]
    refine .inr ⟨rfl, ?_, h⟩
    by_cases hbad : t.bad = true
    · exact .inr (if_pos hbad)
    · exact .inl (if_neg hbad)
  rw [if_neg hd]
  left
  by_cases hhash : b = 0x23
  · rw [if_pos hhash]
    exact ⟨rfl, h, nofun⟩
  · rw [if_neg hhash]
    refine ⟨by rw [push, hstate]; rfl, ?_, ?_⟩
    · intro hzero
      rcases List.mem_append.mp hzero with hold | hnew
      · exact h hold
      · rw [← List.mem_singleton.mp hnew] at hd
        exact absurd rfl hd
    · intro hhex
      rw [push, hstate] at hhex
      cases hhex

theorem inNameText_handleCharacter (h : InNameText t) :
    InNameText (t.handleCharacter b) ∨ EndsName (t.handleCharacter b) := by
  unfold handleCharacter
  cases hs : t.state with
  | name => exact inName_complains hs h.complains
  | nameHex1 =>
    dsimp only
    unfold inNameHex1
    cases hhex : hexValue b with
    | some w =>
      have hlt := hexValue_lt hhex
      refine .inl ⟨rfl, h.complains, fun _ => ?_⟩
      show w.toNat <<< 4 < 256
      rw [Nat.shiftLeft_eq]
      omega
    | none => exact inName_complains rfl fun _ => rfl
  | nameHex2 =>
    dsimp only
    unfold inNameHex2
    cases hhex : hexValue b with
    | none => exact inName_complains rfl fun _ => rfl
    | some w =>
      dsimp only
      by_cases hcode : t.charCode ||| w.toNat = 0
      · rw [if_pos hcode]
        exact .inl ⟨rfl, fun _ => rfl, nofun⟩
      · rw [if_neg hcode]
        refine .inl ⟨rfl, ?_, nofun⟩
        intro hzero
        rcases List.mem_append.mp hzero with hold | hnew
        · exact h.complains hold
        · have hlt : t.charCode ||| w.toNat < 2 ^ 8 := by
            have hw := hexValue_lt hhex
            exact Nat.or_lt_two_pow (h.code hs) (by omega)
          have hmod : (t.charCode ||| w.toNat) % 2 ^ 8 = 0 :=
            UInt8.toNat_ofNat'.symm.trans (congrArg UInt8.toNat (List.mem_singleton.mp hnew).symm)
          rw [Nat.mod_eq_of_lt hlt] at hmod
          exact absurd hmod hcode
  | _ =>
    have hstate := h.state
    rw [hs] at hstate
    cases hstate

theorem inNameText_readByte (h : InNameText t) :
    InNameText (t.readByte 0 b) ∨ EndsName (t.readByte 0 b) := by
  have hstep : InNameText ({ t with pos := t.pos + 1 }.handleCharacter b) ∨
      EndsName ({ t with pos := t.pos + 1 }.handleCharacter b) :=
    inNameText_handleCharacter ⟨h.state, h.complains, h.code⟩
  rw [readByte, afterCharacter]
  simp only [ne_eq, not_true_eq_false, false_and, if_false]
  rcases hstep with hstep | hstep
  · left
    split_ifs <;> exact ⟨hstep.state, hstep.complains, hstep.code⟩
  · right
    split_ifs <;> exact ⟨hstep.state, hstep.type, hstep.complains⟩

theorem endsName_readEof (h : InNameText t) : EndsName t.readEof := by
  have hready := ready_of_delimiter (d := 0x0c) h.state rfl
  have heof : t.presentEof =
      { t.presentCharacter 0x0c with inToken := true, state := .tokenReady } := by
    have hstate := h.state
    cases hs : t.state <;> simp [hs, isNameState, presentEof] at hstate ⊢
  have hends : EndsName t.presentEof := by
    rw [heof]
    rcases inNameText_handleCharacter (b := 0x0c) h with hstep | hstep
    · have hstate := hstep.state
      rw [hready] at hstate
      cases hstate
    · unfold presentCharacter
      dsimp only
      split_ifs <;> exact ⟨rfl, hstep.type, hstep.complains⟩
  have hnot : ¬(t.presentEof.tokenType = .eof ∧ (!t.presentEof.allowEof) = true) := by
    rintro ⟨heof, -⟩
    rcases hends.type with htype | htype <;> rw [htype] at heof <;> cases heof
  rw [readEof, if_neg hnot]
  exact hends

/-- Whatever follows, a name keeps its messages to its end. -/
theorem endsName_readLoop (h : InNameText t) : EndsName (readLoop 0 rest t) := by
  induction rest generalizing t with
  | nil =>
    have hne : t.state ≠ .tokenReady := by
      intro he
      have hstate := h.state
      rw [he] at hstate
      cases hstate
    rw [readLoop, if_neg hne]
    exact endsName_readEof h
  | cons b rest ih =>
    have hne : t.state ≠ .tokenReady := by
      intro he
      have hstate := h.state
      rw [he] at hstate
      cases hstate
    rw [readLoop_cons hne]
    rcases inNameText_readByte (b := b) h with hstep | hstep
    · exact ih hstep
    · rw [readLoop_of_ready hstep.state]
      exact hstep

theorem inNameText_slash (o : Tokenizer) : InNameText (o.reset.readByte 0 0x2f) := by
  refine ⟨rfl, ?_, nofun⟩
  intro hzero
  cases List.mem_singleton.mp hzero

/-! ## A name without NUL has none -/

/-- Inside a name about which there is nothing to say. -/
def CleanName (o : Tokenizer) (value raw : Bytes) (t : Tokenizer) : Prop :=
  ∃ code hex, t = readingName o value raw code hex none .plain

theorem cleanName_hash (code : ℕ) (hex : UInt8) :
    (readingName o v r code hex none .plain).readByte 0 0x23 =
      readingName o v (r ++ [0x23]) 0 hex none .hash := by
  have hd : isTokenDelimiter 0x23 = false := rfl
  simp [readByte, handleCharacter, inName, hd, afterCharacter, readingName, reading, Nat.add_assoc]

theorem cleanName_digit (code : ℕ) (hex : UInt8) {w : UInt8} (hb : hexValue b = some w) :
    (readingName o v r code hex none .hash).readByte 0 b =
      readingName o v (r ++ [b]) code hex none (.digit b w hb) := by
  simp [readByte, handleCharacter, inNameHex1, hb, afterCharacter, readingName, reading,
    Nat.add_assoc]

theorem cleanName_escape (code : ℕ) (hex : UInt8) {x w w' : UInt8} {hx : hexValue x = some w} {k : ℕ}
    (hb : hexValue b = some w') (hk : w.toNat <<< 4 ||| w'.toNat = k) (hne : k ≠ 0) :
    (readingName o v r code hex none (.digit x w hx)).readByte 0 b =
      readingName o (v ++ [k.toUInt8]) (r ++ [b]) k x none .plain := by
  simp only [readByte, handleCharacter, readingName, reading, inNameHex2, hb, hk, if_neg hne]
  simp [afterCharacter, Nat.add_assoc]

theorem cleanName_plain (code : ℕ) (hex : UInt8) (hd : isTokenDelimiter b = false) (hb : b ≠ 0x23) :
    (readingName o v r code hex none .plain).readByte 0 b =
      readingName o (v ++ [b]) (r ++ [b]) code hex none .plain := by
  simp [readByte, handleCharacter, inName, hd, hb, afterCharacter, readingName, reading, push,
    Nat.add_assoc]

theorem readingName_not_ready (code : ℕ) (hex : UInt8) (p : NamePart) :
    (readingName o v r code hex none p).state ≠ .tokenReady := by
  cases p <;> simp [readingName, reading]

/-- A byte other than NUL is read back as it was. -/
theorem CleanName.nameByte (h : CleanName o v r t) (hb : b ≠ 0) (rest : Bytes) :
    ∃ t', CleanName o (v ++ [b]) (r ++ nameByte b) t' ∧
      readLoop 0 (Flpdf.nameByte b ++ rest) t = readLoop 0 rest t' := by
  obtain ⟨code, hex, rfl⟩ := h
  rw [Flpdf.nameByte, if_neg hb]
  by_cases he : nameNeedsEscape b = true
  · obtain ⟨k, hk, hne, hcode⟩ := hexDigits_join_pos b hb
    rw [if_pos he]
    refine ⟨_, ⟨k, hexDigit (b >>> 4), rfl⟩, ?_⟩
    rw [List.cons_append, readLoop_cons (readingName_not_ready _ _ _), cleanName_hash,
      List.cons_append, readLoop_cons (readingName_not_ready _ _ _),
      cleanName_digit _ _ (hexValue_hexDigit_high b), List.singleton_append,
      readLoop_cons (readingName_not_ready _ _ _),
      cleanName_escape _ _ (hexValue_hexDigit_low b) hk hne, hcode]
    simp
  · rw [if_neg he]
    obtain ⟨hd, hhash⟩ := safe_iff b hb (by simpa using he)
    refine ⟨_, ⟨code, hex, rfl⟩, ?_⟩
    rw [List.singleton_append, readLoop_cons (readingName_not_ready _ _ _),
      cleanName_plain _ _ hd hhash]

theorem CleanName.flatMap_nameByte {n : Bytes} (h : CleanName o v r t) (hn : 0 ∉ n) (rest : Bytes) :
    ∃ t', CleanName o (v ++ n) (r ++ n.flatMap Flpdf.nameByte) t' ∧
      readLoop 0 (n.flatMap Flpdf.nameByte ++ rest) t = readLoop 0 rest t' := by
  induction n generalizing v r t with
  | nil =>
    rw [List.append_nil, List.flatMap_nil, List.append_nil, List.nil_append]
    exact ⟨t, h, rfl⟩
  | cons b n ih =>
    rw [List.mem_cons, not_or] at hn
    obtain ⟨t₁, h₁, hread⟩ := h.nameByte (Ne.symm hn.1) (n.flatMap Flpdf.nameByte ++ rest)
    obtain ⟨t', h', hread'⟩ := ih h₁ hn.2
    rw [List.append_assoc, List.append_assoc, List.singleton_append] at h'
    refine ⟨t', h', ?_⟩
    rw [List.flatMap_cons, List.append_assoc, hread, hread']

theorem cleanName_slash (o : Tokenizer) : CleanName o [0x2f] [0x2f] (o.reset.readByte 0 0x2f) :=
  ⟨0, 0, rfl⟩

/-- The end of the input ends the name. -/
theorem CleanName.readEof (h : CleanName o v r t) :
    t.readEof.tokenType = .name ∧ t.readEof.value = v ∧ t.readEof.errorMessage = none ∧
      t.readEof.inToken = true ∧ t.readEof.pos = o.pos + r.length := by
  obtain ⟨code, hex, rfl⟩ := h
  have hd : isTokenDelimiter 0x0c = true := rfl
  simp [Tokenizer.readEof, presentEof, presentCharacter, handleCharacter, inName, hd, endBefore,
    readingName, reading]

/-! ## The whole text is one name -/

/-- The token of a text that starts with a slash. -/
theorem readQpdfToken_slash (rest : Bytes) :
    ∃ token t', ({ input := 0x2f :: rest } : Tokenizer).readQpdfToken 0 = (.ok token, t') ∧
      (token.tokenType = .name ∨ token.tokenType = .bad) ∧
      (token.tokenType = .name → 0 ∈ token.value → token.errorMessage.isSome = true) := by
  generalize ho : ({ input := 0x2f :: rest, allowEof := true } : Tokenizer) = o
  have hs : o.state ≠ .inlineImage := by simp [← ho]
  have hends : EndsName (readLoop 0 (o.input.drop o.pos) o.reset) := by
    have hdrop : o.input.drop o.pos = 0x2f :: rest := by simp [← ho]
    rw [hdrop, readLoop_cons (by simp [reset])]
    exact endsName_readLoop (inNameText_slash o)
  have hread : ({ input := 0x2f :: rest } : Tokenizer).readQpdfToken 0 =
      o.readTokenWithOptions true 0 := by
    rw [← ho]
    rfl
  rw [hread, readTokenWithOptions, beginRead_eq hs]
  generalize readLoop 0 (o.input.drop o.pos) o.reset = u at hends
  have htype : u.unread.takeReadyToken.tokenType = u.tokenType := by
    unfold unread
    split_ifs <;> rfl
  have hmessage : u.unread.takeReadyToken.errorMessage = u.errorMessage := by
    unfold unread
    split_ifs <;> rfl
  have hvalue : u.tokenType = .name → u.unread.takeReadyToken.value = u.value := by
    intro hname
    unfold unread
    split_ifs <;> simp [takeReadyToken, hname]
  refine ⟨u.unread.takeReadyToken, u.unread.reset, if_neg (by simp), ?_, ?_⟩
  · rw [htype]
    exact hends.type
  · intro hname hzero
    rw [htype] at hname
    rw [hvalue hname] at hzero
    rw [hmessage]
    exact hends.complains hzero

/-- A written name without NUL is its own token, up to the end of the text. -/
theorem readQpdfToken_writtenName {n : Bytes} (hn : 0 ∉ n) :
    ∃ token t', ({ input := 0x2f :: n.flatMap Flpdf.nameByte } : Tokenizer).readQpdfToken 0 =
        (.ok token, t') ∧ token.tokenType = .name ∧ token.value = 0x2f :: n ∧
      token.errorMessage = none ∧ t'.pos = (0x2f :: n.flatMap Flpdf.nameByte).length := by
  generalize ho : ({ input := 0x2f :: n.flatMap Flpdf.nameByte, allowEof := true } : Tokenizer) = o
  have hs : o.state ≠ .inlineImage := by simp [← ho]
  have hdrop : o.input.drop o.pos = 0x2f :: (n.flatMap Flpdf.nameByte ++ []) := by simp [← ho]
  obtain ⟨t', h', hloop⟩ := (cleanName_slash o).flatMap_nameByte hn []
  have hne : t'.state ≠ .tokenReady := by
    obtain ⟨code, hex, rfl⟩ := h'
    exact readingName_not_ready _ _ _
  have hu : readLoop 0 (o.input.drop o.pos) o.reset = t'.readEof := by
    rw [hdrop, readLoop_cons (by simp [reset]), hloop, readLoop, if_neg hne]
  obtain ⟨htype, hvalue, hmessage, hin, hpos⟩ := h'.readEof
  have hunread : t'.readEof.unread = t'.readEof := by
    rw [unread, hin]
    rfl
  have hread := readTokenWithOptions_of_loop hs true hu (by rw [htype]; decide)
  rw [hunread] at hread
  refine ⟨t'.readEof.takeReadyToken, t'.readEof.reset, ?_, htype, ?_, hmessage, ?_⟩
  · rw [← hread, ← ho]
    rfl
  · rw [takeReadyToken, htype, hvalue]
    rfl
  · show t'.readEof.pos = _
    rw [hpos, ← ho]
    simp

end Flpdf.Tokenizer
