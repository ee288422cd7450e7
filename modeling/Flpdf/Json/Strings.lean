import Flpdf.Unicode.Utf16
import Flpdf.Json.Grammar

/-!
# JSON strings

The string states of the lexer read exactly the string texts of the grammar.
-/

namespace Flpdf.Json.Lexer

variable {l l' : Lexer} {b e : UInt8} {rest text : Bytes}

/-! ## Bytes -/

/-- The bytes that reach the dispatch on the state. -/
def isOrdinary (byte : UInt8) : Bool := 32 < byte && (delimiter byte).isNone

theorem isOrdinary_iff (b : UInt8) :
    isOrdinary b = true ↔ ¬b < 32 ∧ b ≠ 0x20 ∧ delimiter b = none :=
  forall_byte (p := fun b => isOrdinary b = true ↔ ¬b < 32 ∧ b ≠ 0x20 ∧ delimiter b = none)
    (by decide) b

theorem lexByte_ordinary (h : isOrdinary b = true) : l.lexByte b = l.inState b := by
  obtain ⟨hcontrol, hblank, hdelimiter⟩ := (isOrdinary_iff b).mp h
  rw [lexByte, if_neg hcontrol, if_neg hblank, hdelimiter]

/-- Any other byte ends a token that is not a string. -/
theorem lexByte_ends (h : isOrdinary b = false) (htop : l.state ≠ .top)
    (hstring : l.state ≠ .string) :
    (∃ e, l.lexByte b = .error e) ∨ l.lexByte b = .ok (.stop l) := by
  unfold lexByte
  by_cases hcontrol : b < 32
  · rw [if_pos hcontrol]
    split_ifs
    · exact .inr rfl
    · exact .inl ⟨_, rfl⟩
  · rw [if_neg hcontrol]
    by_cases hblank : b = 0x20
    · rw [if_pos hblank, if_neg htop, if_neg hstring]
      exact .inr rfl
    · rw [if_neg hblank]
      cases hdelimiter : delimiter b with
      | none =>
        rw [(isOrdinary_iff b).mpr ⟨hcontrol, hblank, hdelimiter⟩] at h
        cases h
      | some state =>
        dsimp only
        rw [if_neg htop, if_neg hstring]
        exact .inr rfl

/-- The end of the loop completes a number and changes no other state. -/
theorem endToken_state {current : Option UInt8} (h : l.endToken current = .ok l') :
    l'.state = .number ∨ l' = l := by
  unfold endToken at h
  by_cases hempty : l.token = []
  · rw [if_pos hempty] at h
    exact .inr (Except.ok.inj h).symm
  · rw [if_neg hempty] at h
    split at h
    · exact .inl (Except.ok.inj h ▸ rfl)
    · exact .inl (Except.ok.inj h ▸ rfl)
    · exact .inl (Except.ok.inj h ▸ rfl)
    · exact .inr (Except.ok.inj h).symm
    · exact .inr (Except.ok.inj h).symm
    · cases h

theorem scan_nil (h : scan [] l = .ok (l', rest)) :
    { l with done := true }.endToken none = .ok l' ∧ rest = [] := by
  rw [scan] at h
  cases hend : { l with done := true }.endToken none with
  | error e =>
    rw [hend] at h
    cases h
  | ok l₁ =>
    rw [hend] at h
    cases h
    exact ⟨rfl, rfl⟩

theorem scan_more (h : l.lexByte b = .ok (.more l')) : scan (b :: text) l = scan text l' := by
  rw [scan, h]

theorem scan_last (h : l.lexByte b = .ok (.last l')) : scan (b :: text) l = .ok (l', text) := by
  rw [scan, h]

theorem scan_error {message : Bytes} (h : l.lexByte b = .error message) :
    scan (b :: text) l = .error message := by
  rw [scan, h]

theorem scan_stop (hstop : l.lexByte b = .ok (.stop l)) (h : scan (b :: text) l = .ok (l', rest)) :
    l.endToken (some b) = .ok l' ∧ rest = b :: text := by
  rw [scan, hstop] at h
  dsimp only at h
  cases hend : l.endToken (some b) with
  | error e =>
    rw [hend] at h
    cases h
  | ok l₁ =>
    rw [hend] at h
    cases h
    exact ⟨rfl, rfl⟩

/-- Inside an escape only the dispatch on the state leads to a whole string. -/
theorem scan_inner (htop : l.state ≠ .top) (hstring : l.state ≠ .string)
    (hafter : l.state ≠ .afterString) (h : scan text l = .ok (l', rest))
    (hend : l'.state = .afterString) :
    ∃ b text', text = b :: text' ∧ isOrdinary b = true := by
  cases text with
  | nil =>
    rcases endToken_state (scan_nil h).1 with hnumber | rfl
    · rw [hend] at hnumber
      cases hnumber
    · exact absurd hend hafter
  | cons b text =>
    refine ⟨b, text, rfl, ?_⟩
    by_contra hordinary
    rw [Bool.not_eq_true] at hordinary
    rcases lexByte_ends hordinary htop hstring with ⟨e, he⟩ | hstop
    · rw [scan_error he] at h
      cases h
    · rcases endToken_state (scan_stop hstop h).1 with hnumber | rfl
      · rw [hend] at hnumber
        cases hnumber
      · exact hafter hend

/-! ## The bytes of a string -/

/-- A plain byte joins the token. -/
theorem lexByte_plain (hstate : l.state = .string) (hlow : 0x20 ≤ b) (hquote : b ≠ 0x22)
    (hslash : b ≠ 0x5c) : l.lexByte b = .ok (.more (l.append b)) := by
  have hcontrol : ¬b < 32 := by
    rw [UInt8.not_lt]
    exact hlow
  rw [lexByte, if_neg hcontrol]
  by_cases hblank : b = 0x20
  · rw [if_pos hblank, if_neg (by simp [hstate]), if_pos hstate]
  · rw [if_neg hblank]
    cases delimiter b with
    | none =>
      dsimp only
      rw [inState, hstate]
      dsimp only
      rw [inString, if_neg hquote, if_neg hslash]
    | some state =>
      dsimp only
      rw [if_neg (by simp [hstate]), if_pos hstate]

theorem lexByte_quote (hstate : l.state = .string) : l.lexByte 0x22 = l.inString 0x22 := by
  rw [lexByte_ordinary rfl, inState, hstate]

theorem lexByte_slash (hstate : l.state = .string) :
    l.lexByte 0x5c = .ok (.more (l.ignoreState .backslash)) := by
  rw [lexByte_ordinary rfl, inState, hstate]
  rfl

theorem escaped_isOrdinary {v : UInt8} (h : escaped e = some v) : isOrdinary e = true := by
  have hall := forall_byte (p := fun e => (escaped e).isSome = true → isOrdinary e = true)
    (by decide) e
  exact hall (by rw [h]; rfl)

theorem hexValue_isOrdinary {v : UInt8} (h : hexValue b = some v) : isOrdinary b = true := by
  have hall := forall_byte (p := fun b => (hexValue b).isSome = true → isOrdinary b = true)
    (by decide) b
  exact hall (by rw [h]; rfl)

theorem mem_escapes_iff (e v : UInt8) : (e, v) ∈ escapes ↔ escaped e = some v := by
  constructor
  · intro h
    simp only [escapes, List.mem_cons, Prod.mk.injEq, List.not_mem_nil, or_false] at h
    rcases h with ⟨rfl, rfl⟩ | ⟨rfl, rfl⟩ | ⟨rfl, rfl⟩ | ⟨rfl, rfl⟩ | ⟨rfl, rfl⟩ | ⟨rfl, rfl⟩ |
      ⟨rfl, rfl⟩ | ⟨rfl, rfl⟩ <;> rfl
  · intro h
    unfold escaped at h
    split_ifs at h with hself hb hf hn hr ht
    · obtain rfl := Option.some.inj h
      rcases hself with rfl | rfl | rfl <;> decide
    all_goals
      obtain rfl := Option.some.inj h
      subst e
      decide

/-- The string behind a simple escape. -/
def afterEscape (l : Lexer) (v : UInt8) : Lexer := (l.push [v]).ignore.ignore

theorem scan_escape {v : UInt8} (hstate : l.state = .string) (h : escaped e = some v) :
    scan (0x5c :: e :: text) l = scan text (l.afterEscape v) := by
  rw [scan_more (lexByte_slash hstate)]
  apply scan_more
  rw [lexByte_ordinary (escaped_isOrdinary h), inState]
  dsimp only [ignoreState, ignore]
  rw [inBackslash, h]
  cases l
  cases hstate
  rfl

/-! ## Unicode escapes -/

/-- The lexer behind one more digit. -/
def afterDigit (l : Lexer) (v : UInt8) : Lexer :=
  { l with uValue := 16 * l.uValue + v.toNat, uCount := l.uCount + 1, pos := l.pos + 1 }

theorem lexByte_digit {v : UInt8} {n : ℕ} (hstate : l.state = .u4) (h : hexValue b = some v)
    (hcount : l.uCount = n) (hn : n ≠ 3) : l.lexByte b = .ok (.more (l.afterDigit v)) := by
  rw [lexByte_ordinary (hexValue_isOrdinary h), inState, hstate]
  dsimp only
  rw [inU4, h]
  dsimp only
  rw [if_neg (by omega)]
  rfl

/-- The string behind the last digit. -/
def afterUnit (l : Lexer) (u : ℕ) : Except Bytes Lexer :=
  match { l with state := .u4, uCount := 4, uValue := u, pos := l.pos + 5 }.handleUCode u
    l.offset with
  | .error e => .error e
  | .ok l => .ok (l.ignoreState .string)

theorem lexByte_lastDigit {v : UInt8} {u : ℕ}
    (hl' : l' = { l with state := .u4, uCount := 3, uValue := u, pos := l.pos + 5 })
    (h : hexValue b = some v) :
    l'.lexByte b = (l.afterUnit (16 * u + v.toNat)).map .more := by
  subst hl'
  rw [lexByte_ordinary (hexValue_isOrdinary h), inState]
  dsimp only
  rw [inU4, h]
  dsimp only
  rw [if_pos rfl, afterUnit]
  have hoffset : ({ l with
      state := .u4, uCount := 4, uValue := 16 * u + v.toNat, pos := l.pos + 5 } : Lexer).offset - 5 =
      l.offset := by
    simp [offset]
  rw [hoffset]
  cases { l with state := .u4, uCount := 4, uValue := 16 * u + v.toNat, pos := l.pos + 5 }.handleUCode
    (16 * u + v.toNat) l.offset <;> rfl

theorem codeUnit_eq_some {a b c d : UInt8} {u : ℕ} (h : codeUnit a b c d = some u) :
    ∃ va vb vc vd, hexValue a = some va ∧ hexValue b = some vb ∧ hexValue c = some vc ∧
      hexValue d = some vd ∧
      u = 16 * (16 * (16 * va.toNat + vb.toNat) + vc.toNat) + vd.toNat := by
  simp only [codeUnit, bind, Option.bind_eq_some_iff, pure, Option.some.injEq] at h
  obtain ⟨va, ha, vb, hb, vc, hc, vd, hd, rfl⟩ := h
  exact ⟨va, vb, vc, vd, ha, hb, hc, hd, rfl⟩

theorem lexByte_u (hstate : l.state = .backslash) : l.lexByte 0x75 =
    .ok (.more { l with state := .u4, uCount := 0, uValue := 0, pos := l.pos + 1 }) := by
  rw [lexByte_ordinary rfl, inState, hstate]
  rfl

/-- A `\u` escape, up to its last digit. -/
theorem scan_unit {a b c d : UInt8} {u : ℕ} (hstate : l.state = .string)
    (h : codeUnit a b c d = some u) :
    ∃ d' l₁, scan (0x5c :: 0x75 :: a :: b :: c :: d :: text) l = scan (d' :: text) l₁ ∧
      l₁.lexByte d' = (l.afterUnit u).map .more := by
  obtain ⟨va, vb, vc, vd, ha, hb, hc, hd, rfl⟩ := codeUnit_eq_some h
  refine ⟨d, { l with state := .u4, uCount := 3, uValue := _, pos := l.pos + 5 }, ?_,
    lexByte_lastDigit rfl hd⟩
  rw [scan_more (lexByte_slash hstate), scan_more (lexByte_u rfl),
    scan_more (lexByte_digit (n := 0) rfl ha rfl (by decide)),
    scan_more (lexByte_digit (n := 1) rfl hb rfl (by decide)),
    scan_more (lexByte_digit (n := 2) rfl hc rfl (by decide))]
  simp [afterDigit, ignoreState, ignore]

theorem scan_unit_ok {a b c d : UInt8} {u : ℕ} (hstate : l.state = .string)
    (h : codeUnit a b c d = some u) (hl' : l.afterUnit u = .ok l') :
    scan (0x5c :: 0x75 :: a :: b :: c :: d :: text) l = scan text l' := by
  obtain ⟨d', l₁, hscan, hlast⟩ := scan_unit hstate h
  rw [hl'] at hlast
  rw [hscan, scan_more hlast]

theorem scan_unit_error {a b c d : UInt8} {u : ℕ} {message : Bytes} (hstate : l.state = .string)
    (h : codeUnit a b c d = some u) (herror : l.afterUnit u = .error message) :
    scan (0x5c :: 0x75 :: a :: b :: c :: d :: text) l = .error message := by
  obtain ⟨d', l₁, hscan, hlast⟩ := scan_unit hstate h
  rw [herror] at hlast
  rw [hscan, scan_error hlast]

/-- In a `\u` escape the next byte is a digit. -/
theorem scan_digit {n : ℕ} (hstate : l.state = .u4) (hcount : l.uCount = n)
    (h : scan text l = .ok (l', rest)) (hend : l'.state = .afterString) :
    ∃ b v text', text = b :: text' ∧ hexValue b = some v ∧
      (n ≠ 3 → scan text' (l.afterDigit v) = .ok (l', rest)) := by
  obtain ⟨b, text', rfl, hordinary⟩ := scan_inner (by simp [hstate]) (by simp [hstate])
    (by simp [hstate]) h hend
  cases hv : hexValue b with
  | none =>
    have herror : l.lexByte b = .error (l.tokenError (some b)) := by
      rw [lexByte_ordinary hordinary, inState, hstate]
      dsimp only
      rw [inU4, hv]
    rw [scan_error herror] at h
    cases h
  | some v =>
    refine ⟨b, v, text', rfl, hv, ?_⟩
    intro hn
    rwa [scan_more (lexByte_digit hstate hv hcount hn)] at h

/-- A whole string goes on behind a backslash with an escape. -/
theorem scan_slash_cases (hstate : l.state = .string) (h : scan (0x5c :: text) l = .ok (l', rest))
    (hend : l'.state = .afterString) :
    (∃ e v text', text = e :: text' ∧ escaped e = some v) ∨
    ∃ a b c d u text', text = 0x75 :: a :: b :: c :: d :: text' ∧ codeUnit a b c d = some u := by
  rw [scan_more (lexByte_slash hstate)] at h
  obtain ⟨e, text', rfl, hordinary⟩ := scan_inner (by simp [ignoreState, ignore])
    (by simp [ignoreState, ignore]) (by simp [ignoreState, ignore]) h hend
  cases he : escaped e with
  | some v => exact .inl ⟨e, v, text', rfl, he⟩
  | none =>
    by_cases hu : e = 0x75
    · subst hu
      rw [scan_more (lexByte_u rfl)] at h
      obtain ⟨a, va, text₁, rfl, ha, h₁⟩ := scan_digit (n := 0) rfl rfl h hend
      obtain ⟨b, vb, text₂, rfl, hb, h₂⟩ := scan_digit (n := 1) rfl rfl (h₁ (by decide)) hend
      obtain ⟨c, vc, text₃, rfl, hc, h₃⟩ := scan_digit (n := 2) rfl rfl (h₂ (by decide)) hend
      obtain ⟨d, vd, text₄, rfl, hd, _⟩ := scan_digit (n := 3) rfl rfl (h₃ (by decide)) hend
      have hunit : codeUnit a b c d =
          some (16 * (16 * (16 * va.toNat + vb.toNat) + vc.toNat) + vd.toNat) := by
        simp only [codeUnit, ha, hb, hc, hd, bind, Option.bind_some, pure]
      exact .inr ⟨a, b, c, d, _, text₄, rfl, hunit⟩
    · have herror : (l.ignoreState .backslash).lexByte e =
          .error ((l.ignoreState .backslash).tokenError (some e)) := by
        rw [lexByte_ordinary hordinary, inState]
        dsimp only [ignoreState, ignore]
        rw [inBackslash, he]
        dsimp only
        rw [if_neg hu]
      rw [scan_error herror] at h
      cases h

/-- The ways on from inside a string that is read to its end. -/
theorem scan_string_cases (hstate : l.state = .string) (h : scan text l = .ok (l', rest))
    (hend : l'.state = .afterString) :
    (text = 0x22 :: rest ∧ l.highOffset = none ∧ l' = l.ignoreState .afterString) ∨
    (∃ b text', text = b :: text' ∧ 0x20 ≤ b ∧ b ≠ 0x22 ∧ b ≠ 0x5c ∧
      scan text' (l.append b) = .ok (l', rest)) ∨
    (∃ e v text', text = 0x5c :: e :: text' ∧ escaped e = some v ∧
      scan text' (l.afterEscape v) = .ok (l', rest)) ∨
    ∃ a b c d u l₁ text', text = 0x5c :: 0x75 :: a :: b :: c :: d :: text' ∧
      codeUnit a b c d = some u ∧ l.afterUnit u = .ok l₁ ∧ scan text' l₁ = .ok (l', rest) := by
  cases text with
  | nil =>
    rcases endToken_state (scan_nil h).1 with hnumber | rfl
    · simp [hend] at hnumber
    · simp [hstate] at hend
  | cons b text =>
    by_cases hquote : b = 0x22
    · subst hquote
      left
      have hlex := lexByte_quote hstate
      rw [inString, if_pos rfl] at hlex
      cases hhigh : l.highOffset with
      | some highOffset =>
        rw [hhigh] at hlex
        rw [scan_error hlex] at h
        cases h
      | none =>
        rw [hhigh] at hlex
        rw [scan_last hlex] at h
        cases h
        exact ⟨rfl, rfl, rfl⟩
    right
    by_cases hslash : b = 0x5c
    · subst hslash
      right
      rcases scan_slash_cases hstate h hend with ⟨e, v, text', rfl, he⟩ |
        ⟨a, b, c, d, u, text', rfl, hu⟩
      · rw [scan_escape hstate he] at h
        exact .inl ⟨e, v, text', rfl, he, h⟩
      · cases hunit : l.afterUnit u with
        | error message =>
          rw [scan_unit_error hstate hu hunit] at h
          cases h
        | ok l₁ =>
          rw [scan_unit_ok hstate hu hunit] at h
          exact .inr ⟨a, b, c, d, u, l₁, text', rfl, hu, hunit, h⟩
    left
    have hlow : 0x20 ≤ b := by
      by_contra hcontrol
      rw [UInt8.not_le] at hcontrol
      by_cases hblank : b = 0x09 ∨ b = 0x0a ∨ b = 0x0d
      · have hstop : l.lexByte b = .ok (.stop l) := by
          rw [lexByte, if_pos hcontrol, if_pos hblank, if_neg (by simp [hstate])]
        rcases endToken_state (scan_stop hstop h).1 with hnumber | rfl
        · simp [hend] at hnumber
        · simp [hstate] at hend
      · rw [scan, lexByte, if_pos hcontrol, if_neg hblank] at h
        cases h
    rw [scan_more (lexByte_plain hstate hlow hquote hslash)] at h
    exact ⟨b, text, rfl, hlow, hquote, hslash, h⟩

/-! ## Surrogates -/

theorem codeUnit_lt {a b c d : UInt8} {u : ℕ} (h : codeUnit a b c d = some u) : u < 65536 := by
  obtain ⟨va, vb, vc, vd, ha, hb, hc, hd, rfl⟩ := codeUnit_eq_some h
  have hva := hexValue_lt ha
  have hvb := hexValue_lt hb
  have hvc := hexValue_lt hc
  have hvd := hexValue_lt hd
  omega

theorem isHighSurrogate_iff {u : ℕ} (hu : u < 65536) :
    u &&& 0xfc00 = 0xd800 ↔ IsHighSurrogate u := by
  rw [and_fc00 hu, IsHighSurrogate]
  omega

theorem isLowSurrogate_iff {u : ℕ} (hu : u < 65536) :
    u &&& 0xfc00 = 0xdc00 ↔ IsLowSurrogate u := by
  rw [and_fc00 hu, IsLowSurrogate]
  omega

/-- The lexer behind a `\u` escape, before its code unit is looked at. -/
def behindUnit (l : Lexer) (u : ℕ) : Lexer :=
  { l with state := .string, uCount := 4, uValue := u, pos := l.pos + 6 }

theorem afterUnit_plain {u : ℕ} (hu : u < 65536) (hhigh : ¬IsHighSurrogate u)
    (hlow : ¬IsLowSurrogate u) : l.afterUnit u = .ok ((l.behindUnit u).push (utf8 u)) := by
  rw [← isHighSurrogate_iff hu] at hhigh
  rw [← isLowSurrogate_iff hu] at hlow
  rw [afterUnit, handleUCode, if_neg hhigh, if_neg hlow]
  rfl

def behindHigh (l : Lexer) (u : ℕ) : Lexer :=
  { l.behindUnit u with highOffset := some l.offset, highSurrogate := u }

/-- The code point of a surrogate pair. -/
def pairCode (high low : ℕ) : ℕ := 0x10000 + ((high &&& 0x3ff) <<< 10) + (low &&& 0x3ff)

def behindLow (l : Lexer) (u : ℕ) : Lexer :=
  { l.behindUnit u with highOffset := none }.push (utf8 (pairCode l.highSurrogate u))

theorem afterUnit_high {u : ℕ} (hu : u < 65536) (hhigh : IsHighSurrogate u) :
    l.afterUnit u = .ok (l.behindHigh u) ∧ l.highOffset = none ∨
      (∃ message, l.afterUnit u = .error message) ∧ l.highOffset ≠ none := by
  rw [← isHighSurrogate_iff hu] at hhigh
  rw [afterUnit, handleUCode, if_pos hhigh]
  dsimp only
  cases l.highOffset with
  | none => exact .inl ⟨rfl, rfl⟩
  | some highOffset => exact .inr ⟨⟨_, rfl⟩, by simp⟩

theorem afterUnit_low {u : ℕ} (hu : u < 65536) (hlow : IsLowSurrogate u) :
    l.afterUnit u = .ok (l.behindLow u) ∧ l.offset = l.highOffset.getD 0 + 6 ∨
      (∃ message, l.afterUnit u = .error message) ∧ l.offset ≠ l.highOffset.getD 0 + 6 := by
  have hhigh : ¬u &&& 0xfc00 = 0xd800 := by
    rw [(isLowSurrogate_iff hu).mpr hlow]
    decide
  rw [← isLowSurrogate_iff hu] at hlow
  rw [afterUnit, handleUCode, if_neg hhigh, if_pos hlow]
  by_cases hoffset : l.offset = l.highOffset.getD 0 + 6
  · left
    rw [if_neg (by simpa using hoffset)]
    exact ⟨rfl, hoffset⟩
  · right
    rw [if_pos (by simpa using hoffset)]
    exact ⟨⟨_, rfl⟩, hoffset⟩

theorem pairCode_eq {high low : ℕ} (hhigh : IsHighSurrogate high) (hlow : IsLowSurrogate low) :
    pairCode high low = 0x10000 + 0x400 * (high - 0xd800) + (low - 0xdc00) := by
  unfold IsHighSurrogate at hhigh
  unfold IsLowSurrogate at hlow
  rw [pairCode, and_3ff, and_3ff, Nat.shiftLeft_eq]
  omega

theorem pairCode_zero {low : ℕ} (hlow : IsLowSurrogate low) :
    pairCode 0 low = 0x10000 + (low - 0xdc00) := by
  unfold IsLowSurrogate at hlow
  rw [pairCode, and_3ff, and_3ff, Nat.shiftLeft_eq]
  omega

/-! ## String texts -/

/-- The lexer has read some bytes and put others into its token. -/
structure Moves (l l' : Lexer) (length : ℕ) (s : Bytes) : Prop where
  pos : l'.pos = l.pos + length
  token : l'.token = l.token ++ s
  start : l'.tokenStart = l.tokenStart
  done : l'.done = l.done

variable {l₁ : Lexer} {m n : ℕ} {s s' : Bytes}

theorem Moves.trans (h : Moves l l₁ m s) (h' : Moves l₁ l' n s') : Moves l l' (m + n) (s ++ s') where
  pos := by rw [h'.pos, h.pos, Nat.add_assoc]
  token := by rw [h'.token, h.token, List.append_assoc]
  start := h'.start.trans h.start
  done := h'.done.trans h.done

theorem Moves.of_length (h : Moves l l₁ m s) (hm : m = n) : Moves l l₁ n s :=
  hm ▸ h

theorem Moves.offset (h : Moves l l₁ m s) : l₁.offset = l.offset + m := by
  rw [Lexer.offset, Lexer.offset, h.pos, Int.natCast_add]

theorem moves_append : Moves l (l.append b) 1 [b] := ⟨rfl, rfl, rfl, rfl⟩

theorem moves_afterEscape {v : UInt8} : Moves l (l.afterEscape v) 2 [v] := ⟨rfl, rfl, rfl, rfl⟩

theorem moves_behindHigh {u : ℕ} : Moves l (l.behindHigh u) 6 [] :=
  ⟨rfl, (List.append_nil _).symm, rfl, rfl⟩

theorem moves_behindLow {u : ℕ} :
    Moves l (l.behindLow u) 6 (utf8 (pairCode l.highSurrogate u)) :=
  ⟨rfl, rfl, rfl, rfl⟩

theorem moves_unit {u : ℕ} : Moves l ((l.behindUnit u).push s) 6 s := ⟨rfl, rfl, rfl, rfl⟩

/-- A low surrogate alone finds no high one, since no pair fits before offset 6. -/
def Fresh (l : Lexer) : Prop := l.highOffset = none ∧ (l.highSurrogate = 0 ∨ 6 < l.pos)

theorem Fresh.append (h : l.Fresh) : (l.append b).Fresh :=
  ⟨h.1, h.2.imp_right (Nat.lt_succ_of_lt ·)⟩

theorem Fresh.afterEscape {v : UInt8} (h : l.Fresh) : (l.afterEscape v).Fresh :=
  ⟨h.1, h.2.imp_right fun hpos => Nat.lt_succ_of_lt (Nat.lt_succ_of_lt hpos)⟩

theorem fresh_behindLow {u : ℕ} (hpos : 0 < l.pos) : (l.behindLow u).Fresh :=
  ⟨rfl, .inr (Nat.lt_add_of_pos_left hpos)⟩

theorem fresh_behindUnit {u : ℕ} (hpos : 0 < l.pos) (hnone : l.highOffset = none) :
    ((l.behindUnit u).push s).Fresh :=
  ⟨hnone, .inr (Nat.lt_add_of_pos_left hpos)⟩

/-- A string text is read to its closing quote. -/
theorem scan_of_text (rest : Bytes) {o : ℤ} (h : StringText o text s) (hstate : l.state = .string)
    (ho : l.offset = o) (hpos : 0 < l.pos) (hfresh : l.Fresh) :
    ∃ l', scan (text ++ 0x22 :: rest) l = .ok (l', rest) ∧ l'.state = .afterString ∧
      Moves l l' (text.length + 1) s := by
  induction h generalizing l with
  | nil =>
    refine ⟨l.ignoreState .afterString, ?_, rfl, rfl, (List.append_nil _).symm, rfl, rfl⟩
    apply scan_last
    rw [lexByte_quote hstate, inString, if_pos rfl, hfresh.1]
  | @byte o b text s hlow hquote hslash _ ih =>
    obtain ⟨l', hscan, hend, hmoves⟩ := ih (l := l.append b) hstate
      (by rw [moves_append.offset, ho]; rfl) (Nat.succ_pos _) hfresh.append
    refine ⟨l', ?_, hend, (moves_append.trans hmoves).of_length (Nat.add_comm 1 _)⟩
    rw [List.cons_append, scan_more (lexByte_plain hstate hlow hquote hslash), hscan]
  | @escape o e b text s he _ ih =>
    obtain ⟨l', hscan, hend, hmoves⟩ := ih (l := l.afterEscape b) hstate
      (by rw [moves_afterEscape.offset, ho]; rfl) (Nat.succ_pos _) hfresh.afterEscape
    refine ⟨l', ?_, hend, (moves_afterEscape.trans hmoves).of_length (Nat.add_comm 2 _)⟩
    rw [List.cons_append, List.cons_append, scan_escape hstate ((mem_escapes_iff e b).mp he), hscan]
  | @unit o a b c d u text s hu hhigh hlow _ ih =>
    obtain ⟨l', hscan, hend, hmoves⟩ := ih (l := (l.behindUnit u).push (utf8 u)) rfl
      (by rw [moves_unit.offset, ho]; rfl) (Nat.succ_pos _) (fresh_behindUnit hpos hfresh.1)
    refine ⟨l', ?_, hend, (moves_unit.trans hmoves).of_length (Nat.add_comm 6 _)⟩
    simp only [List.cons_append]
    rw [scan_unit_ok hstate hu (afterUnit_plain (codeUnit_lt hu) hhigh hlow), hscan]
  | @pair o a b c d a' b' c' d' high low text s hu hhigh hu' hlow _ ih =>
    have hhighUnit : l.afterUnit high = .ok (l.behindHigh high) := by
      rcases afterUnit_high (codeUnit_lt hu) hhigh with h | h
      · exact h.1
      · exact absurd hfresh.1 h.2
    have hlowUnit : (l.behindHigh high).afterUnit low = .ok ((l.behindHigh high).behindLow low) := by
      rcases afterUnit_low (l := l.behindHigh high) (codeUnit_lt hu') hlow with h | h
      · exact h.1
      · exact absurd (moves_behindHigh (l := l)).offset h.2
    have hboth := moves_behindHigh.trans (moves_behindLow (l := l.behindHigh high) (u := low))
    obtain ⟨l', hscan, hend, hmoves⟩ := ih (l := (l.behindHigh high).behindLow low) rfl
      (by rw [hboth.offset, ho]; rfl) (Nat.succ_pos _) (fresh_behindLow (Nat.succ_pos _))
    refine ⟨l', ?_, hend, ?_⟩
    · simp only [List.cons_append]
      rw [scan_unit_ok hstate hu hhighUnit, scan_unit_ok rfl hu' hlowUnit, hscan]
    · have hall := hboth.trans hmoves
      have hcode : pairCode (l.behindHigh high).highSurrogate low = _ := pairCode_eq hhigh hlow
      rw [List.nil_append, hcode] at hall
      apply hall.of_length
      simp only [List.length_cons]
      omega
  | @loneLow a b c d low text s hu hlow _ ih =>
    have hlowUnit : l.afterUnit low = .ok (l.behindLow low) := by
      rcases afterUnit_low (l := l) (codeUnit_lt hu) hlow with h | h
      · exact h.1
      · rw [hfresh.1, ho] at h
        exact absurd rfl h.2
    have hzero : l.highSurrogate = 0 := by
      unfold offset at ho
      rcases hfresh.2 with h | h
      · exact h
      · omega
    have hone := moves_behindLow (l := l) (u := low)
    obtain ⟨l', hscan, hend, hmoves⟩ := ih (l := l.behindLow low) rfl
      (by rw [hone.offset, ho]; rfl) (Nat.succ_pos _) (fresh_behindLow hpos)
    refine ⟨l', ?_, hend, ?_⟩
    · simp only [List.cons_append]
      rw [scan_unit_ok hstate hu hlowUnit, hscan]
    · have hall := hone.trans hmoves
      rw [hzero, pairCode_zero hlow] at hall
      exact hall.of_length (Nat.add_comm 6 _)

/-- A code unit that is not rejected. -/
theorem afterUnit_cases {u : ℕ} (hu : u < 65536) (h : l.afterUnit u = .ok l₁) :
    (¬IsHighSurrogate u ∧ ¬IsLowSurrogate u ∧ l₁ = (l.behindUnit u).push (utf8 u)) ∨
    (IsHighSurrogate u ∧ l.highOffset = none ∧ l₁ = l.behindHigh u) ∨
    (IsLowSurrogate u ∧ l.offset = l.highOffset.getD 0 + 6 ∧ l₁ = l.behindLow u) := by
  by_cases hhigh : IsHighSurrogate u
  · rcases afterUnit_high (l := l) hu hhigh with ⟨hok, hnone⟩ | ⟨⟨message, herror⟩, _⟩
    · rw [hok] at h
      exact .inr (.inl ⟨hhigh, hnone, (Except.ok.inj h).symm⟩)
    · rw [herror] at h
      cases h
  by_cases hlow : IsLowSurrogate u
  · rcases afterUnit_low (l := l) hu hlow with ⟨hok, hoffset⟩ | ⟨⟨message, herror⟩, _⟩
    · rw [hok] at h
      exact .inr (.inr ⟨hlow, hoffset, (Except.ok.inj h).symm⟩)
    · rw [herror] at h
      cases h
  · rw [afterUnit_plain hu hhigh hlow] at h
    exact .inl ⟨hhigh, hlow, (Except.ok.inj h).symm⟩

/-- Past the place of its low surrogate, a high surrogate is never completed. -/
theorem high_stuck {high : ℤ} (hstate : l.state = .string) (hhigh : l.highOffset = some high)
    (hoffset : high + 6 < l.offset) (hend : l'.state = .afterString) :
    scan text l ≠ .ok (l', rest) := by
  induction hn : text.length using Nat.strong_induction_on generalizing text l with
  | _ n ih =>
    subst hn
    intro h
    rcases scan_string_cases hstate h hend with ⟨_, hnone, _⟩ |
      ⟨b, text', rfl, _, _, _, hrest⟩ | ⟨e, v, text', rfl, _, hrest⟩ |
      ⟨a, b, c, d, u, l₁, text', rfl, hu, hunit, hrest⟩
    · rw [hhigh] at hnone
      cases hnone
    · refine ih _ ?_ (l := l.append b) hstate hhigh ?_ rfl hrest
      · simp only [List.length_cons]
        omega
      · rw [moves_append.offset]
        omega
    · refine ih _ ?_ (l := l.afterEscape v) hstate hhigh ?_ rfl hrest
      · simp only [List.length_cons]
        omega
      · rw [moves_afterEscape.offset]
        omega
    · rcases afterUnit_cases (codeUnit_lt hu) hunit with ⟨_, _, rfl⟩ | ⟨_, hnone, _⟩ |
        ⟨_, hlow, _⟩
      · refine ih _ ?_ (l := (l.behindUnit u).push (utf8 u)) rfl hhigh ?_ rfl hrest
        · simp only [List.length_cons]
          omega
        · rw [moves_unit.offset]
          omega
      · rw [hhigh] at hnone
        cases hnone
      · rw [hhigh, Option.getD_some] at hlow
        omega

/-- Right behind a high surrogate only a low one leads to a whole string. -/
theorem low_of_high {high : ℤ} (hstate : l.state = .string) (hhigh : l.highOffset = some high)
    (hoffset : l.offset = high + 6) (h : scan text l = .ok (l', rest))
    (hend : l'.state = .afterString) :
    ∃ a b c d u text', text = 0x5c :: 0x75 :: a :: b :: c :: d :: text' ∧
      codeUnit a b c d = some u ∧ IsLowSurrogate u ∧ scan text' (l.behindLow u) = .ok (l', rest) := by
  rcases scan_string_cases hstate h hend with ⟨_, hnone, _⟩ |
    ⟨b, text', rfl, _, _, _, hrest⟩ | ⟨e, v, text', rfl, _, hrest⟩ |
    ⟨a, b, c, d, u, l₁, text', rfl, hu, hunit, hrest⟩
  · rw [hhigh] at hnone
    cases hnone
  · refine absurd hrest (high_stuck (l := l.append b) hstate hhigh ?_ hend)
    rw [moves_append.offset]
    omega
  · refine absurd hrest (high_stuck (l := l.afterEscape v) hstate hhigh ?_ hend)
    rw [moves_afterEscape.offset]
    omega
  · rcases afterUnit_cases (codeUnit_lt hu) hunit with ⟨_, _, rfl⟩ | ⟨_, hnone, _⟩ |
      ⟨hlow, _, rfl⟩
    · refine absurd hrest (high_stuck (l := (l.behindUnit u).push (utf8 u)) rfl hhigh ?_ hend)
      rw [moves_unit.offset]
      omega
    · rw [hhigh] at hnone
      cases hnone
    · exact ⟨a, b, c, d, u, text', rfl, hu, hlow, hrest⟩

/-- A string that is read to its closing quote has a string text. -/
theorem text_of_scan (hstate : l.state = .string) (hpos : 0 < l.pos) (hfresh : l.Fresh)
    (h : scan text l = .ok (l', rest)) (hend : l'.state = .afterString) :
    ∃ body s, text = body ++ 0x22 :: rest ∧ StringText l.offset body s ∧
      Moves l l' (body.length + 1) s := by
  induction hn : text.length using Nat.strong_induction_on generalizing text l with
  | _ n ih =>
    subst hn
    rcases scan_string_cases hstate h hend with ⟨rfl, _, rfl⟩ |
      ⟨b, text', rfl, hlow, hquote, hslash, hrest⟩ | ⟨e, v, text', rfl, he, hrest⟩ |
      ⟨a, b, c, d, u, l₁, text', rfl, hu, hunit, hrest⟩
    · exact ⟨[], [], rfl, .nil _, rfl, (List.append_nil _).symm, rfl, rfl⟩
    · obtain ⟨body, s, rfl, htext, hmoves⟩ := ih _ (by simp only [List.length_cons]; omega) (l := l.append b) hstate
        (Nat.succ_pos _) hfresh.append hrest rfl
      rw [moves_append.offset] at htext
      exact ⟨b :: body, b :: s, rfl, .byte hlow hquote hslash htext,
        (moves_append.trans hmoves).of_length (Nat.add_comm 1 _)⟩
    · obtain ⟨body, s, rfl, htext, hmoves⟩ := ih _ (by simp only [List.length_cons]; omega) (l := l.afterEscape v) hstate
        (Nat.succ_pos _) hfresh.afterEscape hrest rfl
      rw [moves_afterEscape.offset] at htext
      exact ⟨0x5c :: e :: body, v :: s, rfl, .escape ((mem_escapes_iff e v).mpr he) htext,
        (moves_afterEscape.trans hmoves).of_length (Nat.add_comm 2 _)⟩
    · rcases afterUnit_cases (codeUnit_lt hu) hunit with ⟨hhigh, hlow, rfl⟩ |
        ⟨hhigh, _, rfl⟩ | ⟨hlow, hoffset, rfl⟩
      · obtain ⟨body, s, rfl, htext, hmoves⟩ := ih _ (by simp only [List.length_cons]; omega)
          (l := (l.behindUnit u).push (utf8 u)) rfl (Nat.succ_pos _)
          (fresh_behindUnit hpos hfresh.1) hrest rfl
        rw [moves_unit.offset] at htext
        exact ⟨0x5c :: 0x75 :: a :: b :: c :: d :: body, utf8 u ++ s, rfl,
          .unit hu hhigh hlow htext, (moves_unit.trans hmoves).of_length (Nat.add_comm 6 _)⟩
      · obtain ⟨a', b', c', d', low, text'', rfl, hu', hlow, hrest'⟩ :=
          low_of_high (l := l.behindHigh u) rfl rfl moves_behindHigh.offset hrest hend
        have hboth := moves_behindHigh.trans (moves_behindLow (l := l.behindHigh u) (u := low))
        have hcode : pairCode (l.behindHigh u).highSurrogate low = _ := pairCode_eq hhigh hlow
        rw [List.nil_append, hcode] at hboth
        obtain ⟨body, s, rfl, htext, hmoves⟩ := ih _ (by simp only [List.length_cons]; omega)
          (l := (l.behindHigh u).behindLow low) rfl (Nat.succ_pos _)
          (fresh_behindLow (Nat.succ_pos _)) hrest' rfl
        rw [hboth.offset] at htext
        refine ⟨0x5c :: 0x75 :: a :: b :: c :: d :: 0x5c :: 0x75 :: a' :: b' :: c' :: d' :: body, _,
          rfl, .pair hu hhigh hu' hlow htext, (hboth.trans hmoves).of_length ?_⟩
        simp only [List.length_cons]
        omega
      · rw [hfresh.1, Option.getD_none, Int.zero_add] at hoffset
        have hzero : l.highSurrogate = 0 := by
          unfold offset at hoffset
          rcases hfresh.2 with h | h
          · exact h
          · omega
        have hone := moves_behindLow (l := l) (u := u)
        rw [hzero, pairCode_zero hlow] at hone
        obtain ⟨body, s, rfl, htext, hmoves⟩ := ih _ (by simp only [List.length_cons]; omega) (l := l.behindLow u) rfl
          (Nat.succ_pos _) (fresh_behindLow hpos) hrest rfl
        rw [hone.offset, hoffset] at htext
        rw [hoffset]
        exact ⟨0x5c :: 0x75 :: a :: b :: c :: d :: body, _, rfl, .loneLow hu hlow htext,
          (hone.trans hmoves).of_length (Nat.add_comm 6 _)⟩

end Flpdf.Json.Lexer
