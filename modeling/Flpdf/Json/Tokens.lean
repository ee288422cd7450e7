import Flpdf.Json.Numbers
import Flpdf.Json.Strings

/-!
# JSON tokens

A call of `get_token` skips whitespace and reads exactly one token text, or
finds the end of the input.
-/

namespace Flpdf.Json

open Lexer

/-- The texts of tokens, with the state and the token they leave behind. -/
inductive TokenText : ℤ → Bytes → LexState → Bytes → Prop where
  | delimiter {o : ℤ} {b : UInt8} {state : LexState} : delimiter b = some state →
      TokenText o [b] state []
  | number {o : ℤ} {text : Bytes} : IsNumber text → TokenText o text .number text
  | keyword {o : ℤ} {text : Bytes} : text ≠ [] → (∀ b ∈ text, isLowercase b = true) →
      TokenText o text .alpha text
  | string {o : ℤ} {text s : Bytes} : StringText (o + 1) text s →
      TokenText o (0x22 :: (text ++ [0x22])) .afterString s

/-- The tokens whose start is recorded. -/
def recordsStart : LexState → Bool
  | .number | .alpha | .afterString | .beginDictionary | .beginArray => true
  | _ => false

/-- The states of a number or keyword, which only the byte after it ends. -/
def isOpenEnded : LexState → Bool
  | .number | .alpha => true
  | _ => false

/-- The input ends, or goes on with whitespace or a delimiter. -/
def Breaks (rest : Bytes) : Prop :=
  ∀ b rest', rest = b :: rest' → isBlank b = true ∨ (delimiter b).isSome = true

namespace Lexer

variable {l l' : Lexer} {b : UInt8} {rest text body : Bytes}

/-- A token has been read. -/
structure TokenEnd (l l' : Lexer) (rest : Bytes) (length : ℕ) (s : Bytes) : Prop where
  pos : l'.pos = l.pos + length
  token : l'.token = l.token ++ s
  start : l'.tokenStart = l.tokenStart
  done : l'.done = true → rest = []

theorem TokenEnd.appendState {n : ℕ} {s : Bytes} {state : LexState}
    (h : TokenEnd (l.appendState state b) l' rest n s) : TokenEnd l l' rest (n + 1) (b :: s) where
  pos := by rw [h.pos, Lexer.appendState, Lexer.append, Nat.add_assoc, Nat.add_comm 1]
  token := by rw [h.token, Lexer.appendState, Lexer.append, List.append_assoc, List.singleton_append]
  start := h.start
  done := h.done

/-- A token ends before a byte, or at the end of the input. -/
theorem tokenEnd_nil {state : LexState} (hdone : l.done = false) :
    TokenEnd l { l with state := state } rest 0 [] where
  pos := rfl
  token := (List.append_nil _).symm
  start := rfl
  done := by
    intro hdone'
    rw [hdone] at hdone'
    cases hdone'

theorem tokenEnd_eof {state : LexState} :
    TokenEnd l { l with state := state, done := true } [] 0 [] :=
  ⟨rfl, (List.append_nil _).symm, rfl, fun _ => rfl⟩

theorem lexByte_break (h : isBlank b = true ∨ (delimiter b).isSome = true)
    (htop : l.state ≠ .top) (hstring : l.state ≠ .string) : l.lexByte b = .ok (.stop l) := by
  have hall := forall_byte (p := fun b => isBlank b = true ∨ (delimiter b).isSome = true →
      isOrdinary b = false ∧ (b < 32 → b = 0x09 ∨ b = 0x0a ∨ b = 0x0d)) (by decide) b h
  rcases lexByte_ends hall.1 htop hstring with ⟨e, he⟩ | hstop
  · exfalso
    unfold lexByte at he
    by_cases hcontrol : b < 32
    · rw [if_pos hcontrol, if_pos (hall.2 hcontrol), if_neg htop] at he
      cases he
    · rw [if_neg hcontrol] at he
      by_cases hblank : b = 0x20
      · rw [if_pos hblank, if_neg htop, if_neg hstring] at he
        cases he
      · rw [if_neg hblank] at he
        cases hdelimiter : delimiter b with
        | none =>
          have hordinary := (isOrdinary_iff b).mpr ⟨hcontrol, hblank, hdelimiter⟩
          rw [hall.1] at hordinary
          cases hordinary
        | some state =>
          rw [hdelimiter] at he
          dsimp only at he
          rw [if_neg htop, if_neg hstring] at he
          cases he
  · exact hstop

/-! ## Numbers -/

def isNumberState : LexState → Bool
  | .numberMinus | .numberLeadingZero | .numberBeforePoint | .numberPoint | .numberAfterPoint
  | .numberE | .numberESign | .number => true
  | _ => false

theorem numberStep_spec {state next : LexState} (h : numberStep state b = some next) :
    isOrdinary b = true ∧ isNumberState next = true := by
  have hall : ∀ state : LexState, ∀ next ∈ numberStep state b,
      isOrdinary b = true ∧ isNumberState next = true := by
    intro state
    cases state <;>
      exact forall_byte (p := fun b => ∀ next ∈ numberStep _ b,
        isOrdinary b = true ∧ isNumberState next = true) (by decide) b
  exact hall state next h

theorem inState_number (h : isNumberState l.state = true) : l.inState b = l.inNumber b := by
  unfold inState
  cases hstate : l.state <;> rw [hstate] at h <;> first | rfl | cases h

theorem isNumberState_ne (h : isNumberState l.state = true) :
    l.state ≠ .top ∧ l.state ≠ .string := by
  constructor <;> intro hstate <;> rw [hstate] at h <;> cases h

/-- At the end of its text a number is complete in a final state only. -/
theorem endToken_number {current : Option UInt8} (hnumber : isNumberState l.state = true)
    (htoken : l.token ≠ []) (h : l.endToken current = .ok l') :
    isFinalState l.state = true ∧ l' = { l with state := .number } := by
  rw [endToken, if_neg htoken] at h
  cases l with
  | mk pos state =>
    cases state <;> dsimp only at h <;> first
      | (cases hnumber; done)
      | exact ⟨rfl, (Except.ok.inj h).symm⟩
      | cases h

theorem endToken_final {current : Option UInt8} (hfinal : isFinalState l.state = true)
    (htoken : l.token ≠ []) : l.endToken current = .ok { l with state := .number } := by
  rw [endToken, if_neg htoken]
  cases l with
  | mk pos state => cases state <;> first | rfl | cases hfinal

theorem number_of_scan (hnumber : isNumberState l.state = true) (htoken : l.token ≠ [])
    (h : scan text l = .ok (l', rest)) :
    ∃ body, text = body ++ rest ∧ NumberAccepts l.state body ∧ l'.state = .number ∧
      (l.done = false → TokenEnd l l' rest body.length body) := by
  induction text generalizing l with
  | nil =>
    obtain ⟨hend, rfl⟩ := scan_nil h
    obtain ⟨hfinal, rfl⟩ := endToken_number (l := { l with done := true }) hnumber htoken hend
    exact ⟨[], rfl, numberAccepts_nil hfinal, rfl, fun _ => tokenEnd_eof⟩
  | cons b text ih =>
    cases hordinary : isOrdinary b with
    | false =>
      rcases lexByte_ends hordinary (isNumberState_ne hnumber).1 (isNumberState_ne hnumber).2 with
        ⟨e, he⟩ | hstop
      · rw [scan_error he] at h
        cases h
      · obtain ⟨hend, rfl⟩ := scan_stop hstop h
        obtain ⟨hfinal, rfl⟩ := endToken_number hnumber htoken hend
        exact ⟨[], rfl, numberAccepts_nil hfinal, rfl, tokenEnd_nil⟩
    | true =>
      have hlex : l.lexByte b = l.inNumber b := by
        rw [lexByte_ordinary hordinary, inState_number hnumber]
      unfold inNumber at hlex
      cases hstep : numberStep l.state b with
      | none =>
        rw [hstep] at hlex
        dsimp only at hlex
        split_ifs at hlex <;> rw [scan_error hlex] at h <;> cases h
      | some next =>
        rw [hstep] at hlex
        rw [scan_more hlex] at h
        obtain ⟨body, rfl, haccepts, hstate, hend⟩ :=
          ih (l := l.appendState next b) (numberStep_spec hstep).2 (by simp [appendState, append]) h
        exact ⟨b :: body, rfl, .cons hstep haccepts, hstate, fun hdone => (hend hdone).appendState⟩

theorem scan_number (haccepts : NumberAccepts l.state body) (hnumber : isNumberState l.state = true)
    (htoken : l.token ≠ []) (hdone : l.done = false) (hbreaks : Breaks rest) :
    ∃ l', scan (body ++ rest) l = .ok (l', rest) ∧ l'.state = .number ∧
      TokenEnd l l' rest body.length body := by
  induction body generalizing l with
  | nil =>
    obtain ⟨final, hrun, hfinal⟩ := haccepts
    obtain rfl := Option.some.inj hrun
    cases rest with
    | nil =>
      refine ⟨{ l with done := true, state := .number }, ?_, rfl, tokenEnd_eof⟩
      rw [List.append_nil, scan, endToken_final (l := { l with done := true }) hfinal htoken]
      rfl
    | cons b rest =>
      refine ⟨{ l with state := .number }, ?_, rfl, tokenEnd_nil hdone⟩
      have hstop := lexByte_break (hbreaks b rest rfl) (isNumberState_ne hnumber).1
        (isNumberState_ne hnumber).2
      rw [List.nil_append, scan, hstop]
      dsimp only
      rw [endToken_final hfinal htoken]
      rfl
  | cons b body ih =>
    obtain ⟨final, hrun, hfinal⟩ := haccepts
    obtain ⟨next, hstep, hrun⟩ := Option.bind_eq_some_iff.mp hrun
    obtain ⟨hordinary, hnext⟩ := numberStep_spec hstep
    have hlex : l.lexByte b = .ok (.more (l.appendState next b)) := by
      rw [lexByte_ordinary hordinary, inState_number hnumber, inNumber, hstep]
    obtain ⟨l', hscan, hstate, hend⟩ := ih (l := l.appendState next b) ⟨final, hrun, hfinal⟩ hnext
      (by simp [appendState, append]) hdone
    refine ⟨l', ?_, hstate, hend.appendState⟩
    rw [List.cons_append, scan_more hlex, hscan]

/-! ## Keywords -/

theorem lowercase_isOrdinary (h : isLowercase b = true) : isOrdinary b = true := by
  revert h
  exact forall_byte (p := fun b => isLowercase b = true → isOrdinary b = true)
    (by decide) b

theorem lexByte_lowercase (hstate : l.state = .alpha) (h : isLowercase b = true) :
    l.lexByte b = .ok (.more (l.append b)) := by
  rw [lexByte_ordinary (lowercase_isOrdinary h), inState, hstate]
  dsimp only
  rw [inAlpha, if_pos h]

theorem endToken_alpha {current : Option UInt8} (hstate : l.state = .alpha) :
    l.endToken current = .ok l := by
  unfold endToken
  split_ifs
  · rfl
  · rw [hstate]

theorem keyword_of_scan (hstate : l.state = .alpha) (h : scan text l = .ok (l', rest)) :
    ∃ body, text = body ++ rest ∧ (∀ b ∈ body, isLowercase b = true) ∧ l'.state = .alpha ∧
      (l.done = false → TokenEnd l l' rest body.length body) := by
  induction text generalizing l with
  | nil =>
    obtain ⟨hend, rfl⟩ := scan_nil h
    rw [endToken_alpha (l := { l with done := true }) hstate] at hend
    obtain rfl := Except.ok.inj hend
    exact ⟨[], rfl, by simp, hstate, fun _ => tokenEnd_eof⟩
  | cons b text ih =>
    cases hordinary : isOrdinary b with
    | false =>
      rcases lexByte_ends (l := l) hordinary (by simp [hstate]) (by simp [hstate]) with ⟨e, he⟩ | hstop
      · rw [scan_error he] at h
        cases h
      · obtain ⟨hend, rfl⟩ := scan_stop hstop h
        rw [endToken_alpha hstate] at hend
        obtain rfl := Except.ok.inj hend
        exact ⟨[], rfl, by simp, hstate, tokenEnd_nil⟩
    | true =>
      by_cases hlower : isLowercase b = true
      · rw [scan_more (lexByte_lowercase hstate hlower)] at h
        obtain ⟨body, rfl, hbody, hend, htail⟩ := ih (l := l.append b) hstate h
        refine ⟨b :: body, rfl, ?_, hend, fun hdone => (htail hdone).appendState⟩
        intro c hc
        rcases List.mem_cons.mp hc with rfl | hc
        · exact hlower
        · exact hbody c hc
      · have hlex : l.lexByte b = .error (l.tokenError (some b)) := by
          rw [lexByte_ordinary hordinary, inState, hstate]
          dsimp only
          rw [inAlpha, if_neg hlower]
        rw [scan_error hlex] at h
        cases h

theorem scan_keyword (hbody : ∀ b ∈ body, isLowercase b = true) (hstate : l.state = .alpha)
    (hdone : l.done = false) (hbreaks : Breaks rest) :
    ∃ l', scan (body ++ rest) l = .ok (l', rest) ∧ l'.state = .alpha ∧
      TokenEnd l l' rest body.length body := by
  induction body generalizing l with
  | nil =>
    cases rest with
    | nil =>
      refine ⟨{ l with done := true }, ?_, hstate, tokenEnd_eof⟩
      rw [List.append_nil, scan, endToken_alpha (l := { l with done := true }) hstate]
      rfl
    | cons b rest =>
      refine ⟨l, ?_, hstate, tokenEnd_nil hdone⟩
      have hstop := lexByte_break (l := l) (hbreaks b rest rfl) (by simp [hstate])
        (by simp [hstate])
      rw [List.nil_append, scan, hstop]
      dsimp only
      rw [endToken_alpha hstate]
      rfl
  | cons b body ih =>
    have hrest : ∀ c ∈ body, isLowercase c = true := by
      intro c hc
      exact hbody c (List.mem_cons_of_mem _ hc)
    obtain ⟨l', hscan, hend, htail⟩ := ih (l := l.append b) hrest hstate hdone
    refine ⟨l', ?_, hend, htail.appendState⟩
    rw [List.cons_append, scan_more (lexByte_lowercase hstate (hbody b List.mem_cons_self)), hscan]

/-! ## The top -/

theorem lexByte_blank (hstate : l.state = .top) (h : isBlank b = true) :
    l.lexByte b = .ok (.more l.ignore) := by
  have hall := forall_byte (p := fun b => isBlank b = true →
    b < 32 ∧ (b = 0x09 ∨ b = 0x0a ∨ b = 0x0d) ∨ ¬b < 32 ∧ b = 0x20) (by decide) b h
  rcases hall with ⟨hcontrol, hblank⟩ | ⟨hcontrol, hblank⟩
  · rw [lexByte, if_pos hcontrol, if_pos hblank, if_pos hstate]
  · rw [lexByte, if_neg hcontrol, if_pos hblank, if_pos hstate]

theorem lexByte_delimiter {state : LexState} (hstate : l.state = .top)
    (h : delimiter b = some state) : l.lexByte b = .ok (.last (l.beginDelimiter state)) := by
  have hall := forall_byte (p := fun b => (delimiter b).isSome = true → ¬b < 32 ∧ b ≠ 0x20)
    (by decide) b (by rw [h]; rfl)
  rw [lexByte, if_neg hall.1, if_neg hall.2, h]
  dsimp only
  rw [if_pos hstate]

/-- Skipping whitespace only moves the position. -/
def skipped (l : Lexer) (n : ℕ) : Lexer := { l with pos := l.pos + n }

theorem scan_blank {pre : Bytes} (hstate : l.state = .top) (hpre : Blank pre) :
    scan (pre ++ text) l = scan text (l.skipped pre.length) := by
  induction pre generalizing l with
  | nil => rfl
  | cons b pre ih =>
    have htail : Blank pre := by
      intro c hc
      exact hpre c (List.mem_cons_of_mem _ hc)
    rw [List.cons_append, scan_more (lexByte_blank hstate (hpre b List.mem_cons_self)),
      ih (l := l.ignore) hstate htail, List.length_cons]
    congr 1
    simp only [skipped, ignore, Lexer.mk.injEq, and_true]
    omega

/-- Every text starts with whitespace, then ends or goes on with another byte. -/
theorem exists_blank_prefix (text : Bytes) :
    ∃ pre tail, text = pre ++ tail ∧ Blank pre ∧
      ∀ b rest, tail = b :: rest → isBlank b = false := by
  induction text with
  | nil => exact ⟨[], [], rfl, by simp [Blank], by simp⟩
  | cons b text ih =>
    cases hblank : isBlank b with
    | false => exact ⟨[], b :: text, rfl, by simp [Blank], by simp [hblank]⟩
    | true =>
      obtain ⟨pre, tail, rfl, hpre, htail⟩ := ih
      refine ⟨b :: pre, tail, rfl, ?_, htail⟩
      intro c hc
      rcases List.mem_cons.mp hc with rfl | hc
      · exact hblank
      · exact hpre c hc

/-! ## Unfinished strings -/

/-- The states inside a string. -/
def isInString : LexState → Bool
  | .string | .backslash | .u4 => true
  | _ => false

theorem endToken_inString {current : Option UInt8} (h : isInString l.state = true)
    (hend : l.endToken current = .ok l') : l' = l := by
  unfold endToken at hend
  split_ifs at hend
  · exact (Except.ok.inj hend).symm
  · cases l with
    | mk pos state => cases state <;> first | (cases h; done) | cases hend

/-- The outcomes of a byte inside a string: it leads on inside the string or to its end. -/
def StaysInString (outcome : Except Bytes Step) (l : Lexer) : Prop :=
  (∃ e, outcome = .error e) ∨ outcome = .ok (.stop l) ∨
  (∃ l₁, outcome = .ok (.more l₁) ∧ isInString l₁.state = true) ∨
  ∃ l₁, outcome = .ok (.last l₁) ∧ l₁.state = .afterString

theorem lexByte_string (hstate : l.state = .string) : StaysInString (l.lexByte b) l := by
  by_cases hquote : b = 0x22
  · subst hquote
    rw [lexByte_quote hstate, inString, if_pos rfl]
    cases l.highOffset with
    | none => exact .inr (.inr (.inr ⟨_, rfl, rfl⟩))
    | some highOffset => exact .inl ⟨_, rfl⟩
  by_cases hslash : b = 0x5c
  · subst hslash
    rw [lexByte_slash hstate]
    exact .inr (.inr (.inl ⟨_, rfl, rfl⟩))
  by_cases hlow : 0x20 ≤ b
  · rw [lexByte_plain hstate hlow hquote hslash]
    exact .inr (.inr (.inl ⟨_, rfl, by rw [append, hstate]; rfl⟩))
  · rw [UInt8.not_le] at hlow
    have hcontrol : b < 32 := hlow
    rw [lexByte, if_pos hcontrol, if_neg (show l.state ≠ .top by simp [hstate])]
    split_ifs
    · exact .inr (.inl rfl)
    · exact .inl ⟨_, rfl⟩

theorem inBackslash_inString : StaysInString (l.inBackslash b) l := by
  unfold inBackslash
  cases escaped b with
  | some v => exact .inr (.inr (.inl ⟨_, rfl, rfl⟩))
  | none =>
    dsimp only
    split_ifs
    · exact .inr (.inr (.inl ⟨_, rfl, rfl⟩))
    · exact .inl ⟨_, rfl⟩

theorem inU4_inString (hstate : l.state = .u4) : StaysInString (l.inU4 b) l := by
  unfold inU4
  cases hexValue b with
  | none => exact .inl ⟨_, rfl⟩
  | some v =>
    dsimp only
    split_ifs
    · cases Lexer.handleUCode _ _ _ with
      | error e => exact .inl ⟨_, rfl⟩
      | ok l₁ => exact .inr (.inr (.inl ⟨_, rfl, rfl⟩))
    · exact .inr (.inr (.inl ⟨_, rfl, by simp [ignore, hstate, isInString]⟩))

theorem lexByte_inString (h : isInString l.state = true) : StaysInString (l.lexByte b) l := by
  cases hstate : l.state <;> rw [hstate] at h <;> try cases h
  case string => exact lexByte_string hstate
  case backslash =>
    cases hordinary : isOrdinary b with
    | false =>
      rcases lexByte_ends (l := l) hordinary (by simp [hstate]) (by simp [hstate]) with
        herror | hstop
      · exact .inl herror
      · exact .inr (.inl hstop)
    | true =>
      rw [lexByte_ordinary hordinary, inState, hstate]
      exact inBackslash_inString
  case u4 =>
    cases hordinary : isOrdinary b with
    | false =>
      rcases lexByte_ends (l := l) hordinary (by simp [hstate]) (by simp [hstate]) with
        herror | hstop
      · exact .inl herror
      · exact .inr (.inl hstop)
    | true =>
      rw [lexByte_ordinary hordinary, inState, hstate]
      exact inU4_inString hstate

theorem scan_inString (h : isInString l.state = true) (hscan : scan text l = .ok (l', rest)) :
    isInString l'.state = true ∨ l'.state = .afterString := by
  induction text generalizing l with
  | nil =>
    obtain rfl := endToken_inString (l := { l with done := true }) h (scan_nil hscan).1
    exact .inl h
  | cons b text ih =>
    rcases lexByte_inString (b := b) h with ⟨e, he⟩ | hstop | ⟨l₁, hmore, h₁⟩ | ⟨l₁, hlast, h₁⟩
    · rw [scan_error he] at hscan
      cases hscan
    · obtain rfl := endToken_inString h (scan_stop hstop hscan).1
      exact .inl h
    · rw [scan_more hmore] at hscan
      exact ih h₁ hscan
    · rw [scan_last hlast] at hscan
      cases hscan
      exact .inr h₁

/-! ## Calls of `get_token` -/

/-- The lexer between two tokens, at some position. -/
def starting (l : Lexer) (n : ℕ) : Lexer :=
  { l with
    token := []
    highSurrogate := 0
    highOffset := none
    pos := l.pos + n }

/-- The lexer at the first byte of a token whose start is recorded. -/
def started (l : Lexer) (n : ℕ) : Lexer :=
  { l.starting n with tokenStart := l.offset + n }

theorem getToken_eq {pre : Bytes} (hstate : l.state = .top) (hpre : Blank pre) :
    l.getToken (pre ++ text) = scan text (l.starting pre.length) :=
  scan_blank (l := { l with token := [], highSurrogate := 0, highOffset := none }) hstate hpre

/-- What a call of `get_token` has read. -/
structure Reads (l l' : Lexer) (n : ℕ) (core rest : Bytes) : Prop where
  text : TokenText (l.offset + n) core l'.state l'.token
  pos : l'.pos = l.pos + n + core.length
  start : recordsStart l'.state = true → l'.tokenStart = l.offset + n
  done : l'.done = true → rest = []

theorem inTop_quote : (l.starting n).inTop 0x22 =
    .ok (.more ((l.started n).ignoreState .string)) := by
  rw [inTop, if_pos rfl, started, offset, starting, offset, Int.natCast_add]

theorem inTop_lowercase (h : isLowercase b = true) : (l.starting n).inTop b =
    .ok (.more ((l.started n).appendState .alpha b)) := by
  have hquote : b ≠ 0x22 := by
    rintro rfl
    cases h
  rw [inTop, if_neg hquote, if_pos h, started, offset, starting, offset, Int.natCast_add]

theorem inTop_number {state : LexState} (h : numberStart b = some state) :
    (l.starting n).inTop b = .ok (.more ((l.started n).appendState state b)) := by
  have hall := forall_byte (p := fun b => (numberStart b).isSome = true →
    b ≠ 0x22 ∧ ¬isLowercase b = true) (by decide) b (by rw [h]; rfl)
  rw [inTop, if_neg hall.1, if_neg hall.2]
  unfold numberStart at h
  split_ifs at h ⊢ <;> obtain rfl := Option.some.inj h <;>
    rw [started, offset, starting, offset, Int.natCast_add]

/-- A token whose first byte has been read and whose other bytes follow. -/
theorem reads_of_tokenEnd {n : ℕ} {state : LexState} {body : Bytes}
    (htext : TokenText (l.offset + n) (b :: body) l'.state (b :: body))
    (h : TokenEnd ((l.started n).appendState state b) l' rest body.length body) :
    Reads l l' n (b :: body) rest := by
  have htoken := h.token
  have hpos := h.pos
  refine ⟨?_, ?_, fun _ => h.start, h.done⟩
  · rw [htoken]
    exact htext
  · rw [hpos, appendState, append, started, starting, List.length_cons]
    dsimp only
    omega

theorem reads_string {n : ℕ} {s : Bytes} (hdone : l.done = false)
    (htext : StringText (l.offset + n + 1) body s) (hend : l'.state = .afterString)
    (h : Moves ((l.started n).ignoreState .string) l' (body.length + 1) s) :
    Reads l l' n (0x22 :: (body ++ [0x22])) rest := by
  have htoken := h.token
  have hpos := h.pos
  refine ⟨?_, ?_, fun _ => h.start, ?_⟩
  · rw [hend, htoken]
    exact .string htext
  · rw [hpos, ignoreState, ignore, started, starting, List.length_cons, List.length_append]
    dsimp only [List.length_singleton]
    omega
  · intro hdone'
    rw [h.done] at hdone'
    exact absurd hdone' (by simp [ignoreState, ignore, started, starting, hdone])

theorem reads_delimiter {n : ℕ} {state : LexState} (hdone : l.done = false)
    (h : delimiter b = some state) : Reads l ((l.starting n).beginDelimiter state) n [b] rest := by
  have hcases : (l.starting n).beginDelimiter state = (l.started n).ignoreState state ∨
      recordsStart state = false ∧
        (l.starting n).beginDelimiter state = (l.starting n).ignoreState state := by
    unfold beginDelimiter
    split_ifs with hopening
    · left
      rw [started, offset, starting, offset, Int.natCast_add]
    · right
      unfold delimiter at h
      split_ifs at h <;> obtain rfl := Option.some.inj h <;> simp_all [recordsStart]
  have hnot : l.done ≠ true := by simp [hdone]
  rcases hcases with heq | ⟨hrecords, heq⟩
  · rw [heq]
    exact ⟨.delimiter h, rfl, fun _ => rfl, fun hdone' => absurd hdone' hnot⟩
  · rw [heq]
    refine ⟨.delimiter h, rfl, ?_, fun hdone' => absurd hdone' hnot⟩
    intro hrecords'
    rw [show ((l.starting n).ignoreState state).state = state from rfl, hrecords] at hrecords'
    cases hrecords'

theorem started_offset {n : ℕ} : ((l.started n).ignoreState .string).offset = l.offset + n + 1 := by
  simp only [started, starting, ignoreState, ignore, offset, Int.natCast_add]
  rfl

/-- The calls that do not fail find the end of the input, an unfinished string
or a token text. -/
theorem getToken_cases (hstate : l.state = .top) (hdone : l.done = false)
    (h : l.getToken text = .ok (l', rest)) :
    (Blank text ∧ rest = [] ∧ l'.state = .top ∧ l'.done = true) ∨ isInString l'.state = true ∨
    ∃ pre core, text = pre ++ (core ++ rest) ∧ Blank pre ∧ Reads l l' pre.length core rest := by
  obtain ⟨pre, tail, rfl, hpre, htail⟩ := exists_blank_prefix text
  rw [getToken_eq hstate hpre] at h
  cases tail with
  | nil =>
    obtain ⟨hend, rfl⟩ := scan_nil h
    rw [endToken, if_pos (by rfl)] at hend
    obtain rfl := Except.ok.inj hend
    exact .inl ⟨by rwa [List.append_nil], rfl, hstate, rfl⟩
  | cons b tail =>
    right
    have hblank := htail b tail rfl
    cases hdelimiter : delimiter b with
    | some state =>
      rw [scan_last (lexByte_delimiter (l := l.starting pre.length) hstate hdelimiter)] at h
      cases h
      exact .inr ⟨pre, [b], rfl, hpre, reads_delimiter hdone hdelimiter⟩
    | none =>
      cases hordinary : isOrdinary b with
      | false =>
        have hall := forall_byte (p := fun b => isOrdinary b = false → isBlank b = false →
          delimiter b = none → b < 32 ∧ ¬(b = 0x09 ∨ b = 0x0a ∨ b = 0x0d)) (by decide) b
          hordinary hblank hdelimiter
        rw [scan, lexByte, if_pos hall.1, if_neg hall.2] at h
        cases h
      | true =>
        have hlex : (l.starting pre.length).lexByte b = (l.starting pre.length).inTop b := by
          rw [lexByte_ordinary hordinary, inState, show (l.starting pre.length).state = .top from
            hstate]
        by_cases hquote : b = 0x22
        · subst hquote
          rw [inTop_quote] at hlex
          rw [scan_more hlex] at h
          rcases scan_inString (by rfl) h with hpartial | hend
          · exact .inl hpartial
          · obtain ⟨body, s, rfl, htext, hmoves⟩ := text_of_scan (by rfl) (Nat.succ_pos _)
              ⟨rfl, .inl rfl⟩ h hend
            rw [started_offset] at htext
            refine .inr ⟨pre, 0x22 :: (body ++ [0x22]), ?_, hpre,
              reads_string hdone htext hend hmoves⟩
            simp
        by_cases hlower : isLowercase b = true
        · rw [inTop_lowercase hlower] at hlex
          rw [scan_more hlex] at h
          obtain ⟨body, rfl, hbody, hend, htokenEnd⟩ := keyword_of_scan (by rfl) h
          have htext : TokenText (l.offset + pre.length) (b :: body) l'.state (b :: body) := by
            rw [hend]
            refine .keyword (List.cons_ne_nil _ _) ?_
            intro c hc
            rcases List.mem_cons.mp hc with rfl | hc
            · exact hlower
            · exact hbody c hc
          exact .inr ⟨pre, b :: body, rfl, hpre, reads_of_tokenEnd htext (htokenEnd hdone)⟩
        cases hnumber : numberStart b with
        | some state =>
          rw [inTop_number hnumber] at hlex
          rw [scan_more hlex] at h
          have hstart := forall_byte (p := fun b => ∀ state ∈ numberStart b,
            isNumberState state = true) (by decide) b state hnumber
          obtain ⟨body, rfl, haccepts, hend, htokenEnd⟩ :=
            number_of_scan (l := (l.started pre.length).appendState state b) hstart
              (by simp [appendState, append]) h
          have htext : TokenText (l.offset + pre.length) (b :: body) l'.state (b :: body) := by
            rw [hend]
            exact .number (isNumber_iff.mpr ⟨b, body, state, rfl, hnumber, haccepts⟩)
          exact .inr ⟨pre, b :: body, rfl, hpre, reads_of_tokenEnd htext (htokenEnd hdone)⟩
        | none =>
          have hnone := forall_byte (p := fun b => numberStart b = none →
            b ≠ 0x2d ∧ ¬isNonzeroDigit b = true ∧ b ≠ 0x30) (by decide) b hnumber
          rw [inTop, if_neg hquote, if_neg hlower, if_neg hnone.1, if_neg hnone.2.1,
            if_neg hnone.2.2] at hlex
          rw [scan_error hlex] at h
          cases h

/-- Behind the last token there is nothing to read. -/
theorem getToken_of_blank (hstate : l.state = .top) (hblank : Blank text) :
    ∃ l', l.getToken text = .ok (l', []) ∧ l'.state = .top ∧ l'.done = true := by
  refine ⟨{ l.starting text.length with done := true }, ?_, hstate, rfl⟩
  have hread : l.getToken (text ++ []) = scan [] (l.starting text.length) :=
    getToken_eq hstate hblank
  rw [List.append_nil] at hread
  rw [hread]
  rfl

/-- A token text is read by one call. -/
theorem getToken_of_text {pre core token : Bytes} {state : LexState}
    (h : TokenText (l.offset + pre.length) core state token) (hstate : l.state = .top)
    (hdone : l.done = false) (hpre : Blank pre) (hbreaks : isOpenEnded state = true → Breaks rest) :
    ∃ l', l.getToken (pre ++ (core ++ rest)) = .ok (l', rest) ∧ l'.state = state ∧
      l'.token = token ∧ Reads l l' pre.length core rest := by
  have htop : (l.starting pre.length).state = .top := hstate
  cases h with
  | @delimiter b state hdelimiter =>
    refine ⟨(l.starting pre.length).beginDelimiter state, ?_, ?_, ?_,
      reads_delimiter hdone hdelimiter⟩
    · rw [getToken_eq hstate hpre]
      exact scan_last (lexByte_delimiter htop hdelimiter)
    · unfold beginDelimiter
      split_ifs <;> rfl
    · unfold beginDelimiter
      split_ifs <;> rfl
  | number hnumber =>
    obtain ⟨b, body, start, rfl, hstart, haccepts⟩ := isNumber_iff.mp hnumber
    have hstartState := forall_byte (p := fun b => ∀ state ∈ numberStart b,
      isNumberState state = true ∧ isOrdinary b = true) (by decide) b start hstart
    obtain ⟨l', hscan, hend, htokenEnd⟩ :=
      scan_number (l := (l.started pre.length).appendState start b) haccepts hstartState.1
        (by simp [appendState, append]) hdone (hbreaks rfl)
    have hread := reads_of_tokenEnd (hend ▸ .number hnumber) htokenEnd
    refine ⟨l', ?_, hend, ?_, hread⟩
    · rw [getToken_eq hstate hpre, List.cons_append, scan_more, hscan]
      rw [lexByte_ordinary hstartState.2, inState, htop]
      exact inTop_number hstart
    · rw [htokenEnd.token]
      rfl
  | @keyword _ hne hbody =>
    cases core with
    | nil => exact absurd rfl hne
    | cons b body =>
      have hb := hbody b List.mem_cons_self
      have hrest : ∀ c ∈ body, isLowercase c = true := by
        intro c hc
        exact hbody c (List.mem_cons_of_mem _ hc)
      obtain ⟨l', hscan, hend, htokenEnd⟩ :=
        scan_keyword (l := (l.started pre.length).appendState .alpha b) hrest rfl hdone
          (hbreaks rfl)
      have hread := reads_of_tokenEnd (hend ▸ .keyword hne hbody) htokenEnd
      refine ⟨l', ?_, hend, ?_, hread⟩
      · rw [getToken_eq hstate hpre, List.cons_append, scan_more, hscan]
        rw [lexByte_ordinary (lowercase_isOrdinary hb), inState, htop]
        exact inTop_lowercase hb
      · rw [htokenEnd.token]
        rfl
  | @string body _ htext =>
    rw [← started_offset] at htext
    obtain ⟨l', hscan, hend, hmoves⟩ := scan_of_text rest htext rfl rfl (Nat.succ_pos _)
      ⟨rfl, .inl rfl⟩
    rw [started_offset] at htext
    have hread : Reads l l' pre.length (0x22 :: (body ++ [0x22])) rest :=
      reads_string hdone htext hend hmoves
    refine ⟨l', ?_, hend, ?_, hread⟩
    · rw [getToken_eq hstate hpre, List.cons_append, List.append_assoc, List.singleton_append,
        scan_more, hscan]
      rw [lexByte_ordinary rfl, inState, htop]
      exact inTop_quote
    · rw [hmoves.token]
      rfl

end Lexer

end Flpdf.Json
