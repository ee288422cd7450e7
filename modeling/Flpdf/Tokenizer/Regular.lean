import Flpdf.Bytes.Integers
import Flpdf.Tokenizer.Reading

/-! # Integers and words

Where a token is read, the tokenizer skips white space and comments and, unless
a delimiter follows, takes the longest run of regular bytes.  The run alone
decides whether the token is an integer or a word.
-/

namespace Flpdf

def isRegular (b : UInt8) : Bool := !isTokenDelimiter b

/-- The input behind white space and comments; the flag tells that a comment is open. -/
def skipGap : Bool → Bytes → Bytes
  | _, [] => []
  | true, b :: rest => skipGap (!(b == 0x0d || b == 0x0a)) rest
  | false, b :: rest =>
    if isWs b then skipGap false rest else if b = 0x25 then skipGap true rest else b :: rest

/-- The longest run of regular bytes in front. -/
def regularRun (l : Bytes) : Bytes := l.takeWhile isRegular

theorem regularRun_cons_of_regular {b : UInt8} (h : isRegular b = true) (l : Bytes) :
    regularRun (b :: l) = b :: regularRun l :=
  List.takeWhile_cons_of_pos h

theorem regularRun_cons_of_delimiter {b : UInt8} (h : isTokenDelimiter b = true) (l : Bytes) :
    regularRun (b :: l) = [] :=
  List.takeWhile_cons_of_neg (by simp [isRegular, h])

theorem regular_of_mem_regularRun {l : Bytes} {b : UInt8} (h : b ∈ regularRun l) :
    isRegular b = true :=
  List.mem_takeWhile_imp h

/-- What is left of the input behind a gap is a suffix of it. -/
theorem skipGap_suffix (c : Bool) (l : Bytes) : skipGap c l <:+ l := by
  induction l generalizing c with
  | nil =>
    cases c <;> simp [skipGap]
  | cons b rest ih =>
    cases c with
    | true => exact (ih _).trans (List.suffix_cons b rest)
    | false =>
      rw [skipGap]
      split_ifs
      · exact (ih false).trans (List.suffix_cons b rest)
      · exact (ih true).trans (List.suffix_cons b rest)
      · exact List.suffix_rfl

theorem skipGap_length_le (c : Bool) (l : Bytes) : (skipGap c l).length ≤ l.length :=
  (skipGap_suffix c l).length_le

/-- The byte behind a gap is neither white space nor the start of a comment. -/
theorem skipGap_head {c : Bool} {l rest : Bytes} {b : UInt8} (h : skipGap c l = b :: rest) :
    isWs b = false ∧ b ≠ 0x25 := by
  induction l generalizing c with
  | nil =>
    cases c <;> simp [skipGap] at h
  | cons a l ih =>
    cases c with
    | true => exact ih h
    | false =>
      rw [skipGap] at h
      split_ifs at h with hws hpercent
      · exact ih h
      · exact ih h
      · obtain ⟨rfl, rfl⟩ := List.cons.inj h
        exact ⟨by simpa using hws, hpercent⟩

theorem skipGap_drop (c : Bool) (l : Bytes) :
    skipGap c l = l.drop (l.length - (skipGap c l).length) := by
  obtain ⟨gap, hgap⟩ := skipGap_suffix c l
  have hlen := congrArg List.length hgap
  rw [List.length_append] at hlen
  have hgaplen : l.length - (skipGap c l).length = gap.length := by
    omega
  calc skipGap c l = (gap ++ skipGap c l).drop gap.length := by simp
    _ = l.drop (l.length - (skipGap c l).length) := by rw [hgap, hgaplen]

namespace Tokenizer

variable {o t : Tokenizer} {b : UInt8} {rest tail raw : Bytes} {s : LexState} {m : ℕ}

/-! ## Skipping -/

/-- The tokenizer in front of a token, possibly inside a comment. -/
def skipping (o : Tokenizer) (c : Bool) : Tokenizer :=
  { o.reset with state := if c then .inComment else .beforeToken }

def advance (o : Tokenizer) (n : ℕ) : Tokenizer := { o with pos := o.pos + n }

theorem advance_advance (o : Tokenizer) (n k : ℕ) :
    (o.advance n).advance k = o.advance (n + k) := by
  simp [advance, Nat.add_assoc]

theorem readByte_skipping_comment (hi : o.includeIgnorable = false) (b : UInt8) :
    (o.skipping true).readByte m b = (o.advance 1).skipping (!(b == 0x0d || b == 0x0a)) := by
  by_cases hb : b = 0x0d ∨ b = 0x0a
  · have hc : (b == 0x0d || b == 0x0a) = true := by simpa using hb
    simp [readByte, skipping, handleCharacter, handleInComment, hb, hi, afterCharacter, reset,
      goto, advance, hc]
  · have hc : (b == 0x0d || b == 0x0a) = false := by simpa using hb
    simp [readByte, skipping, handleCharacter, handleInComment, hb, afterCharacter, reset,
      advance, hc]

theorem readByte_skipping_space (hi : o.includeIgnorable = false) (hb : isWs b = true) :
    (o.skipping false).readByte m b = (o.advance 1).skipping false := by
  simp [readByte, skipping, handleCharacter, inBeforeToken, hb, hi, afterCharacter, reset, advance]

theorem readByte_skipping_percent (hi : o.includeIgnorable = false) :
    (o.skipping false).readByte m 0x25 = (o.advance 1).skipping true := by
  have hws : isWs 0x25 = false := rfl
  simp [readByte, skipping, handleCharacter, inBeforeToken, hws, hi, afterCharacter, reset,
    advance]

theorem skipping_not_ready (c : Bool) : (o.skipping c).state ≠ .tokenReady := by
  cases c <;> simp [skipping]

/-- The loop passes a gap without keeping anything of it. -/
theorem readLoop_skipGap (hi : o.includeIgnorable = false) (c : Bool) (l : Bytes) :
    ∃ c', readLoop m l (o.skipping c) =
        readLoop m (skipGap c l)
          ((o.advance (l.length - (skipGap c l).length)).skipping c') ∧
      (skipGap c l ≠ [] → c' = false) := by
  induction l generalizing c o with
  | nil =>
    refine ⟨c, ?_, ?_⟩ <;> cases c <;> simp [skipGap, advance]
  | cons b rest ih =>
    -- One byte of the gap, then the rest by induction.
    have hstep : ∀ c₁, (o.skipping c).readByte m b = (o.advance 1).skipping c₁ →
        skipGap c (b :: rest) = skipGap c₁ rest → ∃ c',
          readLoop m (b :: rest) (o.skipping c) = readLoop m (skipGap c (b :: rest))
            ((o.advance ((b :: rest).length - (skipGap c (b :: rest)).length)).skipping c') ∧
          (skipGap c (b :: rest) ≠ [] → c' = false) := by
      intro c₁ hread hskip
      obtain ⟨c', hloop, hc'⟩ := ih (o := o.advance 1) hi c₁
      refine ⟨c', ?_, hskip ▸ hc'⟩
      have hlen := skipGap_length_le c₁ rest
      rw [readLoop_cons (skipping_not_ready c), hread, hloop, hskip, advance_advance,
        List.length_cons, Nat.sub_add_comm hlen, Nat.add_comm 1]
    cases c with
    | true => exact hstep _ (readByte_skipping_comment hi b) rfl
    | false =>
      by_cases hws : isWs b = true
      · exact hstep false (readByte_skipping_space hi hws) (by rw [skipGap, if_pos hws])
      · by_cases hpercent : b = 0x25
        · subst hpercent
          exact hstep true (readByte_skipping_percent hi) rfl
        · have hskip : skipGap false (b :: rest) = b :: rest := by
            rw [skipGap, if_neg hws, if_neg hpercent]
          refine ⟨false, ?_, fun _ => rfl⟩
          rw [hskip]
          simp [advance]

/-! ## Runs of regular bytes -/

/-- The state after the first byte of a run. -/
def firstState (b : UInt8) : LexState :=
  if isAsciiDigit b then .number
  else if b = 0x2b ∨ b = 0x2d then .sign
  else if b = 0x2e then .decimal
  else .literal

/-- What a further regular byte does to the state of a run. -/
def nextState : LexState → UInt8 → LexState
  | .number, b => if isAsciiDigit b then .number else if b = 0x2e then .real else .literal
  | .real, b => if isAsciiDigit b then .real else .literal
  | .sign, b => if isAsciiDigit b then .number else if b = 0x2e then .decimal else .literal
  | .decimal, b => if isAsciiDigit b then .real else .literal
  | _, _ => .literal

def runState : Bytes → LexState
  | [] => .literal
  | b :: rest => rest.foldl nextState (firstState b)

/-- The states in which a run is collected. -/
def isRunState : LexState → Bool
  | .number | .real | .sign | .decimal | .literal => true
  | _ => false

/-- The type of a run that ends in the given state. -/
def runType (s : LexState) (raw : Bytes) : TokenType :=
  match s with
  | .number => .integer
  | .real => .real
  | _ =>
    if raw = ascii "true" ∨ raw = ascii "false" then .bool
    else if raw = ascii "null" then .null else .word

theorem isRunState_firstState (b : UInt8) : isRunState (firstState b) = true := by
  unfold firstState
  split_ifs <;> rfl

theorem isRunState_nextState (s : LexState) (b : UInt8) : isRunState (nextState s b) = true := by
  cases s with
  | number | real | sign | decimal =>
    simp only [nextState]
    split_ifs <;> rfl
  | _ => rfl

theorem isRunState_runState (run : Bytes) : isRunState (runState run) = true := by
  cases run with
  | nil => rfl
  | cons b rest =>
    induction rest using List.reverseRecOn with
    | nil => exact isRunState_firstState b
    | append_singleton rest a _ =>
      simp only [runState, List.foldl_concat]
      exact isRunState_nextState _ a

theorem reading_not_ready {v : Bytes} (hs : isRunState s = true) :
    (reading o s v raw).state ≠ .tokenReady := by
  cases s <;> simp [isRunState, reading] at hs ⊢

theorem regular_facts (b : UInt8) (hb : isRegular b = true) :
    isTokenDelimiter b = false ∧ isWs b = false ∧ b ≠ 0x25 ∧ b ≠ 0x28 ∧ b ≠ 0x3c ∧ b ≠ 0x3e ∧
      b ≠ 0x29 ∧ b ≠ 0x5b ∧ b ≠ 0x5d ∧ b ≠ 0x7b ∧ b ≠ 0x7d ∧ b ≠ 0x2f :=
  forall_byte (p := fun b => isRegular b = true → isTokenDelimiter b = false ∧ isWs b = false ∧
    b ≠ 0x25 ∧ b ≠ 0x28 ∧ b ≠ 0x3c ∧ b ≠ 0x3e ∧ b ≠ 0x29 ∧ b ≠ 0x5b ∧ b ≠ 0x5d ∧ b ≠ 0x7b ∧
    b ≠ 0x7d ∧ b ≠ 0x2f) (by decide) b hb

theorem inTop_regular (hb : isRegular b = true) : t.inTop b = t.goto (firstState b) := by
  obtain ⟨_, _, _, h28, h3c, h3e, h29, h5b, h5d, h7b, h7d, h2f⟩ := regular_facts b hb
  simp only [inTop, if_neg h28, if_neg h3c, if_neg h3e, if_neg h29, if_neg h5b, if_neg h5d,
    if_neg h7b, if_neg h7d, if_neg h2f, firstState]
  split_ifs <;> rfl

/-- The first byte of a run. -/
theorem readByte_first (hb : isRegular b = true) (hm : m = 0 ∨ 1 < m) :
    (o.skipping false).readByte m b = reading o (firstState b) [] [b] := by
  obtain ⟨_, hws, hpercent, _⟩ := regular_facts b hb
  rcases hm with rfl | hm
  · simp [readByte, skipping, handleCharacter, inBeforeToken, hws, hpercent, inTop_regular hb,
      goto, afterCharacter, reset, reading]
  · have h1 : ¬ m ≤ 1 := by
      omega
    simp [readByte, skipping, handleCharacter, inBeforeToken, hws, hpercent, inTop_regular hb,
      goto, afterCharacter, reset, reading, h1]

/-- A regular byte inside a run only moves the state. -/
theorem handleCharacter_run (hs : isRunState t.state = true) (hb : isRegular b = true) :
    t.handleCharacter b = t.goto (nextState t.state b) := by
  have hd := (regular_facts b hb).1
  have hlit : ∀ u : Tokenizer, u.inLiteral b = u := fun u => by simp [inLiteral, hd]
  have hself : ∀ x, t.state = x → t = t.goto x := fun x hx => by rw [← hx]; rfl
  cases hst : t.state with
  | number =>
    simp only [handleCharacter, hst, inNumber, hd, nextState, Bool.false_eq_true, if_false]
    split_ifs <;> first | exact hself _ hst | rfl
  | real =>
    simp only [handleCharacter, hst, inReal, hd, nextState, Bool.false_eq_true, if_false]
    split_ifs <;> first | exact hself _ hst | rfl
  | sign =>
    simp only [handleCharacter, hst, inSign, hlit, nextState]
    split_ifs <;> rfl
  | decimal =>
    simp only [handleCharacter, hst, inDecimal, hlit, nextState]
    split_ifs <;> rfl
  | literal =>
    simp only [handleCharacter, hst, hlit, nextState]
    exact hself _ hst
  | _ => simp [hst, isRunState] at hs

theorem readByte_run (hs : isRunState s = true) (hb : isRegular b = true)
    (hm : m = 0 ∨ raw.length + 1 < m) :
    (reading o s [] raw).readByte m b = reading o (nextState s b) [] (raw ++ [b]) := by
  rw [readByte, handleCharacter_run hs hb]
  rcases hm with rfl | hm
  · simp [reading, goto, afterCharacter, Nat.add_assoc]
  · have hlen : ¬ m ≤ raw.length + 1 := by
      omega
    simp [reading, goto, afterCharacter, Nat.add_assoc, hlen]

/-- The length limit turns a run into a bad token. -/
theorem readByte_run_limit (hs : isRunState s = true) (hb : isRegular b = true) (hm : m ≠ 0)
    (hlen : m ≤ raw.length + 1) :
    ((reading o s [] raw).readByte m b).state = .tokenReady ∧
      ((reading o s [] raw).readByte m b).tokenType = .bad := by
  have hready : nextState s b ≠ .tokenReady := by
    intro h
    have := isRunState_nextState s b
    rw [h] at this
    cases this
  rw [readByte, handleCharacter_run hs hb]
  simp [reading, goto, afterCharacter, hm, hlen, hready, badWith]

theorem readLoop_run (run : Bytes) (hrun : ∀ b ∈ run, isRegular b = true)
    (hs : isRunState s = true) (hm : m = 0 ∨ raw.length + run.length < m) :
    readLoop m (run ++ tail) (reading o s [] raw) =
      readLoop m tail (reading o (run.foldl nextState s) [] (raw ++ run)) := by
  induction run generalizing s raw with
  | nil => simp
  | cons b run ih =>
    rw [List.length_cons] at hm
    rw [List.cons_append, readLoop_cons (reading_not_ready hs),
      readByte_run hs (hrun b (by simp)) (by omega),
      ih (fun c hc => hrun c (by simp [hc])) (isRunState_nextState s b) (by simp; omega)]
    simp

/-- A run that reaches the length limit. -/
theorem readLoop_run_limit (run : Bytes) (hrun : ∀ b ∈ run, isRegular b = true)
    (hs : isRunState s = true) (hm : m ≠ 0) (hraw : raw.length < m)
    (hlen : m ≤ raw.length + run.length) :
    (readLoop m (run ++ tail) (reading o s [] raw)).tokenType = .bad := by
  induction run generalizing s raw with
  | nil =>
    simp at hlen
    omega
  | cons b run ih =>
    rw [List.length_cons] at hlen
    rw [List.cons_append, readLoop_cons (reading_not_ready hs)]
    by_cases hlimit : m ≤ raw.length + 1
    · have hbad := readByte_run_limit (o := o) hs (hrun b (by simp)) hm hlimit
      rw [readLoop_of_ready hbad.1]
      exact hbad.2
    · rw [readByte_run hs (hrun b (by simp)) (by omega)]
      exact ih (fun c hc => hrun c (by simp [hc])) (isRunState_nextState s b)
        (by simp; omega) (by simp; omega)

/-- A run that stops collecting in state `s`. -/
def runToken (start : ℕ) (s : LexState) (raw : Bytes) : Token where
  tokenType := runType s raw
  value := raw
  raw := raw
  errorMessage := none
  errorOffset := start
  start := start
  endPos := start + raw.length

theorem handleCharacter_end (hs : isRunState t.state = true) (hb : isTokenDelimiter b = true) :
    t.handleCharacter b = t.endBefore (runType t.state t.raw) b := by
  have hd : isAsciiDigit b = false ∧ b ≠ 0x2e :=
    forall_byte (p := fun b => isTokenDelimiter b = true → isAsciiDigit b = false ∧ b ≠ 0x2e)
      (by decide) b hb
  cases hst : t.state with
  | number | real | literal =>
    simp [handleCharacter, hst, inNumber, inReal, inLiteral, hb, hd, runType]
  | sign | decimal =>
    simp only [handleCharacter, hst, inSign, inDecimal, inLiteral, hb, hd, runType, if_true,
      Bool.false_eq_true, if_false]
    rfl
  | _ => simp [hst, isRunState] at hs

/-- At a delimiter or at the end of the input the run is the token. -/
theorem takeReadyToken_run (hs : isRunState s = true)
    (htail : ∀ d ∈ tail.head?, isTokenDelimiter d = true) :
    (readLoop m tail (reading o s [] raw)).unread.takeReadyToken = runToken o.pos s raw := by
  have htype : runType s raw ≠ .name ∧ runType s raw ≠ .string ∧ runType s raw ≠ .eof := by
    cases s <;> simp only [runType, ne_eq, reduceCtorEq, not_false_eq_true, and_self] <;>
      split_ifs <;> simp
  obtain ⟨hname, hstring, heof⟩ := htype
  cases tail with
  | nil =>
    have hff : isTokenDelimiter 0x0c = true := rfl
    have heofs : (reading o s [] raw).presentEof =
        { (reading o s [] raw).presentCharacter 0x0c with inToken := true, state := .tokenReady } := by
      cases s <;> simp [isRunState, presentEof, reading] at hs ⊢
    have hend := handleCharacter_end (t := reading o s [] raw) (b := 0x0c) hs hff
    rw [readLoop, if_neg (reading_not_ready hs)]
    simp only [readEof, heofs, presentCharacter, hend]
    simp [reading, endBefore, heof, unread, takeReadyToken, hname, hstring, runToken]
  | cons d tail =>
    have hd := htail d rfl
    have hend := handleCharacter_end (t := { reading o s [] raw with pos := o.pos + raw.length + 1 })
      (b := d) hs hd
    have hbyte : (reading o s [] raw).readByte m d =
        { reading o s [] raw with
          pos := o.pos + raw.length + 1, tokenType := runType s raw, inToken := false
          charToUnread := some d, state := .tokenReady } := by
      rw [readByte]
      show afterCharacter m (handleCharacter { reading o s [] raw with
        pos := o.pos + raw.length + 1 } d) d = _
      rw [hend]
      simp [endBefore, reading, afterCharacter]
    rw [readLoop_cons (reading_not_ready hs), hbyte, readLoop_of_ready rfl]
    simp [reading, unread, takeReadyToken, hname, hstring, runToken]

end Tokenizer

end Flpdf
