import Flpdf.Xref.Reconstruction

/-!
# What the reconstruction scan recovers

The reference reading knows the file, its physical lines and the plain
tokenizer, and nothing of blocks, windows or token buffers. Each part of the
scan is shown to compute its part of the reference reading.
-/

namespace Flpdf

open Std

/-! ## The reference reading -/

/-- The token the plain tokenizer, without a length limit, reads at a position. -/
def plainToken (content : Bytes) (position : ℕ) : Option Token :=
  match Tokenizer.setPosition { input := content } position with
  | .error _ => none
  | .ok tokenizer => (tokenizer.readQpdfToken 0).1.toOption

/-- An integer of fewer bytes than the scan's token limit. -/
def isScanInteger (token : Token) : Bool :=
  token.isInteger && token.raw.length < xrefReconstructionMaxTokenLen

/-- The generation of the header whose number ends at a position: an integer and
`obj`, anywhere behind it. -/
def headerTail (content : Bytes) (position : ℕ) : Option Token := do
  let generation ← plainToken content position
  let object ← plainToken content generation.endPos
  if isScanInteger generation && object.isWordValue (ascii "obj") then some generation else none

/-- The number and generation of the object header a line starts with; the number
lies on the line. -/
def lineHeader (content : Bytes) (line : ℕ × ℕ) : Option (Token × Token) := do
  let number ← plainToken content line.1
  if isScanInteger number && number.endPos ≤ line.2 then
    (headerTail content number.endPos).map fun generation => (number, generation)
  else none

/-- The spans of the lines, the first of which began at `start`. -/
def lineSpans (start position : ℕ) : Bytes → List (ℕ × ℕ)
  | [] => [(start, position)]
  | byte :: rest =>
    if isEol byte then (start, position) :: lineSpans (position + 1) (position + 1) rest
    else lineSpans start (position + 1) rest

/-- The physical lines of a file, cut at every CR and LF. -/
def physicalLines (content : Bytes) : List (ℕ × ℕ) := lineSpans 0 0 content

/-- The valid reference a line's header names, and the offset of its number. -/
def lineEntry (content : Bytes) (line : ℕ × ℕ) : Option (ObjectRef × ℕ) :=
  match lineHeader content line with
  | none => none
  | some (number, generation) =>
    if 0 < intValue number.value ∧ 0 ≤ intValue generation.value ∧
        intValue generation.value < 65535 then
      some (⟨(intValue number.value).toNat, (intValue generation.value).toNat⟩, number.start)
    else none

/-- The header of a line names a number or a generation no `i32` holds. -/
def lineOverflows (content : Bytes) (line : ℕ × ℕ) : Prop :=
  ∃ number generation, lineHeader content line = some (number, generation) ∧
    ¬ (FitsInt (intValue number.value) ∧ FitsInt (intValue generation.value))

/-- The offset that comes last with a reference. -/
def lastOffsetOf (found : List (ObjectRef × ℕ)) (ref : ObjectRef) : Option ℕ :=
  (found.reverse.find? (·.1 == ref)).map (·.2)

/-- The offset on the last line whose header names the reference. -/
def lastOffset (content : Bytes) (ref : ObjectRef) : Option ℕ :=
  lastOffsetOf ((physicalLines content).filterMap (lineEntry content)) ref

/-- One line of the reference scan. -/
def scanLine (content : Bytes) (deletedObjects : ExtTreeSet ℕ) (recovered : Recovered)
    (line : ℕ × ℕ) : Except RecoveryError Recovered :=
  match lineHeader content line with
  | none => .ok recovered
  | some (number, generation) =>
    match reconstructedObjectRef number generation with
    | .error e => .error e
    | .ok none => .ok recovered
    | .ok (some ref) =>
      .ok (recovered.insertReconstructedXrefEntry deletedObjects ref number.start)

/-- An aborting line leaves what was recovered before it; any other line goes on. -/
def continueWith (recovered : Recovered) (next : Recovered → Except RecoveryError Unit × Recovered) :
    Except RecoveryError Recovered → Except RecoveryError Unit × Recovered
  | .error e => (.error e, recovered)
  | .ok recovered => next recovered

/-- The reference scan of some lines: the outcome, and what was recovered before it. -/
def scanLines (content : Bytes) (deletedObjects : ExtTreeSet ℕ) :
    List (ℕ × ℕ) → Recovered → Except RecoveryError Unit × Recovered
  | [], recovered => (.ok (), recovered)
  | line :: lines, recovered =>
    continueWith recovered (fun recovered => scanLines content deletedObjects lines recovered)
      (scanLine content deletedObjects recovered line)

/-! ## Tokens at a position -/

section Tokens

variable {content : Bytes} {p : ℕ}

/-- The run of regular bytes behind the gap at a position, and where it starts. -/
def runAt (content : Bytes) (p : ℕ) : Bytes := regularRun (skipGap false (content.drop p))

def runStart (content : Bytes) (p : ℕ) : ℕ :=
  content.length - (skipGap false (content.drop p)).length

theorem gap_length_le (content : Bytes) (p : ℕ) :
    (skipGap false (content.drop p)).length ≤ content.length - p := by
  have := skipGap_length_le false (content.drop p)
  rwa [List.length_drop] at this

theorem runAt_length_le (content : Bytes) (p : ℕ) :
    runStart content p + (runAt content p).length ≤ content.length := by
  have hrun : (runAt content p).length ≤ (skipGap false (content.drop p)).length :=
    (List.takeWhile_prefix isRegular).length_le
  have hgap := gap_length_le content p
  simp only [runStart]
  omega

theorem plainToken_eq (hp : p ≤ content.length) :
    plainToken content p =
      some (({ input := content, pos := p, allowEof := true } : Tokenizer).lexToken 0) := by
  have hset : Tokenizer.setPosition { input := content } p =
      .ok ({ input := content, pos := p } : Tokenizer).reset := by
    rw [Tokenizer.setPosition, if_neg (by simpa using hp)]
  simp only [plainToken, hset]
  rw [Tokenizer.readQpdfToken_eq (by simp [Tokenizer.reset])]
  rfl

theorem upcomingStart_eq (hp : p ≤ content.length) (allowEof : Bool) :
    ({ input := content, pos := p, allowEof := allowEof } : Tokenizer).upcomingStart =
      runStart content p := by
  have hgap := gap_length_le content p
  simp only [Tokenizer.upcomingStart, Tokenizer.upcoming, runStart, List.length_drop]
  omega

/-- The plain tokenizer reads an integer exactly where the run is an integer text. -/
theorem plainToken_integer (hp : p ≤ content.length) :
    ∃ token, plainToken content p = some token ∧
      (token.isInteger = true ↔ isIntText (runAt content p) = true) ∧
      (token.isInteger = true → token.value = runAt content p ∧ token.raw = runAt content p ∧
        token.start = runStart content p ∧
        token.endPos = runStart content p + (runAt content p).length) ∧
      (token.isWordValue (ascii "obj") = true ↔ runAt content p = ascii "obj") := by
  have hinteger := Tokenizer.lexToken_isInteger
    (o := { input := content, pos := p, allowEof := true }) (m := 0) rfl (.inl rfl)
  refine ⟨_, plainToken_eq hp, ?_, ?_, Tokenizer.lexToken_isWordValue_obj rfl (.inl rfl)⟩
  · exact hinteger.trans (by simp [runAt, Tokenizer.upcoming])
  · intro h
    have hne : regularRun ({ input := content, pos := p, allowEof := true } : Tokenizer).upcoming
        ≠ [] := by
      intro hnil
      have := (hinteger.mp h).1
      rw [hnil] at this
      cases this
    rw [Tokenizer.lexToken_run rfl hne (.inl rfl), upcomingStart_eq hp]
    exact ⟨rfl, rfl, rfl, rfl⟩

/-- The integers the scan accepts. -/
theorem isScanInteger_iff (hp : p ≤ content.length) {token : Token}
    (h : plainToken content p = some token) :
    isScanInteger token = true ↔
      isIntText (runAt content p) = true ∧ (runAt content p).length < 100 := by
  obtain ⟨token', htoken', hiff, hfields, _⟩ := plainToken_integer hp
  obtain rfl : token' = token := Option.some.inj (htoken'.symm.trans h)
  rw [isScanInteger, Bool.and_eq_true, decide_eq_true_eq, hiff]
  apply and_congr_right
  intro hint
  rw [(hfields (hiff.mpr hint)).2.1]
  rfl

end Tokens

/-! ## The first token of a line -/

theorem skipGap_append {x : Bytes} {c : Bool} (y : Bytes) (h : skipGap c x ≠ []) :
    skipGap c (x ++ y) = skipGap c x ++ y := by
  induction x generalizing c with
  | nil => cases c <;> simp [skipGap] at h
  | cons b x ih =>
    cases c with
    | true => exact ih h
    | false =>
      rw [skipGap] at h
      rw [List.cons_append, skipGap, skipGap]
      split_ifs at h ⊢
      · exact ih h
      · exact ih h
      · rfl

/-- A gap that fills its text goes on behind it. -/
theorem skipGap_append_length {x : Bytes} {c : Bool} (y : Bytes) (h : skipGap c x = []) :
    (skipGap c (x ++ y)).length ≤ y.length := by
  induction x generalizing c with
  | nil => exact skipGap_length_le c y
  | cons b x ih =>
    cases c with
    | true => exact ih h
    | false =>
      rw [skipGap] at h
      rw [List.cons_append, skipGap]
      split_ifs at h ⊢
      · exact ih h
      · exact ih h

theorem regularRun_append (x : Bytes) {y : Bytes}
    (hy : ∀ d ∈ y.head?, isTokenDelimiter d = true) : regularRun (x ++ y) = regularRun x := by
  induction x with
  | nil =>
    cases y with
    | nil => rfl
    | cons d y => exact regularRun_cons_of_delimiter (hy d rfl) y
  | cons b x ih =>
    rw [List.cons_append]
    by_cases hb : isRegular b = true
    · rw [regularRun_cons_of_regular hb, regularRun_cons_of_regular hb, ih]
    · have hd : isTokenDelimiter b = true := by
        simpa [isRegular] using hb
      rw [regularRun_cons_of_delimiter hd, regularRun_cons_of_delimiter hd]

/-- The token of a line on its own, under the scan's length limit. -/
def lineToken (line : Bytes) : Token :=
  ({ input := line, allowEof := true } : Tokenizer).lexToken xrefReconstructionMaxTokenLen

theorem readScanToken_eq (line : Bytes) :
    readScanToken line 0 line.length =
      if (lineToken line).tokenType ≠ .eof ∧ (lineToken line).start < line.length then
        some (lineToken line)
      else none := by
  have hset : Tokenizer.setPosition { input := line } 0 =
      .ok ({ input := line } : Tokenizer).reset := rfl
  have hread := Tokenizer.readQpdfToken_eq (o := ({ input := line } : Tokenizer).reset)
    (m := xrefReconstructionMaxTokenLen) (by simp [Tokenizer.reset])
  simp only [readScanToken, lt_self_iff_false, if_false, List.take_length, hset, hread]
  rfl

theorem lineToken_integer (line : Bytes) :
    ((lineToken line).isInteger = true ↔
      isIntText (runAt line 0) = true ∧ (runAt line 0).length < 100) ∧
    ((lineToken line).isInteger = true →
      lineToken line = Tokenizer.runToken (runStart line 0)
        (Tokenizer.runState (runAt line 0)) (runAt line 0)) := by
  have hinteger := Tokenizer.lexToken_isInteger (o := { input := line, allowEof := true })
    (m := xrefReconstructionMaxTokenLen) rfl (.inr (by decide))
  have hup : ({ input := line, allowEof := true } : Tokenizer).upcoming =
      skipGap false (line.drop 0) := rfl
  rw [hup] at hinteger
  refine ⟨hinteger.trans (by simp [runAt, xrefReconstructionMaxTokenLen]), ?_⟩
  intro h
  obtain ⟨hint, hlen⟩ := hinteger.mp h
  rw [lineToken, Tokenizer.lexToken_run rfl (fun hnil => ?_) hlen,
    upcomingStart_eq (Nat.zero_le _)]
  · rfl
  · rw [hup] at hnil
    rw [hnil] at hint
    cases hint

/-- An integer on the line alone is returned by the bounded read. -/
theorem readScanToken_of_integer {line : Bytes} (h : (lineToken line).isInteger = true) :
    readScanToken line 0 line.length = some (lineToken line) := by
  obtain ⟨hiff, hrun⟩ := lineToken_integer line
  have htype : (lineToken line).tokenType = .integer := by
    simpa [Token.isInteger] using h
  have hstart : (lineToken line).start < line.length := by
    have hle := runAt_length_le line 0
    have hpos : 0 < (runAt line 0).length := by
      rw [List.length_pos_iff]
      intro hnil
      have := (hiff.mp h).1
      rw [hnil] at this
      cases this
    rw [hrun h]
    simp only [Tokenizer.runToken]
    omega
  rw [readScanToken_eq, if_pos ⟨by simp [htype], hstart⟩]

section Line

variable {content : Bytes} {a e : ℕ}

/-- Where a line has a token, the file has the same one there; where it has none,
the next token of the file lies behind the line. -/
theorem runAt_line (ha : a ≤ e) (he : e ≤ content.length)
    (hend : ∀ d ∈ (content.drop e).head?, isTokenDelimiter d = true) :
    (runAt content a = runAt (slice content a e) 0 ∧
      runStart content a = a + runStart (slice content a e) 0) ∨
    (runAt (slice content a e) 0 = [] ∧ e ≤ runStart content a) := by
  have hlen := slice_length_of_le (i := a) he
  have hcontent := slice_append_drop content ha
  generalize slice content a e = line at hlen hcontent ⊢
  by_cases hgap : skipGap false line = []
  · right
    have hafter := skipGap_append_length (content.drop e) hgap
    rw [hcontent, List.length_drop] at hafter
    constructor
    · simp [runAt, hgap, regularRun]
    · simp only [runStart]
      omega
  · left
    have happend := skipGap_append (content.drop e) hgap
    rw [hcontent] at happend
    constructor
    · rw [runAt, happend, regularRun_append _ hend]
      rfl
    · have hle := skipGap_length_le false line
      simp only [runStart, happend, List.drop_zero, List.length_append, List.length_drop]
      omega

/-- The first token of a line, read from the line alone, is an integer exactly when
the plain tokenizer reads one of admissible length that ends on the line. -/
theorem readScanToken_spec (ha : a ≤ e) (he : e ≤ content.length)
    (hend : ∀ d ∈ (content.drop e).head?, isTokenDelimiter d = true) :
    ∃ number, plainToken content a = some number ∧
      (isScanInteger number = true ∧ number.endPos ≤ e ↔
        (lineToken (slice content a e)).isInteger = true) ∧
      ((lineToken (slice content a e)).isInteger = true →
        (lineToken (slice content a e)).value = number.value ∧
          a + (lineToken (slice content a e)).start = number.start ∧
          a + (lineToken (slice content a e)).endPos = number.endPos) := by
  obtain ⟨number, hplain, hiff, hfields, _⟩ := plainToken_integer (ha.trans he)
  obtain ⟨hline, hrun⟩ := lineToken_integer (slice content a e)
  refine ⟨number, hplain, ?_⟩
  have hnumber := isScanInteger_iff (ha.trans he) hplain
  rcases runAt_line ha he hend with ⟨hsame, hstart⟩ | ⟨hnone, hbehind⟩
  · have hbound := runAt_length_le (slice content a e) 0
    rw [slice_length_of_le he] at hbound
    rw [hsame] at hnumber hiff hfields
    rw [hstart] at hfields
    constructor
    · rw [hline, ← hnumber]
      constructor
      · exact And.left
      · intro h
        refine ⟨h, ?_⟩
        rw [(hfields (hiff.mpr (hnumber.mp h).1)).2.2.2]
        omega
    · intro h
      obtain ⟨hvalue, _, hs, hstop⟩ := hfields (hiff.mpr (hline.mp h).1)
      rw [hrun h, hvalue, hs, hstop]
      exact ⟨rfl, rfl, (Nat.add_assoc _ _ _).symm⟩
  · have hnot : ¬ (lineToken (slice content a e)).isInteger = true := by
      rw [hline, hnone]
      rintro ⟨h, _⟩
      cases h
    refine ⟨⟨?_, fun h => absurd h hnot⟩, fun h => absurd h hnot⟩
    rintro ⟨h, hstop⟩
    have hint := (hnumber.mp h).1
    have hpos : 0 < (runAt content a).length := by
      rw [List.length_pos_iff]
      intro hnil
      rw [hnil] at hint
      cases hint
    rw [(hfields (hiff.mpr hint)).2.2.2] at hstop
    omega

end Line

/-! ## The tokens behind the number -/

section Header

variable {content : Bytes} {p : ℕ} {generation : Token}

theorem headerTail_eq_none (h : plainToken content p = some generation)
    (hs : isScanInteger generation = false) : headerTail content p = none := by
  simp only [headerTail, h, hs, Option.bind_eq_bind, Option.bind_some, Bool.false_and]
  cases plainToken content generation.endPos <;> rfl

/-- The fields of an integer the scan accepts. -/
theorem scanInteger_fields (hp : p ≤ content.length) (h : plainToken content p = some generation)
    (hs : isScanInteger generation = true) :
    generation.value = runAt content p ∧ generation.start = runStart content p ∧
      generation.endPos = runStart content p + (runAt content p).length ∧
      generation.endPos ≤ content.length := by
  obtain ⟨token, htoken, hiff, hfields, _⟩ := plainToken_integer hp
  obtain rfl : token = generation := Option.some.inj (htoken.symm.trans h)
  obtain ⟨hvalue, _, hstart, hstop⟩ := hfields (hiff.mpr ((isScanInteger_iff hp h).mp hs).1)
  exact ⟨hvalue, hstart, hstop, hstop ▸ runAt_length_le content p⟩

theorem headerTail_of_integer (hp : p ≤ content.length)
    (h : plainToken content p = some generation) (hs : isScanInteger generation = true) :
    headerTail content p =
      if runAt content generation.endPos = ascii "obj" then some generation else none := by
  obtain ⟨object, hobject, _, _, hword⟩ :=
    plainToken_integer (scanInteger_fields hp h hs).2.2.2
  simp only [headerTail, h, hs, hobject, Option.bind_eq_bind, Option.bind_some, Bool.true_and,
    hword]

theorem reconstructedObjectRef_congr {a b a' b' : Token} (ha : a.value = a'.value)
    (hb : b.value = b'.value) : reconstructedObjectRef a b = reconstructedObjectRef a' b' := by
  simp only [reconstructedObjectRef, parseScanInteger, ha, hb]

end Header

/-- The tokens behind a number are read as the plain tokenizer reads them, whatever
block the scan holds and however the source serves its reads. -/
theorem scanObjectHeader_spec (src : Source) {windowStart : ℕ} {window : Bytes} {p : ℕ}
    (hwindow : window <+: src.content.drop windowStart) (hp : p ≤ src.content.length)
    (numberToken : Token) (reads : ℕ) :
    ∃ reads', scanObjectHeaderAfterFirstTokenFromSource src windowStart window p numberToken
        reads =
      some (match headerTail src.content p with
        | none => .ok none
        | some generation =>
          match reconstructedObjectRef numberToken generation with
          | .error e => .error e
          | .ok ref => .ok (ref.map fun ref => (ref, numberToken.start)), reads') := by
  have hat : RecoveryReader.At src
      { sourceWindowStart := windowStart
        sourceWindow := window
        position := p
        reads := reads } p := ⟨hwindow, List.nil_prefix, rfl⟩
  obtain ⟨generation, hplain, _, _, _⟩ := plainToken_integer hp
  have hscan := isScanInteger_iff hp hplain
  obtain ⟨result, r₁, hnext, hnil, hcons⟩ := RecoveryReader.nextToken_spec
    (src.content.length + 2) hat hp (by omega) rfl rfl
  by_cases hs : isScanInteger generation = true
  · obtain ⟨hvalue, _, hstop, hle⟩ := scanInteger_fields hp hplain hs
    have hne : skipGap false (src.content.drop p) ≠ [] := by
      intro hnil
      have := (hscan.mp hs).1
      simp [runAt, hnil, regularRun, isIntText, splitSign] at this
    obtain ⟨token, rfl, hinteger, hkeep, _⟩ := hcons hne
    have htoken := hinteger.mpr (hscan.mp hs)
    obtain ⟨htokenValue, hat₁⟩ := hkeep htoken
    have hpos : src.content.length - (skipGap false (src.content.drop p)).length +
        (regularRun (skipGap false (src.content.drop p))).length = generation.endPos := hstop.symm
    rw [hpos] at hat₁
    obtain ⟨result₂, r₂, hnext₂, hnil₂, hcons₂⟩ := RecoveryReader.nextToken_spec
      (src.content.length + 2) hat₁ hle (by omega) rfl rfl
    rw [headerTail_of_integer hp hplain hs]
    simp only [scanObjectHeaderAfterFirstTokenFromSource, hnext, htoken, hnext₂, Bool.not_true,
      Bool.false_eq_true, if_false]
    by_cases hg : skipGap false (src.content.drop generation.endPos) = []
    · obtain rfl := hnil₂ hg
      have hobj : runAt src.content generation.endPos ≠ ascii "obj" := by
        rw [runAt, hg]
        decide
      rw [if_neg hobj]
      exact ⟨r₂.reads, rfl⟩
    · obtain ⟨token₂, rfl, _, _, hword⟩ := hcons₂ hg
      by_cases hobj : runAt src.content generation.endPos = ascii "obj"
      · have htoken₂ := hword.mpr hobj
        rw [if_pos hobj, reconstructedObjectRef_congr rfl (htokenValue.trans hvalue.symm)]
        simp only [htoken₂, Bool.not_true, Bool.false_eq_true, if_false]
        cases reconstructedObjectRef numberToken generation with
        | error e => exact ⟨r₂.reads, rfl⟩
        | ok ref => exact ⟨r₂.reads, rfl⟩
      · have htoken₂ : token₂.isWordValue (ascii "obj") = false := by
          rw [Bool.eq_false_iff]
          exact fun h => hobj (hword.mp h)
        rw [if_neg hobj]
        simp only [htoken₂, Bool.not_false, if_true]
        exact ⟨r₂.reads, rfl⟩
  · rw [headerTail_eq_none hplain (Bool.eq_false_iff.mpr hs)]
    simp only [scanObjectHeaderAfterFirstTokenFromSource, hnext]
    by_cases hg : skipGap false (src.content.drop p) = []
    · obtain rfl := hnil hg
      exact ⟨r₁.reads, rfl⟩
    · obtain ⟨token, rfl, hinteger, _, _⟩ := hcons hg
      have htoken : token.isInteger = false := by
        rw [Bool.eq_false_iff]
        exact fun h => hs (hscan.mpr (hinteger.mp h))
      simp only [htoken, Bool.not_false, if_true]
      exact ⟨r₁.reads, rfl⟩

/-! ## Lines -/

/-- A line is processed as the reference reading says; only the count of reads
depends on the source. -/
theorem processLine_spec (src : Source) (deletedObjects : ExtTreeSet ℕ) {windowStart : ℕ}
    {window : Bytes} (hwindow : window <+: src.content.drop windowStart) (st : ScanState) {e : ℕ}
    (ha : st.lineStart ≤ e) (he : e ≤ src.content.length)
    (hend : ∀ d ∈ (src.content.drop e).head?, isTokenDelimiter d = true)
    (hline : st.line = slice src.content st.lineStart e) :
    ∃ reads', processLine src deletedObjects windowStart window st =
      some (match scanLine src.content deletedObjects st.recovered (st.lineStart, e) with
        | .error e => (.error e, { st with reads := reads' })
        | .ok recovered => (.ok (), { st with reads := reads', recovered := recovered })) := by
  obtain ⟨number, hplain, hiff, hfields⟩ := readScanToken_spec ha he hend
  rw [← hline] at hiff hfields
  by_cases hint : (lineToken st.line).isInteger = true
  · obtain ⟨hvalue, hstart, hstop⟩ := hfields hint
    obtain ⟨hs, hle⟩ := hiff.mpr hint
    obtain ⟨reads', hheader⟩ := scanObjectHeader_spec src hwindow (hle.trans he)
      (lineToken st.line) st.reads
    have hlineHeader : lineHeader src.content (st.lineStart, e) =
        (headerTail src.content number.endPos).map fun generation => (number, generation) := by
      simp [lineHeader, hplain, hs, hle]
    have hcongr : ∀ generation, reconstructedObjectRef (lineToken st.line) generation =
        reconstructedObjectRef number generation :=
      fun generation => reconstructedObjectRef_congr hvalue rfl
    simp only [processLine, readScanToken_of_integer hint, hint, if_true, hstop, hheader, scanLine,
      hlineHeader]
    refine ⟨reads', ?_⟩
    cases headerTail src.content number.endPos with
    | none => rfl
    | some generation =>
      simp only [Option.map_some, hcongr]
      cases reconstructedObjectRef number generation with
      | error e => rfl
      | ok ref =>
        cases ref with
        | none => rfl
        | some ref => simp [hstart]
  · have hnone : lineHeader src.content (st.lineStart, e) = none := by
      have hnot := fun h => hint (hiff.mp h)
      simp only [lineHeader, hplain, Option.bind_eq_bind, Option.bind_some, Bool.and_eq_true,
        decide_eq_true_eq, if_neg hnot]
    refine ⟨st.reads, ?_⟩
    simp only [processLine, readScanToken_eq, scanLine, hnone]
    split_ifs
    · simp only [if_neg hint]
    · rfl

end Flpdf
