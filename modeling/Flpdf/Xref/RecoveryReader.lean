import Flpdf.Tokenizer.Lexemes

/-!
# The token reader of the recovery scan

The scan reads its source in blocks whose sizes the source chooses. The reader
of the tokens behind a candidate number takes bytes from one block the scan
already has, from its own blocks, or from a byte it has put back, and must
present the file as if none of that happened.
-/

namespace Flpdf

/-- A file and the number of bytes each successive read delivers. -/
structure Source where
  content : Bytes
  readSize : ℕ → ℕ

/-- The block every read asks for. -/
def blockLength : ℕ := 10240

/-- The `n`-th read, at a position: nothing at the end of the file, otherwise at
least one byte and at most a block. -/
def Source.read (src : Source) (n position : ℕ) : Bytes :=
  (src.content.drop position).take (max 1 (min (src.readSize n) blockLength))

def xrefReconstructionMaxTokenLen : ℕ := 100

/-- A failure of the scan: of the tokenizer, or of an integer conversion. -/
inductive RecoveryError where
  | parse (offset : ℕ) (message : Bytes)
  | system (message : Bytes)
  deriving DecidableEq, Repr

/-- `RecoverySourceTokenReader`, with the number of reads the source has served. -/
structure RecoveryReader where
  sourceWindowStart : ℕ
  sourceWindow : Bytes
  position : ℕ
  buffer : Bytes := []
  bufferPosition : ℕ := 0
  pending : Option UInt8 := none
  reads : ℕ

namespace RecoveryReader

def readByte (src : Source) (r : RecoveryReader) : Option UInt8 × RecoveryReader :=
  match r.pending with
  | some byte => (some byte, { r with pending := none })
  | none =>
    match r.buffer[r.bufferPosition]? with
    | some byte =>
      (some byte, { r with bufferPosition := r.bufferPosition + 1, position := r.position + 1 })
    | none =>
      if r.sourceWindowStart ≤ r.position ∧
          r.position < r.sourceWindowStart + r.sourceWindow.length then
        (r.sourceWindow[r.position - r.sourceWindowStart]?, { r with position := r.position + 1 })
      else if src.content.length ≤ r.position then (none, r)
      else
        let buffer := src.read r.reads r.position
        match buffer[0]? with
        | none => (none, { r with buffer := buffer, bufferPosition := 0, reads := r.reads + 1 })
        | some byte =>
          (some byte,
            { r with
              buffer := buffer, bufferPosition := 1, position := r.position + 1
              reads := r.reads + 1 })

/-- The two nested loops over white space and comments; the flag tells which of
them the reader is in. `none` when the fuel does not suffice. -/
def skipSeparators (src : Source) :
    ℕ → Bool → RecoveryReader → Option (Option UInt8 × RecoveryReader)
  | 0, _, _ => none
  | n + 1, true, r =>
    match r.readByte src with
    | (some byte, r) => skipSeparators src n (!(byte == 0x0d || byte == 0x0a)) r
    | (none, r) => skipSeparators src n false r
  | n + 1, false, r =>
    match r.readByte src with
    | (none, r) => some (none, r)
    | (some byte, r) =>
      if isWs byte then skipSeparators src n false r
      else if byte = 0x25 then skipSeparators src n true r
      else some (some byte, r)

/-- The loop that collects the bytes of a token; `room` bytes may still be added. -/
def collectToken (src : Source) : ℕ → Bytes → RecoveryReader → Bytes × RecoveryReader
  | 0, tokenBytes, r => (tokenBytes, r)
  | room + 1, tokenBytes, r =>
    match r.readByte src with
    | (none, r) => (tokenBytes, r)
    | (some byte, r) =>
      if isWs byte || isDelimiter byte then (tokenBytes, { r with pending := some byte })
      else collectToken src room (tokenBytes ++ [byte]) r

/-- The token that stands for every token a delimiter starts. -/
def badToken : Token where
  tokenType := .bad
  value := []
  raw := []
  errorMessage := none
  errorOffset := 0
  start := 0
  endPos := 0

def nextToken (src : Source) (fuel : ℕ) (r : RecoveryReader) :
    Option (Except RecoveryError (Option Token) × RecoveryReader) :=
  match skipSeparators src fuel false r with
  | none => none
  | some (none, r) => some (.ok none, r)
  | some (some first, r) =>
    if isDelimiter first then some (.ok (some badToken), r)
    else
      let (tokenBytes, r) := collectToken src (xrefReconstructionMaxTokenLen - 1) [first] r
      match (({ input := tokenBytes } : Tokenizer).readQpdfToken
          xrefReconstructionMaxTokenLen).1 with
      | .ok token => some (.ok (some token), r)
      | .error (offset, message) => some (.error (.parse offset message), r)

/-! ## The reader presents the file -/

variable {src : Source} {r : RecoveryReader} {p : ℕ}

/-- The reader is about to present the byte at `p` of the file. -/
structure At (src : Source) (r : RecoveryReader) (p : ℕ) : Prop where
  window : r.sourceWindow <+: src.content.drop r.sourceWindowStart
  buffer : r.buffer.drop r.bufferPosition <+: src.content.drop r.position
  cursor : match r.pending with
    | none => r.position = p
    | some byte => r.position = p + 1 ∧ src.content[p]? = some byte

theorem read_isPrefix (src : Source) (n position : ℕ) :
    src.read n position <+: src.content.drop position :=
  List.take_prefix _ _

theorem read_ne_nil (src : Source) (n : ℕ) {position : ℕ} (h : position < src.content.length) :
    src.read n position ≠ [] := by
  intro hnil
  have hlen := congrArg List.length hnil
  simp only [Source.read, List.length_take, List.length_drop, List.length_nil] at hlen
  omega

theorem getElem?_of_isPrefix {l m : Bytes} {i j : ℕ} (h : l <+: m.drop i) (hj : j < l.length) :
    l[j]? = m[i + j]? := by
  obtain ⟨tail, htail⟩ := h
  rw [← List.getElem?_drop, ← htail, List.getElem?_append_left hj]

theorem drop_succ_isPrefix {l m : Bytes} {i j : ℕ} (h : l.drop j <+: m.drop i) :
    l.drop (j + 1) <+: m.drop (i + 1) := by
  rw [← List.drop_drop, ← List.drop_drop]
  exact h.drop 1

/-- Every byte comes from the file, wherever the reader takes it from. -/
theorem readByte_spec (h : At src r p) :
    (r.readByte src).1 = src.content[p]? ∧ (r.readByte src).2.pending = none ∧
      At src (r.readByte src).2 (if p < src.content.length then p + 1 else p) := by
  have hcursor := h.cursor
  unfold readByte
  cases hpending : r.pending with
  | some byte =>
    simp only [hpending] at hcursor
    have hlt : p < src.content.length := (List.getElem?_eq_some_iff.mp hcursor.2).1
    refine ⟨hcursor.2.symm, rfl, h.window, h.buffer, ?_⟩
    rw [if_pos hlt]
    exact hcursor.1
  | none =>
    simp only [hpending] at hcursor
    subst hcursor
    cases hbuffer : r.buffer[r.bufferPosition]? with
    | some byte =>
      have hlen : 0 < (r.buffer.drop r.bufferPosition).length := by
        have := (List.getElem?_eq_some_iff.mp hbuffer).1
        rw [List.length_drop]
        omega
      have hbyte := getElem?_of_isPrefix h.buffer hlen
      rw [List.getElem?_drop, Nat.add_zero, Nat.add_zero, hbuffer] at hbyte
      have hlt : r.position < src.content.length := (List.getElem?_eq_some_iff.mp hbyte.symm).1
      refine ⟨hbyte, rfl, h.window, drop_succ_isPrefix h.buffer, ?_⟩
      simp only [if_pos hlt]
    | none =>
      dsimp only
      have hdone : r.buffer.drop r.bufferPosition = [] :=
        List.drop_eq_nil_of_le (List.getElem?_eq_none_iff.mp hbuffer)
      by_cases hwindow : r.sourceWindowStart ≤ r.position ∧
          r.position < r.sourceWindowStart + r.sourceWindow.length
      · rw [if_pos hwindow]
        have hbyte := getElem?_of_isPrefix h.window
          (j := r.position - r.sourceWindowStart) (by omega)
        rw [Nat.add_sub_of_le hwindow.1] at hbyte
        have hlt : r.position < src.content.length := by
          have := h.window.length_le
          rw [List.length_drop] at this
          omega
        refine ⟨hbyte, rfl, h.window, ?_, ?_⟩
        · rw [hdone]
          exact List.nil_prefix
        · simp only [if_pos hlt]
      rw [if_neg hwindow]
      by_cases hend : src.content.length ≤ r.position
      · rw [if_pos hend, if_neg (by omega)]
        refine ⟨(List.getElem?_eq_none_iff.mpr hend).symm, hpending, h.window, h.buffer, ?_⟩
        simp only [hpending]
      · rw [if_neg hend, if_pos (by omega)]
        have hlen := List.length_pos_iff.mpr (read_ne_nil src r.reads (Nat.lt_of_not_le hend))
        have hbyte := getElem?_of_isPrefix (read_isPrefix src r.reads r.position) hlen
        rw [Nat.add_zero] at hbyte
        obtain ⟨byte, hfile⟩ : ∃ byte, src.content[r.position]? = some byte :=
          ⟨_, List.getElem?_eq_getElem (Nat.lt_of_not_le hend)⟩
        rw [hfile] at hbyte ⊢
        simp only [hbyte]
        refine ⟨trivial, trivial, h.window, ?_, ?_⟩
        · exact (read_isPrefix src r.reads r.position).drop 1
            |>.trans (by rw [List.drop_drop])
        · rfl

/-- Inside the file, one byte and the reader behind it. -/
theorem readByte_of_lt (h : At src r p) (hlt : p < src.content.length) :
    ∃ r', r.readByte src = (some src.content[p], r') ∧ At src r' (p + 1) ∧ r'.pending = none := by
  obtain ⟨hbyte, hpending, hat⟩ := readByte_spec h
  rw [if_pos hlt] at hat
  refine ⟨_, Prod.ext ?_ rfl, hat, hpending⟩
  rw [hbyte]
  exact List.getElem?_eq_getElem hlt

/-- At the end of the file the reader stays there. -/
theorem readByte_of_ge (h : At src r p) (hge : src.content.length ≤ p) :
    ∃ r', r.readByte src = (none, r') ∧ At src r' p := by
  obtain ⟨hbyte, _, hat⟩ := readByte_spec h
  rw [if_neg (by omega)] at hat
  refine ⟨_, Prod.ext ?_ rfl, hat⟩
  rw [hbyte]
  exact List.getElem?_eq_none_iff.mpr hge

/-- The separator loops skip what the tokenizer skips and take one byte more. -/
theorem skipSeparators_spec (fuel : ℕ) (c : Bool) (h : At src r p) (hp : p ≤ src.content.length)
    (hfuel : src.content.length - p + 2 ≤ fuel) :
    ∃ r', skipSeparators src fuel c r = some ((skipGap c (src.content.drop p)).head?, r') ∧
      (skipGap c (src.content.drop p) ≠ [] →
        At src r' (src.content.length - (skipGap c (src.content.drop p)).length + 1)) := by
  induction fuel generalizing c r p with
  | zero => omega
  | succ n ih =>
    by_cases hlt : p < src.content.length
    · obtain ⟨r', hread, hat, _⟩ := readByte_of_lt h hlt
      have ih := fun c => ih c hat hlt (by omega)
      rw [List.drop_eq_getElem_cons hlt]
      cases c with
      | true =>
        simp only [skipSeparators, hread, skipGap]
        exact ih _
      | false =>
        simp only [skipSeparators, hread, skipGap]
        by_cases hws : isWs src.content[p] = true
        · simp only [if_pos hws]
          exact ih false
        · by_cases hpercent : src.content[p] = 0x25
          · simp only [if_neg hws, if_pos hpercent]
            exact ih true
          · simp only [if_neg hws, if_neg hpercent]
            refine ⟨r', rfl, fun _ => ?_⟩
            rw [List.length_cons, List.length_drop]
            have : src.content.length - (src.content.length - (p + 1) + 1) = p := by omega
            rwa [this]
    · have hge : src.content.length ≤ p := by omega
      have hnil : src.content.drop p = [] := List.drop_eq_nil_of_le hge
      obtain ⟨r', hread, hat⟩ := readByte_of_ge h hge
      cases c with
      | false =>
        simp only [skipSeparators, hread, hnil, skipGap]
        exact ⟨r', rfl, fun hne => absurd rfl hne⟩
      | true =>
        obtain ⟨k, rfl⟩ : ∃ k, n = k + 1 := ⟨n - 1, by omega⟩
        obtain ⟨r'', hread', _⟩ := readByte_of_ge hat hge
        simp only [skipSeparators, hread, hread', hnil, skipGap]
        exact ⟨r'', rfl, fun hne => absurd rfl hne⟩

/-- The collecting loop takes the run in front, as far as there is room. -/
theorem collectToken_spec (room : ℕ) (tokenBytes : Bytes) (h : At src r p)
    (hp : p ≤ src.content.length) :
    (collectToken src room tokenBytes r).1 =
        tokenBytes ++ (regularRun (src.content.drop p)).take room ∧
      At src (collectToken src room tokenBytes r).2
        (p + min room (regularRun (src.content.drop p)).length) := by
  induction room generalizing tokenBytes r p with
  | zero => simpa [collectToken] using h
  | succ room ih =>
    by_cases hlt : p < src.content.length
    · obtain ⟨r', hread, hat, hpending⟩ := readByte_of_lt h hlt
      rw [List.drop_eq_getElem_cons hlt]
      by_cases hd : isTokenDelimiter src.content[p] = true
      · have hrun : regularRun (src.content[p] :: src.content.drop (p + 1)) = [] :=
          regularRun_cons_of_delimiter hd _
        have hcond : (isWs src.content[p] || isDelimiter src.content[p]) = true := hd
        simp only [collectToken, hread, hcond, if_true, hrun]
        refine ⟨by simp, hat.window, hat.buffer, ?_⟩
        -- The delimiter is put back, so the reader stands in front of it again.
        have hcursor := hat.cursor
        rw [hpending] at hcursor
        exact ⟨hcursor, List.getElem?_eq_getElem hlt⟩
      · have hcond : (isWs src.content[p] || isDelimiter src.content[p]) = false := by
          simpa [isTokenDelimiter] using hd
        have hrun : regularRun (src.content[p] :: src.content.drop (p + 1)) =
            src.content[p] :: regularRun (src.content.drop (p + 1)) :=
          regularRun_cons_of_regular (by simpa [isRegular] using hd) _
        simp only [collectToken, hread, hcond, Bool.false_eq_true, if_false, hrun]
        obtain ⟨hbytes, hat'⟩ := ih (tokenBytes ++ [src.content[p]]) hat hlt
        refine ⟨by rw [hbytes]; simp, ?_⟩
        rw [List.length_cons]
        have hpos : p + min (room + 1) ((regularRun (src.content.drop (p + 1))).length + 1) =
            p + 1 + min room (regularRun (src.content.drop (p + 1))).length := by
          omega
        rwa [hpos]
    · have hge : src.content.length ≤ p := by omega
      obtain ⟨r', hread, hat⟩ := readByte_of_ge h hge
      rw [List.drop_eq_nil_of_le hge]
      simp only [collectToken, hread]
      exact ⟨by simp [regularRun], by simpa [regularRun] using hat⟩

/-- What the reader makes of a run that fills the input of its own tokenizer. -/
theorem tokenBytes_upcoming {tokenBytes : Bytes} (hregular : ∀ b ∈ tokenBytes, isRegular b = true) :
    regularRun ({ input := tokenBytes, allowEof := true } : Tokenizer).upcoming = tokenBytes := by
  have hup : ({ input := tokenBytes, allowEof := true } : Tokenizer).upcoming = tokenBytes := by
    cases tokenBytes with
    | nil => rfl
    | cons b rest =>
      obtain ⟨_, hws, hpercent, _⟩ := Tokenizer.regular_facts b (hregular b (by simp))
      simp [Tokenizer.upcoming, skipGap, hws, hpercent]
  rw [hup, regularRun, List.takeWhile_eq_self_iff]
  exact hregular

/-- The reader's next token, told from the file alone: absent at the end, an
integer when the run in front is one of fewer than 100 bytes, and the word `obj`
when the run is. -/
theorem nextToken_spec (fuel : ℕ) (h : At src r p) (hp : p ≤ src.content.length)
    (hfuel : src.content.length - p + 2 ≤ fuel) {g run : Bytes}
    (hg : skipGap false (src.content.drop p) = g) (hrun : regularRun g = run) :
    ∃ result r', nextToken src fuel r = some (.ok result, r') ∧
      (g = [] → result = none) ∧
      (g ≠ [] → ∃ token, result = some token ∧
        (token.isInteger = true ↔ isIntText run = true ∧ run.length < 100) ∧
        (token.isInteger = true → token.value = run ∧
          At src r' (src.content.length - g.length + run.length)) ∧
        (token.isWordValue (ascii "obj") = true ↔ run = ascii "obj")) := by
  obtain ⟨r₁, hskip, hat⟩ := skipSeparators_spec fuel false h hp hfuel
  rw [hg] at hskip hat
  cases hgl : g with
  | nil =>
    subst hgl
    refine ⟨none, r₁, by simp [nextToken, hskip], fun _ => rfl, fun hne => absurd rfl hne⟩
  | cons first rest =>
    rw [← hgl]
    have hne : g ≠ [] := by simp [hgl]
    have hat := hat hne
    have hglen : g.length = rest.length + 1 := by simp [hgl]
    obtain ⟨hws, hpercent⟩ := skipGap_head (hg.trans hgl)
    rw [hgl, List.head?_cons] at hskip
    by_cases hd : isDelimiter first = true
    · have hnil : run = [] := by
        rw [← hrun, hgl]
        exact regularRun_cons_of_delimiter (by simp [isTokenDelimiter, hd]) rest
      refine ⟨some badToken, r₁, by simp [nextToken, hskip, hd], fun h => absurd h hne,
        fun _ => ⟨badToken, rfl, ?_⟩⟩
      subst hnil
      refine ⟨?_, fun h => ?_, ?_⟩
      · decide
      · simp [badToken, Token.isInteger] at h
      · decide
    · have hregular : isRegular first = true := by
        simpa [isRegular, isTokenDelimiter, hws] using hd
      have hglen' : g.length ≤ src.content.length - p := by
        have := skipGap_length_le false (src.content.drop p)
        rwa [hg, List.length_drop] at this
      have hsuffix := skipGap_drop false (src.content.drop p)
      -- Behind the first byte the file goes on with the rest of `g`.
      have hrest : src.content.drop (src.content.length - g.length + 1) = rest := by
        rw [hg, List.drop_drop, List.length_drop] at hsuffix
        have hpos : src.content.length - g.length + 1 =
            p + (src.content.length - p - g.length) + 1 := by
          omega
        rw [hpos, ← List.drop_drop, ← hsuffix, hgl]
        rfl
      obtain ⟨hbytes, hat'⟩ := collectToken_spec (xrefReconstructionMaxTokenLen - 1) [first] hat
        (by omega)
      rw [hrest] at hbytes hat'
      have hrun' : run = first :: regularRun rest := by
        rw [← hrun, hgl, regularRun_cons_of_regular hregular]
      have hrunlen : run.length = (regularRun rest).length + 1 := by
        rw [hrun', List.length_cons]
      have htokenBytes : (collectToken src (xrefReconstructionMaxTokenLen - 1) [first] r₁).1 =
          run.take 100 := by
        rw [hbytes, hrun']
        rfl
      have hall : ∀ b ∈ run.take 100, isRegular b = true := by
        intro b hb
        rw [← hrun] at hb
        exact regular_of_mem_regularRun (List.mem_of_mem_take hb)
      have hshort : run.length < 100 → run.take 100 = run :=
        fun hlen => List.take_of_length_le (by omega)
      have hupcoming := tokenBytes_upcoming hall
      have hread := Tokenizer.readQpdfToken_eq (o := { input := run.take 100 })
        (m := xrefReconstructionMaxTokenLen) (by simp)
      have hinteger := Tokenizer.lexToken_isInteger
        (o := { input := run.take 100, allowEof := true }) (m := xrefReconstructionMaxTokenLen)
        rfl (.inr (by decide))
      have hobj := Tokenizer.lexToken_isWordValue_obj
        (o := { input := run.take 100, allowEof := true }) (m := xrefReconstructionMaxTokenLen)
        rfl (.inr (by decide))
      rw [hupcoming] at hinteger hobj
      have hnext : nextToken src fuel r =
          some (.ok (some (({ input := run.take 100, allowEof := true } : Tokenizer).lexToken
              xrefReconstructionMaxTokenLen)),
            (collectToken src (xrefReconstructionMaxTokenLen - 1) [first] r₁).2) := by
        simp only [nextToken, hskip, hd, htokenBytes, hread, Bool.false_eq_true, if_false]
      refine ⟨_, _, hnext, fun h => absurd h hne, fun _ => ⟨_, rfl, ?_, ?_, ?_⟩⟩
      · rw [hinteger]
        by_cases hlen : run.length < 100
        · rw [hshort hlen]
          simp [xrefReconstructionMaxTokenLen, hlen]
        · have hfull : (run.take 100).length = 100 := by
            rw [List.length_take]
            omega
          simp [xrefReconstructionMaxTokenLen, hlen, hfull]
      · intro h
        obtain ⟨_, hlen⟩ := hinteger.mp h
        have hlen : run.length < 100 := by
          simp only [xrefReconstructionMaxTokenLen, List.length_take] at hlen
          omega
        rw [hshort hlen] at hupcoming ⊢
        constructor
        · rw [Tokenizer.lexToken_run rfl (by rw [hupcoming, hrun']; simp)
            (by rw [hupcoming]; exact .inr hlen), hupcoming]
          rfl
        · have hpos : src.content.length - g.length + 1 +
              min (xrefReconstructionMaxTokenLen - 1) (regularRun rest).length =
                src.content.length - g.length + run.length := by
            simp only [xrefReconstructionMaxTokenLen]
            omega
          rwa [hpos] at hat'
      · rw [hobj]
        constructor
        · intro h
          have hlen := congrArg List.length h
          have hthree : (ascii "obj").length = 3 := rfl
          rw [List.length_take, hthree] at hlen
          rwa [hshort (by omega)] at h
        · intro h
          rw [h]
          rfl

end RecoveryReader

end Flpdf
