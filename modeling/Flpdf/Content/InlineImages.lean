import Flpdf.Content.Normalizer
import Flpdf.Tokenizer.Reading

/-!
# The end of an inline image

`find_ei` visits occurrences of `EI` and stops at the first one behind which ten tokens look
like content. The bytes up to the last occurrence it has visited are then read as one token,
unless there are none: an image without data is taken for one without an end.
-/

namespace Flpdf.Tokenizer

variable {input : Bytes} {p start : ℕ} {t : Tokenizer}

/-! ## Occurrences -/

/-- An `EI`, not at the front of the input, that ends the input or stands before a delimiter. -/
def EndsImage (input : Bytes) (start : ℕ) : Prop :=
  start ≠ 0 ∧ ∃ rest, input.drop start = 0x45 :: 0x49 :: rest ∧
    ∀ b ∈ rest.head?, isTokenDelimiter b = true

theorem EndsImage.le_length (h : EndsImage input start) : start + 2 ≤ input.length := by
  obtain ⟨_, rest, hdrop, _⟩ := h
  have hlength := congrArg List.length hdrop
  rw [List.length_drop, List.length_cons, List.length_cons] at hlength
  omega

theorem wordTokenAt_cases (input : Bytes) (start : ℕ) :
    (EndsImage input start ∧ wordTokenAt input start (ascii "EI") = some (start + 2)) ∨
      (¬EndsImage input start ∧ wordTokenAt input start (ascii "EI") = none) := by
  have hnext : input[start + 2]? = ((input.drop start).drop 2).head? := by
    rw [List.drop_drop, List.head?_drop]
  have hslice : slice input start (start + 2) = (input.drop start).take 2 := by
    rw [slice, Nat.add_sub_cancel_left]
  rw [wordTokenAt, EndsImage]
  change (_ ∧ (if start = 0 ∨ slice input start (start + 2) ≠ ascii "EI" ∨
      (input[start + 2]?.any fun byte => !isTokenDelimiter byte) = true then none
    else some (start + 2)) = _) ∨ (_ ∧ (if start = 0 ∨ slice input start (start + 2) ≠ ascii "EI" ∨
      (input[start + 2]?.any fun byte => !isTokenDelimiter byte) = true then none
    else some (start + 2)) = _)
  rw [hslice, hnext]
  by_cases hends : start ≠ 0 ∧ ∃ rest, input.drop start = 0x45 :: 0x49 :: rest ∧
      ∀ b ∈ rest.head?, isTokenDelimiter b = true
  · left
    refine ⟨hends, if_neg ?_⟩
    obtain ⟨hstart, rest, hdrop, hrest⟩ := hends
    rw [hdrop, not_or, not_or, Bool.not_eq_true]
    refine ⟨hstart, not_not.mpr rfl, ?_⟩
    rw [Option.any_eq_false]
    intro b hb
    rw [hrest b hb]
    rfl
  · right
    refine ⟨hends, if_pos ?_⟩
    by_contra hnot
    rw [not_or, not_or, Bool.not_eq_true, not_not, Option.any_eq_false] at hnot
    obtain ⟨hstart, htake, hall⟩ := hnot
    refine hends ⟨hstart, (input.drop start).drop 2, ?_, ?_⟩
    · rw [← List.take_append_drop 2 (input.drop start), htake, List.drop_append]
      simp [ascii]
    · intro b hb
      have := hall b hb
      simpa using this

/-- The bytes `EI` stand at the front. -/
def StartsWithEi (bytes : Bytes) : Prop := ∃ rest, bytes = 0x45 :: 0x49 :: rest

theorem positionOfEi_spec (bytes : Bytes) :
    (∀ i, positionOfEi bytes = some i →
      StartsWithEi (bytes.drop i) ∧ ∀ j < i, ¬StartsWithEi (bytes.drop j)) ∧
    (positionOfEi bytes = none → ∀ j, ¬StartsWithEi (bytes.drop j)) := by
  induction bytes with
  | nil =>
    constructor
    · intro i h
      cases h
    · rintro _ j ⟨rest, hrest⟩
      rw [List.drop_nil] at hrest
      cases hrest
  | cons byte bytes ih =>
    rw [positionOfEi]
    have hfront : StartsWithEi (byte :: bytes) ↔ byte = 0x45 ∧ bytes.head? = some 0x49 := by
      rw [StartsWithEi, List.head?_eq_some_iff]
      constructor
      · rintro ⟨rest, hrest⟩
        cases hrest
        exact ⟨rfl, rest, rfl⟩
      · rintro ⟨rfl, rest, hrest⟩
        exact ⟨rest, by rw [hrest]⟩
    split
    next h =>
      constructor
      · intro i hi
        cases hi
        exact ⟨hfront.mpr h, fun j hj => absurd hj (Nat.not_lt_zero j)⟩
      · intro hnone
        cases hnone
    next h =>
      have hnot : ¬StartsWithEi (byte :: bytes) := fun hstarts => h (hfront.mp hstarts)
      constructor
      · intro i hi
        obtain ⟨k, hk, rfl⟩ := Option.map_eq_some_iff.mp hi
        obtain ⟨hstarts, hbefore⟩ := ih.1 k hk
        refine ⟨hstarts, fun j hj => ?_⟩
        cases j with
        | zero => exact hnot
        | succ j => exact hbefore j (by omega)
      · intro hnone j
        cases j with
        | zero => exact hnot
        | succ j => exact ih.2 (Option.map_eq_none_iff.mp hnone) j

theorem EndsImage.startsWithEi (h : EndsImage input start) : StartsWithEi (input.drop start) := by
  obtain ⟨_, rest, hdrop, _⟩ := h
  exact ⟨rest, hdrop⟩

/-- From the search position on nothing is passed over but what is no occurrence. -/
theorem not_endsImage_of_position {r : ℕ} (h : positionOfEi (input.drop p) = some r) (hp : p ≤ start)
    (hstart : start < p + r) : ¬EndsImage input start := by
  intro hends
  obtain ⟨k, rfl⟩ := Nat.exists_eq_add_of_le hp
  have hnot := ((positionOfEi_spec (input.drop p)).1 r h).2 k (by omega)
  rw [List.drop_drop] at hnot
  exact hnot hends.startsWithEi

theorem not_endsImage_of_none (h : positionOfEi (input.drop p) = none) (hp : p ≤ start) :
    ¬EndsImage input start := by
  intro hends
  obtain ⟨k, rfl⟩ := Nat.exists_eq_add_of_le hp
  have hnot := (positionOfEi_spec (input.drop p)).2 h k
  rw [List.drop_drop] at hnot
  exact hnot hends.startsWithEi

/-! ## The search -/

/-- The ten tokens behind an `EI` look like content. -/
def plausibleEnd (input : Bytes) (start : ℕ) : Bool :=
  (inlineLookaheadIsPlausible input (start + 2)).1

/-- Where the lookahead behind an `EI` has stopped. -/
def lookaheadEnd (input : Bytes) (start : ℕ) : ℕ := (inlineLookaheadIsPlausible input (start + 2)).2

/-- The occurrences that a search visits from a position on. -/
inductive EiVisits (input : Bytes) : ℕ → List ℕ → Prop where
  | nothing {p : ℕ} (hnone : ∀ start, p ≤ start → ¬EndsImage input start) : EiVisits input p []
  | accepted {p start : ℕ} (hp : p ≤ start) (hends : EndsImage input start)
      (hfirst : ∀ s, p ≤ s → s < start → ¬EndsImage input s)
      (haccepted : plausibleEnd input start = true) : EiVisits input p [start]
  | rejected {p start : ℕ} {visits : List ℕ} (hp : p ≤ start) (hends : EndsImage input start)
      (hfirst : ∀ s, p ≤ s → s < start → ¬EndsImage input s)
      (hrejected : plausibleEnd input start = false)
      (hrest : EiVisits input (lookaheadEnd input start) visits) :
      EiVisits input p (start :: visits)

/-- The search may begin behind what is no occurrence. -/
theorem EiVisits.of_gap {q : ℕ} {visits : List ℕ} (h : EiVisits input q visits) (hpq : p ≤ q)
    (hgap : ∀ s, p ≤ s → s < q → ¬EndsImage input s) : EiVisits input p visits := by
  have hfirst : ∀ {start}, (∀ s, q ≤ s → s < start → ¬EndsImage input s) →
      ∀ s, p ≤ s → s < start → ¬EndsImage input s := by
    intro start h s hps hs
    by_cases hq : s < q
    · exact hgap s hps hq
    · exact h s (not_lt.mp hq) hs
  cases h with
  | nothing hnone =>
    refine .nothing fun start hp => ?_
    by_cases hq : start < q
    · exact hgap start hp hq
    · exact hnone start (not_lt.mp hq)
  | accepted hp hends hbefore haccepted =>
    exact .accepted (hpq.trans hp) hends (hfirst hbefore) haccepted
  | rejected hp hends hbefore hrejected hrest =>
    exact .rejected (hpq.trans hp) hends (hfirst hbefore) hrejected hrest

theorem le_inlineLookahead (afterEi n : ℕ) (t : Tokenizer) :
    afterEi ≤ (inlineLookahead afterEi n t).2 := by
  induction n generalizing t with
  | zero => exact Nat.le_add_right _ _
  | succ n ih =>
    rw [inlineLookahead]
    split
    next => exact Nat.le_add_right _ _
    next =>
      split_ifs
      · exact Nat.le_add_right _ _
      · exact Nat.le_add_right _ _
      · exact Nat.le_add_right _ _
      · exact ih _

/-- A rejected lookahead has passed the occurrence. -/
theorem lt_lookaheadEnd (input : Bytes) (start : ℕ) : start + 1 < lookaheadEnd input start :=
  le_inlineLookahead (start + 2) 10 _

theorem EiVisits.of_mem {visits : List ℕ} (h : EiVisits input p visits) :
    ∀ start ∈ visits, p ≤ start ∧ EndsImage input start := by
  induction h with
  | nothing => exact fun start hstart => absurd hstart List.not_mem_nil
  | accepted hp hends =>
    intro start hstart
    rw [List.mem_singleton.mp hstart]
    exact ⟨hp, hends⟩
  | @rejected p first visits hp hends _ _ _ ih =>
    intro start hstart
    rcases List.mem_cons.mp hstart with rfl | hstart
    · exact ⟨hp, hends⟩
    · obtain ⟨hle, hends'⟩ := ih start hstart
      have := lt_lookaheadEnd input first
      exact ⟨by omega, hends'⟩

/-- The loop ends with the last occurrence it has visited. -/
theorem findEiLoop_spec (input : Bytes) (initialPos fuel p : ℕ) (candidate : Option ℕ)
    (hfuel : input.length < fuel + p) : ∃ visits, EiVisits input p visits ∧
      findEiLoop input initialPos fuel p candidate =
        (visits.getLast?.map (· - initialPos)).or candidate := by
  induction fuel generalizing p candidate with
  | zero =>
    refine ⟨[], .nothing fun start hp hends => ?_, rfl⟩
    have := hends.le_length
    omega
  | succ fuel ih =>
    rw [findEiLoop]
    cases hposition : positionOfEi (input.drop p) with
    | none => exact ⟨[], .nothing fun start => not_endsImage_of_none hposition, rfl⟩
    | some r =>
      have hbefore : ∀ s, p ≤ s → s < p + r → ¬EndsImage input s :=
        fun s => not_endsImage_of_position hposition
      rcases wordTokenAt_cases input (p + r) with ⟨hends, hword⟩ | ⟨hnot, hword⟩
      · simp only [hword]
        split
        next haccepted =>
          exact ⟨[p + r], .accepted (Nat.le_add_right p r) hends hbefore haccepted, rfl⟩
        next hrejected =>
          have hlt := lt_lookaheadEnd input (p + r)
          obtain ⟨visits, hvisits, hloop⟩ := ih (lookaheadEnd input (p + r))
            (some (p + r - initialPos)) (by omega)
          refine ⟨(p + r) :: visits, .rejected (Nat.le_add_right p r) hends hbefore
            (Bool.eq_false_iff.mpr hrejected) hvisits, hloop.trans ?_⟩
          cases visits with
          | nil => rfl
          | cons next visits => rw [List.getLast?_cons_cons, List.getLast?_cons]; rfl
      · simp only [hword]
        obtain ⟨visits, hvisits, hloop⟩ := ih (p + r + 1) candidate (by omega)
        refine ⟨visits, hvisits.of_gap (by omega) ?_, hloop⟩
        intro s hp hs
        rcases Nat.lt_succ_iff_lt_or_eq.mp hs with hs | rfl
        · exact hbefore s hp hs
        · exact hnot

/-- The search position of the next round, if there is one. -/
def nextSearch (input : Bytes) (searchPos : ℕ) : Option ℕ :=
  match positionOfEi (input.drop searchPos) with
  | none => none
  | some relativeStart =>
    match wordTokenAt input (searchPos + relativeStart) (ascii "EI") with
    | none => some (searchPos + relativeStart + 1)
    | some afterEi =>
      if (inlineLookaheadIsPlausible input afterEi).1 then none
      else some (inlineLookaheadIsPlausible input afterEi).2

/-- The candidate behind a round. -/
def nextCandidate (input : Bytes) (initialPos searchPos : ℕ) (candidate : Option ℕ) : Option ℕ :=
  match positionOfEi (input.drop searchPos) with
  | none => candidate
  | some relativeStart =>
    if (wordTokenAt input (searchPos + relativeStart) (ascii "EI")).isSome then
      some (searchPos + relativeStart - initialPos)
    else candidate

theorem findEiLoop_succ (input : Bytes) (initialPos fuel p : ℕ) (candidate : Option ℕ) :
    findEiLoop input initialPos (fuel + 1) p candidate =
      match nextSearch input p with
      | none => nextCandidate input initialPos p candidate
      | some next => findEiLoop input initialPos fuel next
          (nextCandidate input initialPos p candidate) := by
  rw [findEiLoop, nextSearch, nextCandidate]
  cases positionOfEi (input.drop p) with
  | none => rfl
  | some r =>
    simp only
    cases wordTokenAt input (p + r) (ascii "EI") with
    | none => rfl
    | some afterEi =>
      simp only [Option.isSome_some, if_true]
      split <;> rfl

/-- The search position grows in every round. -/
theorem lt_nextSearch {next : ℕ} (h : nextSearch input p = some next) : p < next := by
  rw [nextSearch] at h
  split at h
  next => cases h
  next r _ =>
    rcases wordTokenAt_cases input (p + r) with ⟨_, hword⟩ | ⟨_, hword⟩
    · simp only [hword] at h
      split at h
      next => cases h
      next =>
        cases h
        have := lt_lookaheadEnd input (p + r)
        rw [lookaheadEnd] at this
        omega
    · simp only [hword] at h
      cases h
      omega

/-- More rounds than the input has bytes change nothing. -/
theorem findEiLoop_fuel (input : Bytes) (initialPos : ℕ) {fuel fuel' p : ℕ}
    (candidate : Option ℕ) (h : input.length < fuel + p) (h' : input.length < fuel' + p) :
    findEiLoop input initialPos fuel p candidate = findEiLoop input initialPos fuel' p candidate := by
  have hend : ∀ fuel p candidate, input.length ≤ p →
      findEiLoop input initialPos fuel p candidate = candidate := by
    intro fuel p candidate hp
    cases fuel with
    | zero => rfl
    | succ fuel =>
      rw [findEiLoop, List.drop_of_length_le hp]
      rfl
  induction fuel generalizing fuel' p candidate with
  | zero =>
    rw [hend 0 p candidate (by omega), hend fuel' p candidate (by omega)]
  | succ fuel ih =>
    cases fuel' with
    | zero =>
      rw [hend _ p candidate (by omega), hend _ p candidate (by omega)]
    | succ fuel' =>
      rw [findEiLoop_succ, findEiLoop_succ]
      cases hnext : nextSearch input p with
      | none => rfl
      | some next =>
        have hlt := lt_nextSearch hnext
        exact ih _ (by omega) (by omega)

/-! ## The token -/

/-- Inside an image whose last byte is the last one of `bytes`. -/
theorem readLoop_image {bytes : Bytes} (rest : Bytes) (hstate : t.state = .inlineImage)
    (hin : t.inToken = true) (hbefore : t.beforeToken = false) (hne : bytes ≠ [])
    (hlength : t.raw.length + bytes.length = t.inlineImageBytes) :
    readLoop 0 (bytes ++ rest) t = { t with
      pos := t.pos + bytes.length, raw := t.raw ++ bytes, state := .tokenReady
      tokenType := .inlineImage, inlineImageBytes := 0 } := by
  have hready : t.state ≠ .tokenReady := by
    rw [hstate]
    exact LexState.noConfusion
  induction bytes generalizing t with
  | nil => exact absurd rfl hne
  | cons b bytes ih =>
    rw [List.cons_append, readLoop_cons hready]
    cases bytes with
    | nil =>
      have hlast : t.raw.length + 1 = t.inlineImageBytes := hlength
      have hread : t.readByte 0 b = { t with
          pos := t.pos + 1, raw := t.raw ++ [b], state := .tokenReady
          tokenType := .inlineImage, inlineImageBytes := 0 } := by
        simp [readByte, afterCharacter, handleCharacter, inInlineImage, hstate, hin, hbefore,
          hlast, endWith]
      rw [hread, readLoop_of_ready rfl]
      rfl
    | cons next bytes =>
      have hmore : t.raw.length + 1 ≠ t.inlineImageBytes := by
        rw [← hlength, List.length_cons, List.length_cons]
        omega
      have hread : t.readByte 0 b = { t with pos := t.pos + 1, raw := t.raw ++ [b] } := by
        simp [readByte, afterCharacter, handleCharacter, inInlineImage, hstate, hin, hbefore, hmore]
      have hlater : (t.raw ++ [b]).length + (next :: bytes).length = t.inlineImageBytes := by
        rw [← hlength]
        simp only [List.length_append, List.length_cons, List.length_nil]
        omega
      have hrun := ih (t := { t with pos := t.pos + 1, raw := t.raw ++ [b] }) hstate hin hbefore
        (List.cons_ne_nil _ _) hlater hready
      have hpos : t.pos + 1 + (next :: bytes).length = t.pos + (b :: next :: bytes).length := by
        simp only [List.length_cons]
        omega
      simp only [hpos, List.append_assoc, List.singleton_append] at hrun
      rw [hread]
      exact hrun

/-- Without a length the token goes on to the end of the input. -/
theorem readLoop_endless (bytes : Bytes) (hstate : t.state = .inlineImage)
    (hin : t.inToken = true) (hbefore : t.beforeToken = false) (hnone : t.inlineImageBytes = 0) :
    readLoop 0 bytes t = { t with
      pos := t.pos + bytes.length, raw := t.raw ++ bytes, state := .tokenReady, tokenType := .bad
      errorMessage := some (ascii "EOF while reading token") } := by
  have hready : t.state ≠ .tokenReady := by
    rw [hstate]
    exact LexState.noConfusion
  induction bytes generalizing t with
  | nil =>
    rw [readLoop, if_neg hready, readEof, presentEof, hstate, List.append_nil]
    rfl
  | cons b bytes ih =>
    have hread : t.readByte 0 b = { t with pos := t.pos + 1, raw := t.raw ++ [b] } := by
      simp [readByte, afterCharacter, handleCharacter, inInlineImage, hstate, hin, hbefore, hnone]
    have hrun := ih (t := { t with pos := t.pos + 1, raw := t.raw ++ [b] }) hstate hin hbefore
      hnone hready
    have hpos : t.pos + 1 + bytes.length = t.pos + (b :: bytes).length := by
      rw [List.length_cons]
      omega
    simp only [hpos, List.append_assoc, List.singleton_append] at hrun
    rw [readLoop_cons hready, hread]
    exact hrun

/-! ## Images -/

/-- The tokenizer is between two tokens. -/
def BetweenTokens (t : Tokenizer) : Prop :=
  (t.state = .tokenReady ∨ t.state = .beforeToken ∧ t.raw = []) ∧ t.pos ≤ t.input.length

/-- The search for the end of an image: it ends, and has found the first occurrence among those
it visits with a plausible lookahead, or else the last one. -/
structure SearchesImage (t : Tokenizer) : Prop where
  progress : ∀ p next, nextSearch t.input p = some next → p < next
  terminates : ∀ fuel, t.input.length < fuel →
    findEiLoop t.input t.pos fuel t.pos none = t.findEi
  visits : ∃ visits, EiVisits t.input t.pos visits ∧ t.findEi =
    ((visits.find? (plausibleEnd t.input)).or visits.getLast?).map (· - t.pos)
  occurrence : ∀ d, t.findEi = some d → EndsImage t.input (t.pos + d)

/-- The token behind `expect_inline_image` is the image, or the rest of the input if it has no
end. -/
def ReadsImage (t : Tokenizer) : Prop :=
  ∃ image token behind, t.expectInlineImage = some image ∧ image.pos = t.pos ∧
    image.input = t.input ∧ image.readTokenWithOptions true 0 = (.ok token, behind) ∧
    t.input.take t.pos ++ token.raw ++ t.input.drop behind.pos = t.input ∧
    match t.findEi with
    | some d => token.tokenType = .inlineImage ∧ token.raw.length = d
    | none => (token.tokenType = .bad ∨ token.tokenType = .eof) ∧ behind.pos = t.input.length

/-- An image without data, which the search ends with: its `EI` has a plausible lookahead, or no
occurrence stands where that lookahead has stopped or later. -/
def EmptyImage (input : Bytes) (p : ℕ) : Prop :=
  EndsImage input p ∧ (plausibleEnd input p = true ∨
    ∀ start, lookaheadEnd input p ≤ start → ¬EndsImage input start)

theorem EiVisits.find?_or_getLast? {visits : List ℕ} (h : EiVisits input p visits) :
    (visits.find? (plausibleEnd input)).or visits.getLast? = visits.getLast? := by
  induction h with
  | nothing => rfl
  | accepted _ _ _ haccepted =>
    rw [List.find?_cons_of_pos haccepted]
    rfl
  | @rejected p start visits _ _ _ hrejected _ ih =>
    rw [List.find?_cons_of_neg (by rw [hrejected]; exact Bool.false_ne_true)]
    cases visits with
    | nil => rfl
    | cons next visits =>
      rw [List.getLast?_cons_cons]
      exact ih

theorem findEi_eq (t : Tokenizer) :
    ∃ visits, EiVisits t.input t.pos visits ∧ t.findEi = visits.getLast?.map (· - t.pos) := by
  obtain ⟨visits, hvisits, hloop⟩ :=
    findEiLoop_spec t.input t.pos (t.input.length + 1) t.pos none (by omega)
  rw [Option.or_none] at hloop
  exact ⟨visits, hvisits, hloop⟩

theorem searchesImage (t : Tokenizer) : SearchesImage t := by
  obtain ⟨visits, hvisits, hfind⟩ := findEi_eq t
  refine ⟨fun p next => lt_nextSearch, ?_, ⟨visits, hvisits, ?_⟩, ?_⟩
  · intro fuel hfuel
    exact findEiLoop_fuel t.input t.pos none (by omega) (by omega)
  · rw [hvisits.find?_or_getLast?, hfind]
  · intro d hd
    rw [hfind] at hd
    obtain ⟨start, hlast, rfl⟩ := Option.map_eq_some_iff.mp hd
    obtain ⟨hle, hends⟩ := hvisits.of_mem start (List.mem_of_getLast? hlast)
    rwa [Nat.add_sub_cancel' hle]

/-- The distance is zero for an image without data. -/
theorem findEi_eq_zero_iff (t : Tokenizer) : t.findEi = some 0 ↔ EmptyImage t.input t.pos := by
  obtain ⟨visits, hvisits, hfind⟩ := findEi_eq t
  rw [hfind]
  constructor
  · intro h
    obtain ⟨start, hlast, hzero⟩ := Option.map_eq_some_iff.mp h
    obtain ⟨hle, hends⟩ := hvisits.of_mem start (List.mem_of_getLast? hlast)
    obtain rfl : start = t.pos := by omega
    refine ⟨hends, ?_⟩
    cases hvisits with
    | nothing => cases hlast
    | accepted _ _ _ haccepted =>
      cases hlast
      exact .inl haccepted
    | @rejected _ first visits hp hends' hfirst _ hrest =>
      have hpos : first = t.pos := by
        by_contra hne
        exact hfirst t.pos le_rfl (by omega) hends
      subst hpos
      right
      cases visits with
      | nil =>
        cases hrest with
        | nothing hnone => exact hnone
      | cons next visits =>
        rw [List.getLast?_cons_cons] at hlast
        have hlater := (hrest.of_mem t.pos (List.mem_of_getLast? hlast)).1
        have := lt_lookaheadEnd t.input t.pos
        omega
  · rintro ⟨hends, hstops⟩
    cases hvisits with
    | nothing hnone => exact absurd hends (hnone t.pos le_rfl)
    | @accepted _ start hp _ hfirst _ =>
      obtain rfl : start = t.pos := by
        by_contra hne
        exact hfirst t.pos le_rfl (by omega) hends
      simp
    | @rejected _ start visits hp _ hfirst hrejected hrest =>
      obtain rfl : start = t.pos := by
        by_contra hne
        exact hfirst t.pos le_rfl (by omega) hends
      have hnone := hstops.resolve_left (by rw [hrejected]; exact Bool.false_ne_true)
      cases visits with
      | nil => simp
      | cons next visits =>
        obtain ⟨hle, hends'⟩ := hrest.of_mem next List.mem_cons_self
        exact absurd hends' (hnone next hle)

/-- A tokenizer that is about to read an image of so many bytes. -/
structure AboutToRead (t image : Tokenizer) (length : ℕ) : Prop where
  state : image.state = .inlineImage
  inside : image.inToken = true
  before : image.beforeToken = false
  raw : image.raw = []
  pos : image.pos = t.pos
  input : image.input = t.input
  length : image.inlineImageBytes = length

theorem expectInlineImage_spec (h : BetweenTokens t) :
    ∃ image, t.expectInlineImage = some image ∧ AboutToRead t image (t.findEi.getD 0) := by
  rw [expectInlineImage]
  rcases h.1 with hready | ⟨hbefore, hraw⟩
  · rw [if_pos hready]
    exact ⟨_, if_neg (not_not.mpr rfl), ⟨rfl, rfl, rfl, rfl, rfl, rfl, rfl⟩⟩
  · have hready : t.state ≠ .tokenReady := by
      rw [hbefore]
      exact LexState.noConfusion
    rw [if_neg hready]
    exact ⟨_, if_neg (not_not.mpr hbefore), ⟨rfl, rfl, rfl, hraw, rfl, rfl, rfl⟩⟩

theorem AboutToRead.beginRead {image : Tokenizer} {length : ℕ}
    (h : AboutToRead t image length) : image.beginRead = { image with tokenStart := image.pos } := by
  rw [Tokenizer.beginRead, if_pos h.state]

theorem readTokenWithOptions_of_inside {o begun u : Tokenizer} (hbegin : o.beginRead = begun)
    (hloop : readLoop 0 (o.input.drop o.pos) begun = u) (hin : u.inToken = true) :
    o.readTokenWithOptions true 0 = (.ok u.takeReadyToken, u.reset) := by
  rw [readTokenWithOptions, hbegin, hloop, unread, hin]
  simp

/-- An image with data is read as one token. -/
theorem AboutToRead.read_image {image : Tokenizer} {d : ℕ} (h : AboutToRead t image d) (hd : d ≠ 0)
    (hle : t.pos + d ≤ t.input.length) :
    ∃ token behind, image.readTokenWithOptions true 0 = (.ok token, behind) ∧
      token.tokenType = .inlineImage ∧ token.raw = (t.input.drop t.pos).take d ∧
      behind.pos = t.pos + d := by
  have hlength : ((t.input.drop t.pos).take d).length = d := by
    rw [List.length_take, List.length_drop]
    omega
  have hne : (t.input.drop t.pos).take d ≠ [] := by
    intro hnil
    rw [hnil] at hlength
    exact hd hlength.symm
  have hfull : image.raw.length + ((t.input.drop t.pos).take d).length =
      image.inlineImageBytes := by
    rw [h.raw, h.length, hlength]
    exact Nat.zero_add d
  have hloop := readLoop_image (t := { image with tokenStart := image.pos })
    ((t.input.drop t.pos).drop d) h.state h.inside h.before hne hfull
  have hrest : image.input.drop image.pos = t.input.drop t.pos := by rw [h.input, h.pos]
  rw [List.take_append_drop, ← hrest] at hloop
  refine ⟨_, _, readTokenWithOptions_of_inside h.beginRead hloop h.inside, rfl, ?_, ?_⟩
  · show image.raw ++ _ = _
    rw [h.raw, List.nil_append, hrest]
  · show image.pos + _ = _
    rw [hrest, hlength, h.pos]

/-- Without a length the rest of the input is read as a bad token. -/
theorem AboutToRead.read_endless {image : Tokenizer} (h : AboutToRead t image 0)
    (hle : t.pos ≤ t.input.length) :
    ∃ token behind, image.readTokenWithOptions true 0 = (.ok token, behind) ∧
      token.tokenType = .bad ∧ token.raw = t.input.drop t.pos ∧
      behind.pos = t.input.length := by
  have hloop := readLoop_endless (t := { image with tokenStart := image.pos })
    (image.input.drop image.pos) h.state h.inside h.before h.length
  refine ⟨_, _, readTokenWithOptions_of_inside h.beginRead hloop h.inside, rfl, ?_, ?_⟩
  · show image.raw ++ _ = _
    rw [h.raw, List.nil_append, h.pos, h.input]
  · show image.pos + _ = _
    rw [h.pos, h.input, List.length_drop]
    omega

/-- The bytes before, inside and behind a token that ends at `stop`. -/
theorem take_append_drop_token {raw : Bytes} {stop : ℕ} (hp : p ≤ stop)
    (hraw : raw = (input.drop p).take (stop - p)) :
    input.take p ++ raw ++ input.drop stop = input := by
  obtain ⟨d, rfl⟩ := Nat.exists_eq_add_of_le hp
  rw [hraw, Nat.add_sub_cancel_left, ← List.drop_drop, List.append_assoc,
    List.take_append_drop, List.take_append_drop]

/-- The length of an image without data is the length of one without an end. -/
theorem not_readsImage_of_zero (h : BetweenTokens t) (hzero : t.findEi = some 0) :
    ¬ReadsImage t := by
  obtain ⟨image, hexpect, habout⟩ := expectInlineImage_spec h
  rintro ⟨image', token, behind, hexpect', _, _, hread, _, hmatch⟩
  rw [hexpect, Option.some.injEq] at hexpect'
  subst hexpect'
  rw [hzero] at habout hmatch
  obtain ⟨token', behind', hread', htype', _, _⟩ := habout.read_endless h.2
  rw [hread', Prod.mk.injEq, Except.ok.injEq] at hread
  rw [← hread.1, htype'] at hmatch
  exact absurd hmatch.1 (by decide)

/-- The search for the end of an inline image and the token that follows are as they should be
unless the search ends with an image without data. -/
theorem expectInlineImage_iff (t : Tokenizer) (h : BetweenTokens t) :
    (SearchesImage t ∧ ReadsImage t) ↔ ¬EmptyImage t.input t.pos := by
  rw [← findEi_eq_zero_iff]
  constructor
  · rintro ⟨_, hreads⟩ hzero
    exact not_readsImage_of_zero h hzero hreads
  · intro hnonzero
    obtain ⟨image, hexpect, habout⟩ := expectInlineImage_spec h
    refine ⟨searchesImage t, ?_⟩
    rw [ReadsImage]
    refine ⟨image, ?_⟩
    cases hfind : t.findEi with
    | none =>
      rw [hfind] at habout
      obtain ⟨token, behind, hread, htype, hraw, hbehind⟩ := habout.read_endless h.2
      refine ⟨token, behind, hexpect, habout.pos, habout.input, hread, ?_, .inl htype, hbehind⟩
      apply take_append_drop_token (by rw [hbehind]; exact h.2)
      rw [hbehind, hraw, List.take_of_length_le (by rw [List.length_drop])]
    | some d =>
      have hd : d ≠ 0 := by
        rintro rfl
        exact hnonzero hfind
      have hle := ((searchesImage t).occurrence d hfind).le_length
      rw [hfind, Option.getD_some] at habout
      obtain ⟨token, behind, hread, htype, hraw, hbehind⟩ := habout.read_image hd (by omega)
      refine ⟨token, behind, hexpect, habout.pos, habout.input, hread, ?_, htype, ?_⟩
      · apply take_append_drop_token (by rw [hbehind]; exact Nat.le_add_right _ _)
        rw [hbehind, Nat.add_sub_cancel_left, hraw]
      · rw [hraw, List.length_take, List.length_drop]
        omega

/-- An image of two bytes. -/
theorem expectInlineImage_twoBytes :
    SearchesImage { input := ascii "ID x EI Q", pos := 3 } ∧
      ReadsImage { input := ascii "ID x EI Q", pos := 3 } := by
  apply (expectInlineImage_iff { input := ascii "ID x EI Q", pos := 3 }
    ⟨.inr ⟨rfl, rfl⟩, by decide⟩).mpr
  rintro ⟨⟨_, rest, hdrop, _⟩, _⟩
  have hhead := congrArg List.head? hdrop
  rw [List.head?_cons] at hhead
  exact absurd hhead (by decide)

/-- An image without data: the search finds its `EI`, and the token is bad. -/
theorem expectInlineImage_empty :
    ¬(SearchesImage { input := ascii "ID EI Q", pos := 3 } ∧
      ReadsImage { input := ascii "ID EI Q", pos := 3 }) := by
  have hzero : ({ input := ascii "ID EI Q", pos := 3 } : Tokenizer).findEi = some 0 := by
    decide
  rintro ⟨_, hreads⟩
  exact not_readsImage_of_zero ⟨.inr ⟨rfl, rfl⟩, by decide⟩ hzero hreads

end Flpdf.Tokenizer
