import Flpdf.Effects.Program
import Flpdf.Job.RangeGrammar

/-! # Page ranges mean what the grammar says

The scanner takes a text exactly when it is the spelling of an expression whose
endpoints are pages of the document, and gives the pages of that expression.
-/

namespace Flpdf

variable {text rest digits captured : Bytes} {max v : ℤ}

/-! ## Endpoints -/

/-- The text does not go on with a digit. -/
def StopsDigits (text : Bytes) : Prop := ∀ b ∈ text.head?, isAsciiDigit b = false

theorem takeWhile_of_stops (h : StopsDigits text) :
    text.takeWhile isAsciiDigit = [] ∧ text.dropWhile isAsciiDigit = text := by
  cases text with
  | nil => exact ⟨rfl, rfl⟩
  | cons b text =>
    have hb := h b rfl
    exact ⟨List.takeWhile_cons_of_neg (by simp [hb]), List.dropWhile_cons_of_neg (by simp [hb])⟩

theorem captureDigits_append (number : RangeDigits) (h : StopsDigits rest) :
    captureDigits (number.text ++ rest) = some (number.text, rest) := by
  obtain ⟨htake, hdrop⟩ := takeWhile_of_stops h
  rw [captureDigits, List.takeWhile_append_of_pos number.isAsciiDigit,
    List.dropWhile_append_of_pos number.isAsciiDigit, htake, hdrop, List.append_nil,
    if_neg number.ne_nil]

theorem exists_digits (h : captureDigits text = some (digits, rest)) :
    ∃ number : RangeDigits, digits = number.text ∧ text = number.text ++ rest := by
  rw [captureDigits] at h
  split_ifs at h with hdigits
  cases h
  refine ⟨⟨text.takeWhile isAsciiDigit, hdigits, fun b hb => ?_⟩, rfl,
    List.takeWhile_append_dropWhile.symm⟩
  exact List.mem_takeWhile_imp hb

/-- No digit begins an endpoint that is not a number. -/
theorem captureNumrangeEndpoint_of_digit {b : UInt8} (h : isAsciiDigit b = true) :
    captureNumrangeEndpoint (b :: text) = captureDigits (b :: text) := by
  have hne : b ≠ 0x7a ∧ b ≠ 0x72 :=
    forall_byte (p := fun b => isAsciiDigit b = true → b ≠ 0x7a ∧ b ≠ 0x72) (by decide) b h
  rw [captureNumrangeEndpoint]
  · intro rest heq
    exact hne.1 (List.cons.inj heq).1
  · intro rest heq
    exact hne.2 (List.cons.inj heq).1

theorem captureNumrangeEndpoint_append (endpoint : RangeEndpoint) (h : StopsDigits rest) :
    captureNumrangeEndpoint (endpoint.spelling ++ rest) = some (endpoint.spelling, rest) := by
  cases endpoint with
  | lastPage => rfl
  | fromEnd count =>
    show (captureDigits (count.text ++ rest)).map _ = _
    rw [captureDigits_append count h]
    rfl
  | page number =>
    rw [RangeEndpoint.spelling, ← captureDigits_append number h]
    obtain ⟨text, hne, hdigits⟩ := number
    cases text with
    | nil => exact absurd rfl hne
    | cons b text => exact captureNumrangeEndpoint_of_digit (hdigits b List.mem_cons_self)

theorem exists_endpoint (h : captureNumrangeEndpoint text = some (captured, rest)) :
    ∃ endpoint : RangeEndpoint, captured = endpoint.spelling ∧ text = endpoint.spelling ++ rest := by
  unfold captureNumrangeEndpoint at h
  split at h
  · cases h
    exact ⟨.lastPage, rfl, rfl⟩
  · obtain ⟨⟨digits, rest'⟩, hdigits, hrest⟩ := Option.map_eq_some_iff.mp h
    obtain ⟨count, rfl, htext⟩ := exists_digits hdigits
    cases hrest
    exact ⟨.fromEnd count, rfl, congrArg (List.cons _) htext⟩
  · obtain ⟨number, hcaptured, htext⟩ := exists_digits h
    exact ⟨.page number, hcaptured, htext⟩

/-! ## Groups -/

/-- What is captured of a group. -/
def RangeGroup.parts (group : RangeGroup) : NumrangeGroup where
  isExclude := group.exclude
  first := group.span.first.spelling
  last := group.span.last.map RangeEndpoint.spelling

theorem captureNumrangeSpan_spelling (isExclude : Bool) (span : RangeSpan) :
    captureNumrangeSpan isExclude span.spelling =
      some (RangeGroup.parts { exclude := isExclude, span := span }) := by
  obtain ⟨first, last⟩ := span
  have hnil : StopsDigits [] := by rintro b ⟨⟩
  rw [captureNumrangeSpan, RangeSpan.spelling]
  cases last with
  | none =>
    rw [captureNumrangeEndpoint_append first hnil]
    rfl
  | some last =>
    have hstops : StopsDigits (ascii "-" ++ last.spelling) := by
      intro b hb
      cases hb
      decide
    have hlast := captureNumrangeEndpoint_append last hnil
    rw [List.append_nil] at hlast
    have hdash : ascii "-" ++ last.spelling = 0x2d :: last.spelling := rfl
    rw [captureNumrangeEndpoint_append first hstops, hdash]
    simp only [hlast]
    rfl

/-- An endpoint does not begin with the exclusion mark. -/
theorem RangeSpan.head_spelling (span : RangeSpan) : span.spelling.head? ≠ some 0x78 := by
  have hhead : span.first.spelling.head? ≠ some 0x78 := by
    cases hfirst : span.first with
    | lastPage => decide
    | fromEnd count => exact fun h => by cases h
    | page number =>
      intro h
      have hdigit := number.isAsciiDigit _ (List.mem_of_mem_head? h)
      exact absurd hdigit (by decide)
  rw [RangeSpan.spelling, List.head?_append_of_ne_nil _ span.first.spelling_ne_nil]
  exact hhead

theorem captureNumrangeGroup_spelling (group : RangeGroup) :
    captureNumrangeGroup group.spelling = some group.parts := by
  obtain ⟨exclude, span⟩ := group
  cases exclude with
  | true => exact captureNumrangeSpan_spelling true span
  | false =>
    rw [← captureNumrangeSpan_spelling false span]
    show captureNumrangeGroup span.spelling = _
    rw [captureNumrangeGroup]
    intro rest hrest
    exact span.head_spelling (by rw [hrest, List.head?_cons])

theorem exists_span {isExclude : Bool} {groupMatch : NumrangeGroup}
    (h : captureNumrangeSpan isExclude text = some groupMatch) :
    ∃ span : RangeSpan, text = span.spelling := by
  rw [captureNumrangeSpan] at h
  split at h
  · rename_i first hcapture
    obtain ⟨first, rfl, rfl⟩ := exists_endpoint hcapture
    exact ⟨{ first := first, last := none }, rfl⟩
  · rename_i first rest hcapture
    obtain ⟨first, rfl, rfl⟩ := exists_endpoint hcapture
    split at h
    · rename_i last hcapture'
      obtain ⟨last, rfl, rfl⟩ := exists_endpoint hcapture'
      rw [List.append_nil]
      exact ⟨{ first := first, last := some last }, rfl⟩
    · cases h
  · cases h

theorem exists_group {groupMatch : NumrangeGroup}
    (h : captureNumrangeGroup text = some groupMatch) : ∃ group : RangeGroup, text = group.spelling := by
  unfold captureNumrangeGroup at h
  split at h
  · obtain ⟨span, rfl⟩ := exists_span h
    exact ⟨{ exclude := true, span := span }, rfl⟩
  · obtain ⟨span, rfl⟩ := exists_span h
    exact ⟨{ exclude := false, span := span }, rfl⟩

/-! ## Values -/

theorem checkNumrangeValue_eq_ok {input : Bytes} {offset : ℕ} {value : ℤ} (hmax : 1 ≤ max) :
    checkNumrangeValue input offset value max = .ok v ↔ (1 ≤ value ∧ value ≤ max) ∧ v = value := by
  rw [checkNumrangeValue]
  split_ifs with h
  · constructor
    · exact nofun
    · omega
  · rw [Except.ok.injEq]
    constructor
    · omega
    · omega

theorem RangeDigits.isIntText (number : RangeDigits) :
    isIntText number.text = true ∧ intValue number.text = decimalValue number.text := by
  obtain ⟨text, hne, hdigits⟩ := number
  cases text with
  | nil => exact absurd rfl hne
  | cons b text =>
    have hb := isAsciiDigit_not_space b (hdigits b List.mem_cons_self)
    have hsign : splitSign (b :: text) = (false, b :: text) := by
      rw [splitSign]
      · intro rest heq
        exact hb.2.2.1 (List.cons.inj heq).1
      · intro rest heq
        exact hb.2.2.2 (List.cons.inj heq).1
    rw [Flpdf.isIntText, intValue, hsign]
    exact ⟨by simpa using hdigits, rfl⟩

/-- A number is taken when an `i32` holds it. -/
theorem qpdfStringToIntChecked_digits (number : RangeDigits) :
    (decimalValue number.text < 2 ^ 31 ∧
        qpdfStringToIntChecked number.text = .value (decimalValue number.text)) ∨
      (2 ^ 31 ≤ decimalValue number.text ∧
        ∃ message, qpdfStringToIntChecked number.text = .overflow message) := by
  obtain ⟨htext, hvalue⟩ := number.isIntText
  by_cases hfits : FitsInt (intValue number.text)
  · refine .inl ⟨?_, ?_⟩
    · unfold FitsInt at hfits
      omega
    · rw [qpdfStringToIntChecked_of_fits htext hfits, hvalue]
  · refine .inr ⟨?_, qpdfStringToIntChecked_of_not_fits htext hfits⟩
    unfold FitsInt at hfits
    omega

/-- The wrapping difference is checked as if it did not wrap. -/
theorem wrapI32_fromEnd {count : ℕ} (hmax : 1 ≤ max) (hfits : max < 2 ^ 31) (hcount : count < 2 ^ 31) :
    (1 ≤ wrapI32 (wrapI32 (max + 1) - count) ∧ wrapI32 (wrapI32 (max + 1) - count) ≤ max) ∧
        v = wrapI32 (wrapI32 (max + 1) - count) ↔
      (1 ≤ max + 1 - (count : ℤ) ∧ max + 1 - (count : ℤ) ≤ max) ∧ v = max + 1 - count := by
  unfold wrapI32
  omega

/-- An endpoint is taken when it is a page of the document. -/
theorem parseNumrangeInteger_eq_ok {input : Bytes} {offset : ℕ} (endpoint : RangeEndpoint)
    (hmax : 1 ≤ max) (hfits : max < 2 ^ 31) :
    parseNumrangeInteger input offset endpoint.spelling max = .ok v ↔
      endpoint.InRange max ∧ v = endpoint.value max := by
  rw [RangeEndpoint.InRange]
  cases endpoint with
  | lastPage => exact checkNumrangeValue_eq_ok hmax
  | fromEnd count =>
    have hletter : ¬ascii "r" ++ count.text = ascii "z" :=
      fun heq => absurd (List.cons.inj heq).1 (by decide)
    have hhead : ((ascii "r" ++ count.text).head? == some 0x72) = true := rfl
    have htail : (ascii "r" ++ count.text).tail = count.text := rfl
    rw [RangeEndpoint.spelling, RangeEndpoint.value, parseNumrangeInteger, if_neg hletter, hhead]
    rcases qpdfStringToIntChecked_digits count with ⟨hlt, hvalue⟩ | ⟨hle, message, hvalue⟩
    · simp only [if_true, htail, hvalue]
      exact (checkNumrangeValue_eq_ok hmax).trans (wrapI32_fromEnd hmax hfits hlt)
    · simp only [if_true, htail, hvalue]
      constructor
      · rintro ⟨⟩
      · omega
  | page number =>
    have hshape : ¬number.text = ascii "z" ∧ (number.text.head? == some 0x72) = false := by
      obtain ⟨text, hne, hdigits⟩ := number
      cases text with
      | nil => exact absurd rfl hne
      | cons b text =>
        have hb := hdigits b List.mem_cons_self
        constructor
        · intro heq
          rw [(List.cons.inj heq).1] at hb
          exact absurd hb (by decide)
        · rw [List.head?_cons, beq_eq_false_iff_ne]
          intro heq
          rw [Option.some.inj heq] at hb
          exact absurd hb (by decide)
    rw [RangeEndpoint.spelling, RangeEndpoint.value, parseNumrangeInteger, if_neg hshape.1, hshape.2]
    rcases qpdfStringToIntChecked_digits number with ⟨hlt, hvalue⟩ | ⟨hle, message, hvalue⟩
    · simp only [Bool.false_eq_true, if_false, hvalue]
      exact checkNumrangeValue_eq_ok hmax
    · simp only [Bool.false_eq_true, if_false, hvalue]
      constructor
      · rintro ⟨⟩
      · omega

theorem parseNumrangeLast_eq_ok {input : Bytes} {offset : ℕ} {last : Option RangeEndpoint}
    {lastNum : Option ℤ} (hmax : 1 ≤ max) (hfits : max < 2 ^ 31) :
    parseNumrangeLast input offset max (last.map RangeEndpoint.spelling) = .ok lastNum ↔
      (∀ endpoint ∈ last, endpoint.InRange max) ∧ lastNum = last.map (RangeEndpoint.value max) := by
  cases last with
  | none => exact ⟨fun h => ⟨nofun, (Except.ok.inj h).symm⟩, fun h => congrArg Except.ok h.2.symm⟩
  | some endpoint =>
    constructor
    · intro h
      cases hvalue : parseNumrangeInteger input offset endpoint.spelling max with
      | error message =>
        rw [Option.map_some, parseNumrangeLast, hvalue] at h
        cases h
      | ok value =>
        rw [Option.map_some, parseNumrangeLast, hvalue] at h
        cases h
        obtain ⟨hrange, rfl⟩ := (parseNumrangeInteger_eq_ok endpoint hmax hfits).mp hvalue
        refine ⟨fun other hother => ?_, rfl⟩
        cases hother
        exact hrange
    · rintro ⟨hrange, rfl⟩
      have hvalue := (@parseNumrangeInteger_eq_ok max _ input offset endpoint hmax hfits).mpr
        ⟨hrange endpoint rfl, rfl⟩
      exact congrArg (Except.map some) hvalue

/-! ## The loop -/

theorem populateNumrangeGroup_eq (span : RangeSpan) :
    populateNumrangeGroup (span.first.value max) span.last.isSome
        ((span.last.map (RangeEndpoint.value max)).getD 0) = span.pages max := by
  obtain ⟨first, last⟩ := span
  cases last with
  | none => rfl
  | some last =>
    rw [RangeSpan.pages]
    simp only [Option.isSome_some, Option.map_some, Option.getD_some]
    generalize first.value max = a
    generalize last.value max = b
    rw [populateNumrangeGroup, if_pos rfl, pageSpan]
    rcases lt_trichotomy a b with hlt | rfl | hgt
    · rw [if_neg (by omega), if_pos hlt, if_pos hlt.le, ← intRange_of_lt (by omega)]
    · rw [if_neg (lt_irrefl a), if_neg (lt_irrefl a), if_pos le_rfl, intRange_of_lt (by omega),
        intRange, Int.sub_self]
      rfl
    · rw [if_pos hgt, if_neg (by omega), intRange_succ (by omega), List.reverse_concat]

/-- What a group does. -/
def NumrangeState.add (max : ℤ) (s : NumrangeState) (group : RangeGroup) : NumrangeState :=
  if group.exclude then
    { s with
      first := false
      lastGroup := s.lastGroup.filter fun page => decide (page ∉ group.span.pages max) }
  else { first := false, result := s.result ++ s.lastGroup, lastGroup := group.span.pages max }

theorem numrangeGroup_eq_ok {range : Bytes} {cursor : ℕ} {s s' : NumrangeState} (group : RangeGroup)
    (hmax : 1 ≤ max) (hfits : max < 2 ^ 31) :
    numrangeGroup range max cursor group.spelling s = .ok s' ↔
      ¬(s.first = true ∧ group.exclude = true) ∧ group.span.InRange max ∧ s' = s.add max group := by
  rw [numrangeGroup, captureNumrangeGroup_spelling]
  dsimp only [RangeGroup.parts]
  by_cases hfirst : s.first = true ∧ group.exclude = true
  · rw [if_pos hfirst]
    exact ⟨nofun, fun h => absurd hfirst h.1⟩
  rw [if_neg hfirst]
  constructor
  · intro h
    obtain ⟨firstNum, hfirstNum, h⟩ := bind_eq_ok.mp h
    obtain ⟨lastNum, hlastNum, h⟩ := bind_eq_ok.mp h
    obtain ⟨hrange, rfl⟩ := (parseNumrangeInteger_eq_ok _ hmax hfits).mp hfirstNum
    obtain ⟨hrange', rfl⟩ := (parseNumrangeLast_eq_ok hmax hfits).mp hlastNum
    rw [Option.isSome_map, populateNumrangeGroup_eq] at h
    refine ⟨hfirst, ⟨hrange, hrange'⟩, ?_⟩
    rw [NumrangeState.add]
    split_ifs at h ⊢ with hexclude
    · exact (Except.ok.inj h).symm
    · exact (Except.ok.inj h).symm
  · rintro ⟨-, ⟨hrange, hrange'⟩, rfl⟩
    refine bind_eq_ok.mpr ⟨_, (parseNumrangeInteger_eq_ok _ hmax hfits).mpr ⟨hrange, rfl⟩, ?_⟩
    refine bind_eq_ok.mpr ⟨_, (parseNumrangeLast_eq_ok hmax hfits).mpr ⟨hrange', rfl⟩, ?_⟩
    rw [Option.isSome_map, populateNumrangeGroup_eq, NumrangeState.add]
    split_ifs <;> rfl

variable {range : Bytes} {cursor fuel : ℕ} {s s' : NumrangeState}

/-- The first group of some text, and the text behind it. -/
theorem spellGroups_split (group : RangeGroup) (groups : List RangeGroup) :
    (spellGroups (group :: groups)).takeWhile (· != 0x2c) = group.spelling ∧
      (spellGroups (group :: groups)).dropWhile (· != 0x2c) =
        if groups = [] then [] else ascii "," ++ spellGroups groups := by
  have hbytes : ∀ b ∈ group.spelling, (b != 0x2c) = true := fun b hb =>
    bne_iff_ne.mpr (isRangeByte_ne b (group.spelling_bytes b hb)).1
  by_cases hgroups : groups = []
  · subst hgroups
    exact ⟨List.takeWhile_eq_self_iff.mpr hbytes, List.dropWhile_eq_nil_iff.mpr hbytes⟩
  · rw [spellGroups_cons group hgroups, if_neg hgroups, List.append_assoc,
      List.takeWhile_append_of_pos hbytes, List.dropWhile_append_of_pos hbytes]
    exact ⟨List.append_nil _, rfl⟩

/-- The loop takes the spellings of groups, the first one positive. -/
theorem numrangeLoop_eq_ok (hmax : 1 ≤ max) (hfits : max < 2 ^ 31) (hfuel : rest.length ≤ fuel) :
    numrangeLoop range max fuel cursor rest s = .ok s' ↔
      ∃ groups : List RangeGroup, rest = spellGroups groups ∧
        (∀ group ∈ groups, group.span.InRange max) ∧
        (s.first = true → ∀ group ∈ groups.head?, group.exclude = false) ∧
        s' = groups.foldl (NumrangeState.add max) s := by
  induction fuel generalizing cursor rest s with
  | zero =>
    obtain rfl := List.eq_nil_of_length_eq_zero (Nat.le_zero.mp hfuel)
    constructor
    · intro h
      exact ⟨[], rfl, nofun, nofun, (Except.ok.inj h).symm⟩
    · rintro ⟨groups, hrest, -, -, rfl⟩
      cases groups with
      | nil => rfl
      | cons group groups => exact absurd hrest.symm (spellGroups_ne_nil (List.cons_ne_nil _ _))
  | succ fuel ih =>
    rw [numrangeLoop]
    by_cases hrest : rest = []
    · rw [if_pos hrest]
      constructor
      · intro h
        exact ⟨[], hrest, nofun, nofun, (Except.ok.inj h).symm⟩
      · rintro ⟨groups, hspell, -, -, rfl⟩
        cases groups with
        | nil => rfl
        | cons group groups =>
          exact absurd (hspell.symm.trans hrest) (spellGroups_ne_nil (List.cons_ne_nil _ _))
    rw [if_neg hrest]
    constructor
    · intro h
      obtain ⟨next, hgroup, h⟩ := bind_eq_ok.mp h
      obtain ⟨group, hspell⟩ : ∃ group : RangeGroup, rest.takeWhile (· != 0x2c) = group.spelling := by
        rw [numrangeGroup] at hgroup
        cases hcapture : captureNumrangeGroup (rest.takeWhile (· != 0x2c)) with
        | none =>
          rw [hcapture] at hgroup
          cases hgroup
        | some groupMatch => exact exists_group hcapture
      rw [hspell] at hgroup
      obtain ⟨hfirst, hrange, rfl⟩ := (numrangeGroup_eq_ok group hmax hfits).mp hgroup
      have hpositive : s.first = true → group.exclude = false := fun hs =>
        Bool.eq_false_iff.mpr fun hexclude => hfirst ⟨hs, hexclude⟩
      have hsplit := @List.takeWhile_append_dropWhile _ (· != (0x2c : UInt8)) rest
      cases hmore : rest.dropWhile (· != 0x2c) with
      | nil =>
        rw [hmore] at h hsplit
        rw [hspell, List.append_nil] at hsplit
        refine ⟨[group], hsplit.symm, ?_, ?_, (Except.ok.inj h).symm⟩
        · exact fun other hother => List.mem_singleton.mp hother ▸ hrange
        · intro hs other hother
          cases hother
          exact hpositive hs
      | cons comma more =>
        have hcomma : comma = 0x2c := by
          have hhead := List.head?_dropWhile_not (· != (0x2c : UInt8)) rest
          rw [hmore] at hhead
          simpa using hhead
        rw [hmore] at h hsplit
        dsimp only at h
        split_ifs at h with hend
        have hlength : more.length ≤ fuel := by
          have hlength := congrArg List.length hsplit
          rw [List.length_append, List.length_cons] at hlength
          omega
        obtain ⟨groups, rfl, hranges, -, rfl⟩ := (ih hlength).mp h
        have hgroups : groups ≠ [] := by
          rintro rfl
          exact hend rfl
        refine ⟨group :: groups, ?_, ?_, ?_, rfl⟩
        · rw [← hsplit, hspell, hcomma, spellGroups_cons group hgroups, List.append_assoc]
          rfl
        · exact List.forall_mem_cons.mpr ⟨hrange, hranges⟩
        · intro hs other hother
          cases hother
          exact hpositive hs
    · rintro ⟨groups, rfl, hranges, hfirst, rfl⟩
      cases groups with
      | nil => exact absurd rfl hrest
      | cons group groups =>
        obtain ⟨htake, hdrop⟩ := spellGroups_split group groups
        have hgroup : numrangeGroup range max cursor group.spelling s = .ok (s.add max group) := by
          refine (numrangeGroup_eq_ok group hmax hfits).mpr
            ⟨?_, hranges group List.mem_cons_self, rfl⟩
          rintro ⟨hs, hexclude⟩
          exact Bool.false_ne_true ((hfirst hs group rfl).symm.trans hexclude)
        rw [htake, hdrop]
        refine bind_eq_ok.mpr ⟨_, hgroup, ?_⟩
        by_cases hgroups : groups = []
        · subst hgroups
          rfl
        · rw [if_neg hgroups]
          have hlength : (spellGroups groups).length ≤ fuel := by
            rw [spellGroups_cons group hgroups, List.length_append, List.length_append] at hfuel
            have hone : (ascii ",").length = 1 := rfl
            omega
          show (if spellGroups groups = [] then _ else _) = _
          rw [if_neg (spellGroups_ne_nil hgroups)]
          refine (ih hlength).mpr ⟨groups, rfl, ?_, ?_, rfl⟩
          · exact fun other hother => hranges other (List.mem_cons_of_mem _ hother)
          · intro hs
            rw [NumrangeState.add] at hs
            split_ifs at hs

/-! ## What is collected -/

theorem foldl_exclusions (exclusions : List RangeSpan) (h : s.first = false) :
    (exclusions.map fun span => ({ exclude := true, span := span } : RangeGroup)).foldl
        (NumrangeState.add max) s =
      { s with lastGroup := s.lastGroup.filter fun page =>
          exclusions.all fun span => page ∉ span.pages max } := by
  induction exclusions generalizing s with
  | nil => simp
  | cons span exclusions ih =>
    rw [List.map_cons, List.foldl_cons, NumrangeState.add, if_pos rfl, ih rfl]
    simp only [List.filter_filter, List.all_cons, h, Bool.and_comm]

theorem foldl_block (block : RangeBlock) :
    block.groups.foldl (NumrangeState.add max) s =
      { first := false, result := s.result ++ s.lastGroup, lastGroup := block.pages max } := by
  rw [RangeBlock.groups, List.foldl_cons, NumrangeState.add, if_neg Bool.false_ne_true]
  exact foldl_exclusions block.exclusions rfl

theorem foldl_blocks (blocks : List RangeBlock) (s : NumrangeState) :
    ((blocks.flatMap RangeBlock.groups).foldl (NumrangeState.add max) s).result ++
        ((blocks.flatMap RangeBlock.groups).foldl (NumrangeState.add max) s).lastGroup =
      s.result ++ s.lastGroup ++ blocks.flatMap (RangeBlock.pages max) := by
  induction blocks generalizing s with
  | nil => exact (List.append_nil _).symm
  | cons block blocks ih =>
    rw [List.flatMap_cons, List.foldl_append, foldl_block, ih, List.flatMap_cons, List.append_assoc]

/-- Every second item is at the positions of one parity. -/
theorem stepBy_two {α : Type} (items : List α) (skipped position remainder : ℕ)
    (hskipped : skipped ≤ 1) (hposition : (position + skipped) % 2 = remainder) :
    stepBy 2 skipped items =
      ((items.zipIdx position).filter fun item => item.2 % 2 = remainder).map Prod.fst := by
  induction items generalizing skipped position with
  | nil => cases skipped <;> rfl
  | cons item items ih =>
    rw [List.zipIdx_cons]
    rcases Nat.le_one_iff_eq_zero_or_eq_one.mp hskipped with rfl | rfl
    · rw [stepBy, List.filter_cons_of_pos (by simpa using hposition), List.map_cons,
        ih 1 (position + 1) le_rfl (by omega)]
    · rw [stepBy, List.filter_cons_of_neg (by simp; omega),
        ih 0 (position + 1) (Nat.zero_le _) (by omega)]

/-! ## Expressions -/

/-- The positions that a suffix asks for. -/
def RangeExpression.positions (e : RangeExpression) : ℕ × ℕ :=
  match e.suffix with
  | none => (1, 0)
  | some .odd => (2, 0)
  | some .even => (2, 1)

theorem RangeExpression.pages_eq (e : RangeExpression) (pages : List ℤ)
    (h : pages = e.blocks.flatMap (RangeBlock.pages max)) :
    e.pages max =
      if e.positions.1 = 1 then pages else stepBy e.positions.1 0 (pages.drop e.positions.2) := by
  subst h
  obtain ⟨blocks, suffix⟩ := e
  rcases suffix with _ | _ | _
  · rfl
  · exact (stepBy_two _ 0 1 1 (Nat.zero_le _) rfl).symm
  · generalize hpages : blocks.flatMap (RangeBlock.pages max) = pages
    have heven := stepBy_two pages 1 1 0 le_rfl rfl
    have hpages' : RangeExpression.pages max { blocks := blocks, suffix := some .even } =
        selectPositions 0 pages := by
      rw [← hpages]
      rfl
    rw [hpages', selectPositions, ← heven]
    cases pages <;> rfl

/-- A suffix is spelled behind the first colon. -/
theorem RangeExpression.spelling_split (e : RangeExpression) :
    e.spelling.takeWhile (· != 0x3a) = spellGroups e.groups ∧
      ∀ range colon, numrangeSuffix range (e.spelling.dropWhile (· != 0x3a)) colon =
        .ok e.positions := by
  have hbytes : ∀ b ∈ spellGroups e.groups, (b != 0x3a) = true := fun b hb =>
    bne_iff_ne.mpr (spellGroups_bytes _ b hb).1
  rw [RangeExpression.spelling, List.takeWhile_append_of_pos hbytes,
    List.dropWhile_append_of_pos hbytes, RangeExpression.positions]
  rcases e.suffix with _ | _ | _
  · exact ⟨List.append_nil _, fun _ _ => rfl⟩
  · exact ⟨List.append_nil _, fun _ _ => rfl⟩
  · exact ⟨List.append_nil _, fun _ _ => rfl⟩

theorem RangeExpression.nul_not_mem (e : RangeExpression) : (0 : UInt8) ∉ e.spelling := by
  intro h
  rcases List.mem_append.mp h with h | h
  · exact (spellGroups_bytes _ _ h).2 rfl
  · rcases hsuffix : e.suffix with _ | _ | _
    · rw [hsuffix] at h
      cases h
    · rw [hsuffix] at h
      exact absurd h (by decide)
    · rw [hsuffix] at h
      exact absurd h (by decide)

theorem exists_suffix {suffix : Bytes} {colon : ℕ} {positions : ℕ × ℕ}
    (h : numrangeSuffix range suffix colon = .ok positions) :
    ∃ choice : Option RangeSuffix, suffix =
      match choice with
      | none => []
      | some suffix => suffix.spelling := by
  rw [numrangeSuffix] at h
  split_ifs at h with hnone hodd heven
  · exact ⟨none, hnone⟩
  · exact ⟨some .odd, hodd⟩
  · exact ⟨some .even, heven⟩

theorem parseNumrange_spelling (e : RangeExpression) (hmax : 1 ≤ max) (hfits : max < 2 ^ 31)
    (hrange : e.InRange max) : parseNumrange e.spelling max = .ok (e.pages max) := by
  have htext : e.spelling.takeWhile (· != 0) = e.spelling := by
    rw [List.takeWhile_eq_self_iff]
    intro b hb
    refine bne_iff_ne.mpr ?_
    rintro rfl
    exact e.nul_not_mem hb
  obtain ⟨htake, hsuffix⟩ := e.spelling_split
  have hloop := (@numrangeLoop_eq_ok (spellGroups e.groups) max e.spelling 0 _ {} _ hmax hfits
    le_rfl).mpr ⟨e.groups, rfl, hrange, fun _ => e.head_groups, rfl⟩
  have hcollected := @foldl_blocks max e.blocks {}
  rw [parseNumrange]
  dsimp only
  rw [htext, htake]
  refine bind_eq_ok.mpr ⟨_, hsuffix _ _, ?_⟩
  refine bind_eq_ok.mpr ⟨_, hloop, ?_⟩
  exact congrArg Except.ok (e.pages_eq _ hcollected).symm

/-- What is taken is the spelling of an expression. -/
theorem exists_expression {input : Bytes} {pages : List ℤ} (hnul : (0 : UInt8) ∉ input)
    (hmax : 1 ≤ max) (hfits : max < 2 ^ 31) (h : parseNumrange input max = .ok pages) :
    ∃ e : RangeExpression, e.spelling = input ∧ e.InRange max := by
  have htext : input.takeWhile (· != 0) = input := by
    rw [List.takeWhile_eq_self_iff]
    intro b hb
    refine bne_iff_ne.mpr ?_
    rintro rfl
    exact hnul hb
  rw [parseNumrange] at h
  dsimp only at h
  rw [htext] at h
  obtain ⟨positions, hpositions, h⟩ := bind_eq_ok.mp h
  obtain ⟨s, hloop, -⟩ := bind_eq_ok.mp h
  obtain ⟨suffix, hsuffix⟩ := exists_suffix hpositions
  obtain ⟨groups, hgroups, hrange, hfirst, -⟩ := (numrangeLoop_eq_ok hmax hfits le_rfl).mp hloop
  obtain ⟨blocks, rfl⟩ := exists_blocks_of_head (hfirst rfl)
  refine ⟨{ blocks := blocks, suffix := suffix }, ?_, hrange⟩
  rw [RangeExpression.spelling, ← @List.takeWhile_append_dropWhile _ (· != (0x3a : UInt8)) input,
    hgroups, hsuffix]
  rfl

theorem parseNumrange_eq_ok {input : Bytes} {pages : List ℤ} (hnul : (0 : UInt8) ∉ input)
    (hmax : 1 ≤ max) (hfits : max < 2 ^ 31) : parseNumrange input max = .ok pages ↔
      ∃ e : RangeExpression, e.spelling = input ∧ e.InRange max ∧ pages = e.pages max := by
  constructor
  · intro h
    obtain ⟨e, rfl, hrange⟩ := exists_expression hnul hmax hfits h
    exact ⟨e, rfl, hrange, Except.ok.inj (h.symm.trans (parseNumrange_spelling e hmax hfits hrange))⟩
  · rintro ⟨e, rfl, hrange, rfl⟩
    exact parseNumrange_spelling e hmax hfits hrange

theorem parseNumrange_bounds {input : Bytes} {pages : List ℤ} (hnul : (0 : UInt8) ∉ input)
    (hmax : 1 ≤ max) (hfits : max < 2 ^ 31) (h : parseNumrange input max = .ok pages) :
    ∀ page ∈ pages, 1 ≤ page ∧ page ≤ max := by
  obtain ⟨e, -, hrange, rfl⟩ := (parseNumrange_eq_ok hnul hmax hfits).mp h
  exact hrange.bounds

/-- The bare suffixes are all that goes beyond the documented grammar. -/
theorem RangeExpression.undocumented {e : RangeExpression} (h : ¬e.Documented) :
    (e.spelling = ascii ":odd" ∨ e.spelling = ascii ":even") ∧ e.pages max = [] := by
  obtain ⟨blocks, suffix⟩ := e
  rw [RangeExpression.Documented, Classical.not_imp] at h
  obtain ⟨rfl, hsuffix⟩ := h
  rcases suffix with _ | _ | _
  · exact absurd rfl hsuffix
  · exact ⟨.inl rfl, rfl⟩
  · exact ⟨.inr rfl, rfl⟩

/-- A text is taken when it spells an expression within the document, and then the pages
are those of the expression. -/
theorem parseNumrange_spec {input : Bytes} {max : ℤ} (hnul : (0 : UInt8) ∉ input) (hmax : 1 ≤ max)
    (hfits : max < 2 ^ 31) :
    (∀ pages, parseNumrange input max = .ok pages ↔
      ∃ e : RangeExpression, e.spelling = input ∧ e.InRange max ∧ pages = e.pages max) ∧
    (∀ pages, parseNumrange input max = .ok pages → ∀ page ∈ pages, 1 ≤ page ∧ page ≤ max) ∧
    ∀ e : RangeExpression, e.spelling = input → ¬e.Documented →
      (input = ascii ":odd" ∨ input = ascii ":even") ∧ e.pages max = [] := by
  refine ⟨fun pages => parseNumrange_eq_ok hnul hmax hfits,
    fun pages => parseNumrange_bounds hnul hmax hfits, ?_⟩
  rintro e rfl hdocumented
  exact RangeExpression.undocumented hdocumented

/-- A range over a document of five pages. -/
theorem parseNumrange_spec_five :
    parseNumrange (ascii "1-5,x2-3,r1,z-4:odd") 5 = .ok [1, 5, 5] ∧
      ∀ page ∈ [1, 5, 5], (1 : ℤ) ≤ page ∧ page ≤ 5 := by
  have hparse : parseNumrange (ascii "1-5,x2-3,r1,z-4:odd") 5 = .ok [1, 5, 5] := by decide
  exact ⟨hparse, (@parseNumrange_spec (ascii "1-5,x2-3,r1,z-4:odd") 5 (by decide) (by decide)
    (by decide)).2.1 _ hparse⟩

/-- A suffix is taken without any group, which the documented grammar does not have. -/
theorem parseNumrange_bare_suffix :
    ¬∀ (input : Bytes) (max : ℤ), (0 : UInt8) ∉ input → 1 ≤ max → max < 2 ^ 31 →
      ((∃ pages, parseNumrange input max = .ok pages) ↔
        ∃ e : RangeExpression, e.Documented ∧ e.spelling = input ∧ e.InRange max) := by
  intro h
  obtain ⟨e, hdocumented, hspelling, -⟩ := (h (ascii ":odd") 1 (by decide) (by decide) (by decide)).mp
    ⟨[], by decide⟩
  obtain ⟨blocks, suffix⟩ := e
  cases blocks with
  | nil =>
    obtain rfl : suffix = none := hdocumented rfl
    cases hspelling
  | cons block blocks =>
    have hgroups : spellGroups (RangeExpression.groups { blocks := block :: blocks, suffix := suffix }) = [] := by
      have htake := (RangeExpression.spelling_split { blocks := block :: blocks, suffix := suffix }).1
      rw [← htake, hspelling]
      decide
    exact spellGroups_ne_nil (List.cons_ne_nil _ _) hgroups

end Flpdf
