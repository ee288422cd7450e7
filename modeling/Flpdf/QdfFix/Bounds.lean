import Flpdf.QdfFix.Scanners

/-!
# The scanners stay in bounds

Each scanner ends without a fault where it begins inside the bytes, and what it
finds lies between where it began and the end.
-/

namespace Flpdf

namespace QdfFix

open Checked

variable {input buf hay needle kw name : Bytes} {start i j n : ℕ}

/-! ## Lines -/

/-- The next LF, if there is one. -/
def NextNl (buf : Bytes) (start : ℕ) : Option ℕ → Prop
  | some p => start ≤ p ∧ buf[p]? = some 0x0a ∧ ∀ i, start ≤ i → i < p → buf[i]? ≠ some 0x0a
  | none => ∀ i, start ≤ i → buf[i]? ≠ some 0x0a

theorem memchrNl_sound (h : start ≤ buf.length) : Sound (memchrNl buf start) (NextNl buf start) := by
  rw [memchrNl, sliceFrom_eq h]
  refine Safe.pure ?_
  have hdrop : ∀ i, start ≤ i → buf[i]? = (buf.drop start)[i - start]? := by
    intro i hi
    rw [List.getElem?_drop, Nat.add_sub_cancel' hi]
  cases hfind : (buf.drop start).findIdx? (· == 0x0a) with
  | none =>
    intro i hi hnl
    rw [hdrop i hi] at hnl
    have hmem := List.mem_of_getElem? hnl
    simpa using List.findIdx?_eq_none_iff.mp hfind _ hmem
  | some off =>
    obtain ⟨hlt, hnl, hbefore⟩ := List.findIdx?_eq_some_iff_getElem.mp hfind
    refine ⟨Nat.le_add_right _ _, ?_, ?_⟩
    · rw [hdrop _ (Nat.le_add_right _ _), Nat.add_sub_cancel_left, List.getElem?_eq_getElem hlt]
      exact congrArg some (eq_of_beq hnl)
    · intro i hi hlt' hnl'
      have hoff : i - start < off := by
        simp only at hlt'
        omega
      rw [hdrop i hi, List.getElem?_eq_getElem (by omega)] at hnl'
      exact hbefore (i - start) hoff (by simpa using hnl')

theorem NextNl.lt {p : ℕ} (h : NextNl buf start (some p)) : p < buf.length := by
  obtain ⟨hlt, -⟩ := List.getElem?_eq_some_iff.mp h.2.1
  exact hlt

/-- The end of a line stands before `k` when an LF does. -/
theorem lineEndAfter_sound (h : start ≤ buf.length) : Sound (lineEndAfter buf start) fun e =>
    start ≤ e ∧ e ≤ buf.length ∧ (start < buf.length → start < e) ∧
      ∀ k, k < buf.length → (e ≤ k ↔ ∃ i, start ≤ i ∧ i < k ∧ buf[i]? = some 0x0a) := by
  rw [lineEndAfter]
  refine (memchrNl_sound h).bind ?_
  rintro (_ | p) hnext
  · refine Safe.pure ⟨h, le_rfl, id, ?_⟩
    intro k hk
    constructor
    · intro hle
      exact absurd hle (by simpa using hk)
    · rintro ⟨i, hi, -, hnl⟩
      exact absurd hnl (hnext i hi)
  · have hlt := hnext.lt
    obtain ⟨hle, hnl, hfirst⟩ := hnext
    refine Safe.pure ⟨?_, ?_, ?_, ?_⟩
    · simp only [Option.map_some, Option.getD_some]
      omega
    · simp only [Option.map_some, Option.getD_some]
      omega
    · simp only [Option.map_some, Option.getD_some]
      omega
    · intro k _
      simp only [Option.map_some, Option.getD_some]
      constructor
      · intro hpk
        exact ⟨p, hle, by omega, hnl⟩
      · rintro ⟨i, hi, hik, hnli⟩
        by_contra hgt
        exact hfirst i hi (by omega) hnli

theorem lineEndAfter_ok (h : start ≤ buf.length) : ∃ e, lineEndAfter buf start = .ok e := by
  rw [lineEndAfter, memchrNl, sliceFrom_eq h]
  exact ⟨_, rfl⟩

theorem findWindow_some (h : findWindow needle hay = some i) : needle <+: hay.drop i := by
  induction hay generalizing i with
  | nil => cases h
  | cons b hay ih =>
    rw [findWindow] at h
    split_ifs at h with hprefix
    · cases h
      exact List.isPrefixOf_iff_prefix.mp hprefix
    · obtain ⟨i', hfind, rfl⟩ := Option.map_eq_some_iff.mp h
      exact ih hfind

theorem findSubslice_begins (h : findSubslice hay needle = some i) : needle <+: hay.drop i := by
  rw [findSubslice] at h
  split_ifs at h
  exact findWindow_some h

theorem findSubslice_some (h : findSubslice hay needle = some i) :
    i + needle.length ≤ hay.length := by
  have hle := (findSubslice_begins h).length_le
  have hpos : needle ≠ [] := by
    rintro rfl
    simp [findSubslice] at h
  have hlength := List.length_pos_iff.mpr hpos
  rw [List.length_drop] at hle
  omega

theorem isXrefKeywordLine_sound (h : start ≤ input.length) :
    Sound (isXrefKeywordLine input start) fun _ => True := by
  rw [isXrefKeywordLine, sliceFrom_eq h]
  exact .pure trivial

theorem parseObjHeader_length {line : Bytes} {num gen : ℕ}
    (h : parseObjHeader line = some (num, gen, n)) : n = line.length := by
  simp only [parseObjHeader, Option.bind_eq_bind, Option.bind_eq_some_iff] at h
  obtain ⟨number, -, h⟩ := h
  split_ifs at h
  obtain ⟨_, -, h⟩ := Option.bind_eq_some_iff.mp h
  cases h
  rfl

/-- A header is a line that begins at `start` or behind it, with its LF. -/
def HeaderFound (input : Bytes) (start : ℕ) (r : Option (ℕ × ℕ × ℕ × ℕ)) : Prop :=
  ∀ num gen lineStart kwEnd, r = some (num, gen, lineStart, kwEnd) →
    start ≤ lineStart ∧ lineStart ≤ kwEnd ∧ kwEnd < input.length

theorem stopsAt_sound (stopAtXref : Bool) (h : start ≤ input.length) :
    Sound (stopsAt input stopAtXref start) fun _ => True := by
  rw [stopsAt]
  split_ifs
  · exact isXrefKeywordLine_sound h
  · exact .pure trivial

theorem nextObjLine_sound (stopAtXref : Bool) (h : start ≤ i) :
    Sound (nextObjLine input stopAtXref i)
      (Steps (start ≤ ·) (input.length - ·) (HeaderFound input start) i) := by
  rw [nextObjLine]
  by_cases hlt : i < input.length
  · rw [if_pos hlt]
    refine (memchrNl_sound (le_of_lt hlt)).bind ?_
    intro r hr
    have hlineEnd : i ≤ r.getD input.length ∧ r.getD input.length ≤ input.length := by
      cases r with
      | none => exact ⟨le_of_lt hlt, le_rfl⟩
      | some p => exact ⟨hr.1, le_of_lt hr.lt⟩
    generalize r.getD input.length = lineEnd at hlineEnd ⊢
    dsimp only
    rw [sliceBetween_eq hlineEnd.1 hlineEnd.2]
    refine Safe.bind (Q := fun line => line = slice input i lineEnd) (.ok rfl) ?_
    rintro _ rfl
    split
    next num gen kwEnd hheader =>
      split_ifs at hheader with hend
      refine .pure ?_
      rintro _ _ _ _ ⟨⟩
      have hlength := parseObjHeader_length hheader
      rw [slice_length_of_le hlineEnd.2] at hlength
      omega
    next =>
      refine (stopsAt_sound stopAtXref (le_of_lt hlt)).bind ?_
      intro isXref _
      split_ifs
      · exact .pure fun _ _ _ _ => nofun
      · exact .pure fun _ _ _ _ => nofun
      · refine .pure ⟨?_, ?_⟩ <;> dsimp only <;> omega
  · rw [if_neg hlt]
    exact .pure fun _ _ _ _ => nofun

theorem findNextObj_sound (start : ℕ) (stopAtXref : Bool) :
    Sound (findNextObj input start stopAtXref) (HeaderFound input start) :=
  loop_sound (fun _ h => nextObjLine_sound stopAtXref h) le_rfl (by omega)

theorem xrefLine_sound (h : start ≤ i) : Sound (xrefLine input i)
    (Steps (start ≤ ·) (input.length - ·)
      (fun r => ∀ p, r = some p → start ≤ p ∧ p < input.length) i) := by
  rw [xrefLine]
  by_cases hlt : i < input.length
  · rw [if_pos hlt]
    refine (isXrefKeywordLine_sound (le_of_lt hlt)).bind ?_
    intro isXref _
    split_ifs
    · refine .pure ?_
      rintro p ⟨⟩
      exact ⟨h, hlt⟩
    · refine (memchrNl_sound (le_of_lt hlt)).bind ?_
      rintro (_ | p) hnext
      · exact .pure fun _ => nofun
      · have hle := hnext.1
        have hend := hnext.lt
        refine .pure ⟨?_, ?_⟩ <;> dsimp only <;> omega
  · rw [if_neg hlt]
    exact .pure fun _ => nofun

theorem findQpdfXrefLineFrom_sound (start : ℕ) : Sound (findQpdfXrefLineFrom input start)
    fun r => ∀ p, r = some p → start ≤ p ∧ p < input.length :=
  loop_sound (fun _ h => xrefLine_sound h) le_rfl (by omega)

theorem atLineStart_sound (h : i ≤ input.length) :
    Sound (atLineStart input i) fun _ => True := by
  rw [atLineStart]
  split_ifs
  · exact .pure trivial
  · rw [index_eq (by omega)]
    exact .pure trivial

theorem lineKeyword_sound (hkw : 0 < kw.length) (h : start ≤ i) : Sound (lineKeyword input kw i)
    (Steps (start ≤ ·) (input.length - ·)
      (fun r => ∀ p, r = some p → start ≤ p ∧ p + kw.length ≤ input.length) i) := by
  have hnext : i + kw.length ≤ input.length → Steps (start ≤ ·) (input.length - ·)
      (fun r => ∀ p, r = some p → start ≤ p ∧ p + kw.length ≤ input.length) i
        (.inl (i + 1) : ℕ ⊕ Option ℕ) := by
    intro hlt
    refine ⟨?_, ?_⟩ <;> dsimp only <;> omega
  rw [lineKeyword]
  by_cases hlt : i + kw.length ≤ input.length
  · rw [if_pos hlt, sliceBetween_eq (Nat.le_add_right _ _) hlt]
    refine Safe.bind (Q := fun _ => True) (.ok trivial) ?_
    intro window _
    split_ifs
    · refine (atLineStart_sound (by omega)).bind ?_
      intro atStart _
      split_ifs
      · refine .pure ?_
        rintro p ⟨⟩
        exact ⟨h, hlt⟩
      · exact .pure (hnext hlt)
    · exact .pure (hnext hlt)
  · rw [if_neg hlt]
    exact .pure fun _ => nofun

theorem findLineKeywordFrom_sound (hkw : 0 < kw.length) (start : ℕ) :
    Sound (findLineKeywordFrom input kw start)
      fun r => ∀ p, r = some p → start ≤ p ∧ p + kw.length ≤ input.length :=
  loop_sound (fun _ h => lineKeyword_sound hkw h) le_rfl (by omega)

/-! ## Object syntax -/

theorem skipWhile_sound (p : UInt8 → Bool) (i : ℕ) :
    Sound (skipWhile p input i) fun e => i ≤ e ∧ ∀ b, input[i]? = some b → p b = true → i < e := by
  have hrun : Sound (skipWhile p input i) fun e => i ≤ e ∧ ∀ b, input[e]? = some b → p b = false := by
    refine loop_sound (fun e (he : i ≤ e) => (?_ : Sound _ (Steps _ (input.length - ·) _ e))) le_rfl
      (by omega)
    cases hb : input[e]? with
    | none =>
      refine .pure ⟨he, ?_⟩
      rw [hb]
      rintro b ⟨⟩
    | some b =>
      dsimp only
      cases hp : p b with
      | true =>
        have hlt := (List.getElem?_eq_some_iff.mp hb).choose
        refine .pure ⟨Nat.le_succ_of_le he, ?_⟩
        dsimp only
        omega
      | false =>
        refine .pure ⟨he, ?_⟩
        rw [hb]
        rintro b' ⟨⟩
        exact hp
  refine hrun.mono ?_
  rintro e ⟨hle, hstop⟩
  refine ⟨hle, ?_⟩
  intro b hb hp
  rcases Nat.lt_or_ge i e with hlt | hge
  · exact hlt
  · obtain rfl : e = i := by omega
    rw [hstop b hb] at hp
    cases hp

theorem skipComment_sound {b : UInt8} (hb : input[i]? = some b) (hcomment : b = 0x25) :
    Sound (skipComment input i) fun e => i < e := by
  refine (skipWhile_sound _ i).mono ?_
  intro e he
  exact he.2 b hb (by rw [hcomment]; rfl)

theorem skipHexString_sound (i : ℕ) : Sound (skipHexString input i) fun e => i < e := by
  refine (skipWhile_sound _ (i + 1)).bind ?_
  intro e he
  have hle := he.1
  exact .pure (by omega)

theorem literalByte_sound (s : ℕ × ℕ) (h : i < s.1) : Sound (literalByte input s)
    (Steps (i < ·.1) (input.length - ·.1) (i < ·) s) := by
  obtain ⟨j, depth⟩ := s
  rw [literalByte]
  dsimp only at h ⊢
  have hnext : ∀ k depth', j < input.length → j < k → Steps (i < ·.1) (input.length - ·.1) (i < ·)
      (j, depth) (.inl (k, depth') : (ℕ × ℕ) ⊕ ℕ) := by
    intro k depth' hlt hk
    refine ⟨?_, ?_⟩ <;> dsimp only <;> omega
  by_cases hlt : j < input.length ∧ 0 < depth
  · rw [if_pos hlt, index_eq hlt.1]
    refine Safe.bind (Q := fun _ => True) (.ok trivial) ?_
    intro b _
    split_ifs
    · exact .pure (hnext _ _ hlt.1 (by omega))
    · exact .pure (hnext _ _ hlt.1 (by omega))
    · rw [sub_eq hlt.2]
      exact .pure (hnext _ _ hlt.1 (by omega))
    · exact .pure (hnext _ _ hlt.1 (by omega))
  · rw [if_neg hlt]
    exact .pure h

theorem skipLiteralString_sound (i : ℕ) : Sound (skipLiteralString input i) fun e => i < e :=
  loop_sound literalByte_sound (Nat.lt_succ_self i) (by dsimp only; omega)

/-- The depth is zero at the opening `<<` only. -/
def DictOpen (input : Bytes) (start : ℕ) (s : ℕ × ℕ) : Prop :=
  start ≤ s.1 ∧ (s.2 = 0 → input[s.1]? = some 0x3c ∧ input[s.1 + 1]? = some 0x3c)

theorem dictCloseTurn_sound (s : ℕ × ℕ) (h : DictOpen input start s) :
    Sound (dictCloseTurn input s) (Steps (DictOpen input start) (input.length - ·.1)
      (fun r => ∀ c, r = some c → start ≤ c ∧ c + 2 ≤ input.length) s) := by
  obtain ⟨j, depth⟩ := s
  obtain ⟨hstart, hopen⟩ := h
  dsimp only at hstart hopen
  rw [dictCloseTurn]
  by_cases hlt : j < input.length
  · rw [if_pos hlt, index_eq hlt]
    have hj : input[j]? = some input[j] := List.getElem?_eq_getElem hlt
    generalize input[j] = b at hj
    -- Behind the opening a turn goes on with the same depth.
    have hnext : ∀ e, depth ≠ 0 → j < e → Steps (DictOpen input start) (input.length - ·.1)
        (fun r => ∀ c, r = some c → start ≤ c ∧ c + 2 ≤ input.length) (j, depth)
          (.inl (e, depth) : (ℕ × ℕ) ⊕ Option ℕ) := by
      intro e hdepth he
      refine ⟨⟨?_, fun hzero => absurd hzero hdepth⟩, ?_⟩ <;> dsimp only <;> omega
    have hdepth : ¬(b = 0x3c ∧ input[j + 1]? = some 0x3c) → depth ≠ 0 := by
      rintro hnot rfl
      obtain ⟨hfirst, hsecond⟩ := hopen rfl
      rw [hj] at hfirst
      exact hnot ⟨Option.some.inj hfirst, hsecond⟩
    refine Safe.bind (Q := fun b' => b' = b) (.ok rfl) ?_
    rintro _ rfl
    split_ifs with hcomment hopens hcloses hhex hliteral
    · have hne := hdepth (by rw [hcomment]; exact fun h => absurd h.1 (by decide))
      exact (skipComment_sound hj hcomment).bind fun e he => .pure (hnext e hne he)
    · refine .pure ⟨⟨?_, nofun⟩, ?_⟩ <;> dsimp only <;> omega
    · have hne := hdepth hopens
      have hsecond := (List.getElem?_eq_some_iff.mp hcloses.2).choose
      rw [sub_eq (by omega)]
      refine Safe.bind (Q := fun d => d = depth - 1) (.ok rfl) ?_
      rintro _ rfl
      split_ifs with hzero
      · refine .pure ?_
        rintro c ⟨⟩
        exact ⟨hstart, by omega⟩
      · refine .pure ⟨⟨?_, fun h => absurd h hzero⟩, ?_⟩ <;> dsimp only <;> omega
    · have hne := hdepth hopens
      exact (skipHexString_sound j).bind fun e he => .pure (hnext e hne he)
    · have hne := hdepth hopens
      exact (skipLiteralString_sound j).bind fun e he => .pure (hnext e hne he)
    · exact .pure (hnext _ (hdepth hopens) (Nat.lt_succ_self j))
  · rw [if_neg hlt]
    exact .pure fun _ => nofun

theorem findMatchingDictClose_sound (hfirst : input[start]? = some 0x3c)
    (hsecond : input[start + 1]? = some 0x3c) : Sound (findMatchingDictClose input start)
      fun r => ∀ c, r = some c → start ≤ c ∧ c + 2 ≤ input.length :=
  loop_sound dictCloseTurn_sound ⟨le_rfl, fun _ => ⟨hfirst, hsecond⟩⟩ (by dsimp only; omega)

theorem nameTokenTurn_sound (i : ℕ) : Sound (nameTokenTurn hay name i)
    (Steps (fun _ => True) (hay.length - ·)
      (fun r => ∀ p, r = some p → p + name.length ≤ hay.length) i) := by
  rw [nameTokenTurn]
  have hnext : ∀ e, i < hay.length → i < e → Steps (fun _ => True) (hay.length - ·)
      (fun r => ∀ p, r = some p → p + name.length ≤ hay.length) i (.inl e : ℕ ⊕ Option ℕ) := by
    intro e hlt he
    refine ⟨trivial, ?_⟩
    dsimp only
    omega
  by_cases hlt : i < hay.length
  · rw [if_pos hlt, index_eq hlt]
    have hi : hay[i]? = some hay[i] := List.getElem?_eq_getElem hlt
    generalize hay[i] = b at hi
    refine Safe.bind (Q := fun b' => b' = b) (.ok rfl) ?_
    rintro _ rfl
    split_ifs with hcomment hopens hcloses hhex hliteral hslash
    · exact (skipComment_sound hi hcomment).bind fun e he => .pure (hnext e hlt he)
    · exact .pure (hnext _ hlt (by omega))
    · exact .pure (hnext _ hlt (by omega))
    · exact (skipHexString_sound i).bind fun e he => .pure (hnext e hlt he)
    · exact (skipLiteralString_sound i).bind fun e he => .pure (hnext e hlt he)
    · rw [sliceFrom_eq (le_of_lt hlt)]
      refine Safe.bind (Q := fun rest => rest = hay.drop i) (.ok rfl) ?_
      rintro _ rfl
      split_ifs with hname
      · refine .pure ?_
        rintro p ⟨⟩
        have hle := (List.isPrefixOf_iff_prefix.mp hname.1).length_le
        rw [List.length_drop] at hle
        omega
      · exact .pure (hnext _ hlt (Nat.lt_succ_self i))
    · exact .pure (hnext _ hlt (Nat.lt_succ_self i))
  · rw [if_neg hlt]
    exact .pure fun _ => nofun

theorem findNameToken_sound (hay name : Bytes) : Sound (findNameToken hay name)
    fun r => ∀ p, r = some p → p + name.length ≤ hay.length :=
  loop_sound (fun i _ => nameTokenTurn_sound i) trivial (Nat.lt_succ_of_le (Nat.sub_le _ _))

/-! ## Lines of an object -/

theorem rawTypeLine_sound (dict needle : Bytes) (i : ℕ) : Sound (rawTypeLine dict needle i)
    (Steps (fun _ => True) (dict.length - ·) (fun r => ∀ p, r = some p → p ≤ dict.length) i) := by
  rw [rawTypeLine]
  by_cases hlt : i < dict.length
  · rw [if_pos hlt]
    refine (lineEndAfter_sound (le_of_lt hlt)).bind ?_
    rintro e ⟨hle, hend, hgrows, -⟩
    rw [sliceBetween_eq hle hend]
    refine Safe.bind (Q := fun line => line = slice dict i e) (.ok rfl) ?_
    rintro _ rfl
    split
    next off hoff =>
      refine .pure ?_
      rintro p ⟨⟩
      have hbound := findSubslice_some hoff
      rw [slice_length_of_le hend] at hbound
      omega
    next =>
      have hnext := hgrows hlt
      refine .pure ⟨trivial, ?_⟩
      dsimp only
      omega
  · rw [if_neg hlt]
    exact .pure fun _ => nofun

theorem findRawTypeLine_sound (dict needle : Bytes) : Sound (findRawTypeLine dict needle)
    fun r => ∀ p, r = some p → p ≤ dict.length :=
  loop_sound (fun i _ => rawTypeLine_sound dict needle i) trivial (Nat.lt_succ_of_le (Nat.sub_le _ _))

/-- The members of an object stream with a first marker: their bodies begin behind it. -/
def MembersFrom (first endstreamKw : ℕ) (members : List ObjStmMember) : Prop :=
  ∃ member rest, members = member :: rest ∧ first ≤ member.bodyStart ∧ first ≤ endstreamKw ∧
    ∀ m ∈ members, member.bodyStart ≤ m.bodyStart

/-- What the scan for members has found in front of a line. -/
def MembersSoFar (endstreamKw : ℕ) (s : ℕ × Option ℕ × List ObjStmMember) : Prop :=
  (s.2.1 = none ∧ s.2.2 = []) ∨ ∃ first, s.2.1 = some first ∧
    MembersFrom first endstreamKw s.2.2 ∧ ∀ m ∈ s.2.2, m.bodyStart ≤ s.1

theorem MembersSoFar.add {s : ℕ × Option ℕ × List ObjStmMember} {endstreamKw lineEnd num : ℕ}
    (h : MembersSoFar endstreamKw s) (hline : s.1 ≤ lineEnd) (hend : s.1 ≤ endstreamKw) :
    MembersSoFar endstreamKw
      (lineEnd, some (s.2.1.getD s.1), s.2.2 ++ [⟨num, lineEnd⟩]) := by
  obtain ⟨lineStart, marker, members⟩ := s
  rcases h with ⟨hmarker, hmembers⟩ | ⟨first, hmarker, hmembers, hbodies⟩
  · dsimp only at hmarker hmembers hline hend
    subst hmarker hmembers
    refine .inr ⟨lineStart, rfl, ⟨⟨num, lineEnd⟩, [], rfl, hline, hend, ?_⟩, ?_⟩ <;> simp
  · dsimp only at hmarker hmembers hline hend hbodies
    subst hmarker
    obtain ⟨member, rest, hcons, hfirst, hle, hleast⟩ := hmembers
    refine .inr ⟨first, rfl, ⟨member, rest ++ [⟨num, lineEnd⟩], by simp [hcons], hfirst, hle, ?_⟩, ?_⟩
    · intro m hm
      rcases List.mem_append.mp hm with hm | hm
      · exact hleast m hm
      · rw [List.mem_singleton.mp hm]
        have hmember := hbodies member (by rw [hcons]; exact List.mem_cons_self)
        exact hmember.trans hline
    · intro m hm
      rcases List.mem_append.mp hm with hm | hm
      · exact (hbodies m hm).trans hline
      · rw [List.mem_singleton.mp hm]

theorem MembersSoFar.skip {s : ℕ × Option ℕ × List ObjStmMember} {endstreamKw lineEnd : ℕ}
    (h : MembersSoFar endstreamKw s) (hline : s.1 ≤ lineEnd) :
    MembersSoFar endstreamKw (lineEnd, s.2.1, s.2.2) :=
  h.imp id fun ⟨first, hmarker, hmembers, hbodies⟩ =>
    ⟨first, hmarker, hmembers, fun m hm => (hbodies m hm).trans hline⟩

theorem memberLine_sound {endstreamKw : ℕ} (hinput : endstreamKw ≤ input.length)
    (s : ℕ × Option ℕ × List ObjStmMember) (h : MembersSoFar endstreamKw s) :
    Sound (memberLine input endstreamKw s) (Steps (MembersSoFar endstreamKw) (endstreamKw - ·.1)
      (fun r => ∀ first members, r = some (first, members) →
        MembersFrom first endstreamKw members) s) := by
  obtain ⟨lineStart, marker, members⟩ := s
  rw [memberLine]
  dsimp only
  by_cases hlt : lineStart < endstreamKw
  · rw [if_pos hlt]
    refine (lineEndAfter_sound (by omega)).bind ?_
    rintro e ⟨-, hend, hgrows, -⟩
    have hnext := hgrows (by omega)
    have hmin : lineStart < min e endstreamKw := lt_min hnext hlt
    rw [sliceBetween_eq (le_of_lt hmin) (by omega)]
    refine Safe.bind (Q := fun _ => True) (.ok trivial) ?_
    intro line _
    split
    next num _ =>
      refine .pure ⟨h.add (le_of_lt hmin) (le_of_lt hlt), ?_⟩
      dsimp only
      omega
    next =>
      refine .pure ⟨h.skip (le_of_lt hmin), ?_⟩
      dsimp only
      omega
  · rw [if_neg hlt]
    refine .pure ?_
    intro first members' hsome
    obtain ⟨first', hmarker, heq⟩ := Option.map_eq_some_iff.mp hsome
    cases heq
    rcases h with ⟨hnone, -⟩ | ⟨first', hmarker', hmembers, -⟩
    · dsimp only at hnone
      rw [hnone] at hmarker
      cases hmarker
    · dsimp only at hmarker' hmembers
      rw [hmarker'] at hmarker
      cases hmarker
      exact hmembers

theorem scanObjstmMembers_sound {endstreamKw : ℕ} (start : ℕ) (hinput : endstreamKw ≤ input.length) :
    Sound (scanObjstmMembers input start endstreamKw) fun r => ∀ first members,
      r = some (first, members) → MembersFrom first endstreamKw members :=
  loop_sound (memberLine_sound hinput) (.inl ⟨rfl, rfl⟩) (by dsimp only; omega)

theorem findExtends_sound (region : Bytes) : Sound (findExtends region) fun _ => True := by
  rw [findExtends]
  split
  next => exact .pure trivial
  next pos hpos =>
    rw [sliceFrom_eq (findSubslice_some hpos)]
    refine Safe.bind (Q := fun _ => True) (.ok trivial) ?_
    intro rest _
    dsimp only
    split_ifs with hdigits
    · exact .pure trivial
    · have hlength := (List.takeWhile_prefix (p := isAsciiDigit) (l := rest)).length_le
      rw [sliceFrom_eq hlength]
      refine Safe.bind (Q := fun after => after = rest.drop (rest.takeWhile isAsciiDigit).length)
        (.ok rfl) ?_
      rintro _ rfl
      split_ifs with hsuffix
      · have hle := (List.isPrefixOf_iff_prefix.mp hsuffix).length_le
        rw [List.length_drop] at hle
        rw [sliceBetween_eq (Nat.zero_le _) (by omega)]
        exact .pure trivial
      · exact .pure trivial

theorem qpdfBareIntegerLineRangeAt_sound (h : start ≤ input.length) :
    Sound (qpdfBareIntegerLineRangeAt input start) fun r => ∀ first last, r = some (first, last) →
      first = start ∧ start < last ∧ last ≤ input.length := by
  rw [qpdfBareIntegerLineRangeAt]
  refine (memchrNl_sound h).bind ?_
  rintro (_ | p) hnext
  · exact .pure fun _ _ => nofun
  · have hlt := hnext.lt
    have hle := hnext.1
    dsimp only
    rw [sliceBetween_eq hle (le_of_lt hlt)]
    refine Safe.bind (Q := fun _ => True) (.ok trivial) ?_
    intro integer _
    split_ifs
    · exact .pure fun _ _ => nofun
    · refine .pure ?_
      rintro first last ⟨⟩
      exact ⟨rfl, by omega, hlt⟩

end QdfFix

end Flpdf
