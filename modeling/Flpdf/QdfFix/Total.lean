import Flpdf.QdfFix.Objects

/-!
# `fix_qdf` ends with a value or an error

The scan keeps the objects in order, and whatever comes behind it finds all its
positions in bounds. The one panic is that of an object stream whose type line is
not ended before its `stream` keyword, and the scan runs into it where it is.
-/

namespace Flpdf

namespace QdfFix

open Checked Relation

variable {input : Bytes} {s s' : ScanState} {header : Header} {object : ObjectSpan}
  {objects : List ObjectSpan} {start : ℕ} {P : Prop}

/-! ## The scan -/

/-- The positions of an object are in order. -/
structure SpanOk (input : Bytes) (object : ObjectSpan) : Prop where
  bodyStart : object.objLineStart ≤ object.bodyStart
  bodyStart_le : object.bodyStart ≤ input.length
  endPos : object.objLineStart ≤ object.endPos
  endPos_le : object.endPos ≤ input.length
  body : BodyOk input object.objLineStart object.endPos object.body

/-- The objects lie one behind the other, the first behind `start`. -/
def Spans (input : Bytes) : ℕ → List ObjectSpan → Prop
  | _, [] => True
  | start, object :: objects =>
    start ≤ object.objLineStart ∧ SpanOk input object ∧ Spans input object.endPos objects

/-- The end of the last object. -/
def lastEnd (start : ℕ) (objects : List ObjectSpan) : ℕ :=
  (objects.getLast?.map ObjectSpan.endPos).getD start

theorem lastEnd_cons (start : ℕ) (object : ObjectSpan) (objects : List ObjectSpan) :
    lastEnd start (object :: objects) = lastEnd object.endPos objects := by
  rw [lastEnd, lastEnd, List.getLast?_cons]
  cases objects.getLast? <;> rfl

theorem Spans.append (h : Spans input start objects) (hbehind : lastEnd start objects ≤
    object.objLineStart) (hobject : SpanOk input object) :
    Spans input start (objects ++ [object]) := by
  induction objects generalizing start with
  | nil => exact ⟨hbehind, hobject, trivial⟩
  | cons first objects ih =>
    rw [lastEnd_cons] at hbehind
    exact ⟨h.1, h.2.1, ih h.2.2 hbehind⟩

theorem Spans.lastEnd_le (h : Spans input start objects) (hstart : start ≤ input.length) :
    lastEnd start objects ≤ input.length := by
  induction objects generalizing start with
  | nil => exact hstart
  | cons first objects ih =>
    rw [lastEnd_cons]
    exact ih h.2.2 h.2.1.endPos_le

theorem lastEnd_append (start : ℕ) (objects : List ObjectSpan) (object : ObjectSpan) :
    lastEnd start (objects ++ [object]) = object.endPos := by
  rw [lastEnd, List.getLast?_append, List.getLast?_singleton]
  rfl

/-- The scan stands behind the objects it has found. -/
structure Standing (input : Bytes) (s : ScanState) : Prop where
  spans : Spans input 0 s.objects
  cursor : lastEnd 0 s.objects = s.cursor

theorem standing_start (input : Bytes) : Standing input {} := ⟨trivial, rfl⟩

theorem resumes_sound {lineStart : ℕ} (h : lineStart ≤ input.length) :
    Sound (resumes input s lineStart) fun _ => True := by
  rw [resumes]
  split_ifs
  · rw [sliceBetween_eq (Nat.zero_le _) h]
    refine Safe.bind (Q := fun _ => True) (.ok trivial) ?_
    intro before _
    refine (findQpdfXrefLineFrom_sound _).bind ?_
    intro _ _
    exact .pure trivial
  · exact .pure trivial

theorem checkSequential_sound (num last errOffset : ℕ) :
    Sound (checkSequential num last errOffset) fun _ => True := by
  rw [checkSequential]
  split_ifs
  · exact parseError_sound _ _
  · exact .ok trivial

/-- A header lies behind the cursor, and the line of a holder behind the header. -/
structure HeaderOk (input : Bytes) (s : ScanState) (header : Header) : Prop where
  cursor : s.cursor ≤ header.lineStart
  kwEnd : header.lineStart ≤ header.kwEnd
  kwEnd_lt : header.kwEnd < input.length
  holderLine : ∀ first last, header.holderLine = some (first, last) →
    header.kwEnd < last ∧ last ≤ input.length

theorem scanHeader_sound (input : Bytes) (s : ScanState) :
    Sound (scanHeader input s) fun r => ∀ header, r = some header → HeaderOk input s header := by
  rw [scanHeader]
  refine (findNextObj_sound _ _).bind ?_
  rintro (_ | ⟨num, gen, lineStart, kwEnd⟩) hfound
  · exact .pure fun _ => nofun
  obtain ⟨hcursor, hline, hlt⟩ := hfound num gen lineStart kwEnd rfl
  refine (resumes_sound (by omega)).bind ?_
  intro resumed _
  refine (checkSequential_sound _ _ _).bind ?_
  intro lastObj _
  split_ifs
  · refine (qpdfBareIntegerLineRangeAt_sound (by omega)).bind ?_
    rintro (_ | ⟨first, last⟩) hrange
    · exact parseError_sound _ _
    · obtain ⟨-, hlast, hle⟩ := hrange first last rfl
      refine .pure ?_
      rintro _ ⟨⟩
      refine ⟨hcursor, hline, hlt, ?_⟩
      rintro _ _ ⟨⟩
      exact ⟨Nat.lt_of_succ_lt hlast, hle⟩
  · refine .pure ?_
    rintro _ ⟨⟩
    exact ⟨hcursor, hline, hlt, fun _ _ => nofun⟩

theorem memberNumbers_sound (lineStart : ℕ) (members : List ObjStmMember) (last : ℕ) :
    Sound (memberNumbers lineStart members last) fun _ => True := by
  induction members generalizing last with
  | nil => exact .pure trivial
  | cons member members ih =>
    rw [memberNumbers]
    exact (checkSequential_sound _ _ _).bind fun last _ => ih last

theorem bodyNumbers_sound (lineStart : ℕ) (body : ObjectBody) (last : ℕ) :
    Sound (bodyNumbers lineStart body last) fun _ => True := by
  cases body with
  | objStm => exact memberNumbers_sound _ _ _
  | _ => exact .pure trivial

/-- An object behind the others. -/
theorem Standing.scanned (h : Standing input s) (hheader : HeaderOk input s header)
    {body : ObjectBody} {endPos : ℕ} (lastObj : ℕ) (hend : header.kwEnd < endPos)
    (hle : endPos ≤ input.length) (hbody : BodyOk input header.lineStart endPos body) :
    Standing input (scanned s header body endPos lastObj) ∧
      input.length - (scanned s header body endPos lastObj).cursor < input.length - s.cursor := by
  have hcursor := hheader.cursor
  have hkwEnd := hheader.kwEnd
  have hlt := hheader.kwEnd_lt
  refine ⟨⟨h.spans.append (h.cursor ▸ hcursor) ⟨?_, ?_, ?_, hle, hbody⟩, lastEnd_append _ _ _⟩, ?_⟩
  · dsimp only
    omega
  · dsimp only
    omega
  · dsimp only
    omega
  · rw [QdfFix.scanned]
    dsimp only
    omega

/-- The type lines that the scan reads from a state on are ended. -/
def TypeLinesEndAt (input : Bytes) (s : ScanState) : Prop :=
  ∀ header, scanHeader input s = .ok (some header) → header.bareHolder = none →
    TypeLinesEnd input header.lineStart header.kwEnd

theorem scanStep_safe (h : Standing input s) (hP : P → TypeLinesEndAt input s) :
    Safe (FaultIf P) (scanStep input s) (Steps (Standing input) (input.length - ·.cursor)
      (fun s => Spans input 0 s.objects) s) := by
  have hsound := scanHeader_sound input s
  rw [scanStep]
  cases hscan : scanHeader input s with
  | error e => exact Safe.error fun hf => hsound.of_error hscan (faultIf_isFault e hf)
  | ok r =>
    rcases r with _ | header
    · exact .pure h.spans
    have hheader := hsound.of_ok hscan header rfl
    dsimp only [bind, Except.bind]
    cases hbare : header.bareHolder with
    | some range =>
      obtain ⟨first, integerEnd⟩ := range
      have hholder : header.holderLine = some (first, integerEnd) := by
        rw [Header.bareHolder] at hbare
        split_ifs at hbare
        exact hbare
      obtain ⟨hend, hle⟩ := hheader.holderLine first integerEnd hholder
      have hbody : BodyOk input header.lineStart integerEnd (.plain none none 0) := fun _ => nofun
      obtain ⟨hstanding, hlt⟩ := h.scanned hheader header.lastObj hend hle hbody
      exact .pure ⟨⟨hstanding.spans, hstanding.cursor⟩, hlt⟩
    | none =>
      dsimp only
      refine (objectBody_safe hheader.kwEnd hheader.kwEnd_lt fun hp =>
        hP hp header hscan hbare).bind ?_
      rintro ⟨body, endPos⟩ ⟨hend, hle, hbody⟩
      dsimp only at hend hle hbody ⊢
      refine (faultIf_of_sound (bodyNumbers_sound _ _ _)).bind ?_
      intro lastObj _
      obtain ⟨hstanding, hlt⟩ := h.scanned hheader lastObj hend hle hbody
      split_ifs
      · exact .pure hstanding.spans
      · exact .pure ⟨hstanding, hlt⟩

/-- A state the scan comes to. -/
def Reached (input : Bytes) (s : ScanState) : Prop :=
  ReflTransGen (fun s s' => scanStep input s = .ok (.inl s')) {} s

/-- Whenever the scan comes to an object stream, the line of its type ends before its
`stream` keyword. -/
def AllTypeLinesEnd (input : Bytes) : Prop := ∀ s, Reached input s → TypeLinesEndAt input s

theorem scan_sound (h : AllTypeLinesEnd input) :
    Sound (scan input) fun s => Spans input 0 s.objects := by
  have hstep : ∀ s, Standing input s ∧ Reached input s → Sound (scanStep input s)
      (Steps (fun s => Standing input s ∧ Reached input s) (input.length - ·.cursor)
        (fun s => Spans input 0 s.objects) s) := by
    rintro s ⟨hstanding, hreached⟩
    have hsafe : Safe (FaultIf True) (scanStep input s) _ :=
      scanStep_safe hstanding fun _ => h s hreached
    cases heq : scanStep input s with
    | error e =>
      refine Safe.error fun hf => hsafe.of_error heq ?_
      cases e with
      | error e => exact hf
      | panic => trivial
      | endless => trivial
    | ok r =>
      have hr := hsafe.of_ok heq
      rcases r with s' | s'
      · exact .ok ⟨⟨hr.1, hreached.tail heq⟩, hr.2⟩
      · exact .ok hr
  exact loop_sound hstep ⟨standing_start input, .refl⟩ (by dsimp only; omega)

theorem scan_panics (h : ¬AllTypeLinesEnd input) : scan input = .error .panic := by
  rw [AllTypeLinesEnd] at h
  push Not at h
  obtain ⟨s, hreached, hopen⟩ := h
  have hstep : ∀ s s', Standing input s → scanStep input s = .ok (.inl s') →
      Standing input s' ∧ input.length - s'.cursor < input.length - s.cursor := by
    intro s s' hstanding heq
    exact (scanStep_safe (P := False) hstanding fun hf => hf.elim).of_ok heq
  have hfuel : input.length - ({} : ScanState).cursor < input.length + 2 := by
    dsimp only
    omega
  obtain ⟨fuel, hroom, heq⟩ := loop_reaches hstep (standing_start input) hfuel hreached
  rw [TypeLinesEndAt] at hopen
  push Not at hopen
  obtain ⟨header, hscan, hbare, hline⟩ := hopen
  have hheader := (scanHeader_sound input s).of_ok hscan header rfl
  have hpanic : scanStep input s = .error .panic := by
    rw [scanStep, hscan]
    dsimp only [bind, Except.bind]
    rw [hbare]
    dsimp only
    rw [objectBody_panics hheader.kwEnd_lt hline]
  rw [scan, heq]
  cases fuel with
  | zero => omega
  | succ fuel => rw [loop, hpanic]

/-! ## Lengths -/

theorem countedBody_sound {lineStart endPos nextStart : ℕ} {body : ObjectBody}
    (h : BodyOk input lineStart endPos body) (hend : endPos ≤ nextStart)
    (hnext : nextStart ≤ input.length) :
    Sound (countedBody input nextStart body) (BodyOk input lineStart endPos) := by
  rw [countedBody.eq_def]
  split
  next streamLen start _ =>
    have hmarker := h start rfl
    rw [sliceBetween_eq (by omega) hnext]
    exact .pure h
  next => exact .pure h

theorem countMarkers_sound (h : Spans input start objects) :
    Sound (countMarkers input objects) (Spans input start) := by
  induction objects generalizing start with
  | nil => exact .pure h
  | cons object objects ih =>
    obtain ⟨hstart, hobject, hspans⟩ := h
    cases objects with
    | nil => exact .pure ⟨hstart, hobject, hspans⟩
    | cons next objects =>
      have hnext := hspans.2.1.endPos.trans hspans.2.1.endPos_le
      rw [countMarkers]
      refine (countedBody_sound hobject.body hspans.1 hnext).bind ?_
      intro body hok
      refine (ih hspans).bind ?_
      intro rest hrest
      exact .pure ⟨hstart, ⟨hobject.bodyStart, hobject.bodyStart_le, hobject.endPos,
        hobject.endPos_le, hok⟩, hrest⟩

/-- An object and the line that is rewritten in it. -/
def HolderOk (holder : ObjectSpan × Option (ℕ × ℕ × ℕ)) : Prop :=
  ∀ newLen first last, holder.2 = some (newLen, first, last) →
    first = holder.1.bodyStart ∧ last ≤ holder.1.endPos

/-- The objects lie one behind the other, each with its line. -/
def Holders (input : Bytes) : ℕ → List (ObjectSpan × Option (ℕ × ℕ × ℕ)) → Prop
  | _, [] => True
  | start, holder :: holders => start ≤ holder.1.objLineStart ∧ SpanOk input holder.1 ∧
      HolderOk holder ∧ Holders input holder.1.endPos holders

theorem newLenBody_sound (previous : Option ObjectSpan) (h : SpanOk input object) :
    Sound (newLenBody input previous object) fun newLen => HolderOk (object, newLen) := by
  rw [newLenBody]
  split
  next =>
    refine Safe.bind (Q := fun r => ∀ first last, r = some (first, last) →
      first = object.bodyStart ∧ last ≤ object.endPos) ?_ ?_
    · rw [qpdfBareIntegerLineRange]
      refine (qpdfBareIntegerLineRangeAt_sound h.bodyStart_le).bind ?_
      intro r hr
      refine .pure ?_
      intro first last hsome
      obtain ⟨heq, hle⟩ := Option.filter_eq_some_iff.mp hsome
      exact ⟨(hr first last heq).1, by simpa using hle⟩
    · rintro (_ | ⟨first, last⟩) hrange
      · exact parseError_sound _ _
      · refine .pure ?_
        rintro _ _ _ ⟨⟩
        exact hrange first last rfl
  next => exact .pure fun _ _ _ => nofun

theorem lengthHolders_sound (previous : Option ObjectSpan) (h : Spans input start objects) :
    Sound (lengthHolders input previous objects) (Holders input start) := by
  induction objects generalizing start previous with
  | nil => exact .pure trivial
  | cons object objects ih =>
    obtain ⟨hstart, hobject, hspans⟩ := h
    rw [lengthHolders]
    refine (newLenBody_sound previous hobject).bind ?_
    intro newLen hholder
    refine (ih (some object) hspans).bind ?_
    intro rest hrest
    exact .pure ⟨hstart, hobject, hholder, hrest⟩

/-! ## Output -/

theorem byteWidth_sound (v : ℕ) : Sound (byteWidth v) fun _ => True := by
  have hstep : ∀ s : ℕ × ℕ, True → Sound
      (return if 0 < s.1 then .inl (s.1 / 256, s.2 + 1) else .inr s.2 : Fix ((ℕ × ℕ) ⊕ ℕ))
      (Steps (fun _ => True) Prod.fst (fun _ => True) s) := by
    rintro ⟨v, n⟩ _
    refine .pure ?_
    dsimp only
    split_ifs with hpos
    · exact ⟨trivial, Nat.div_lt_self hpos (by decide)⟩
    · exact trivial
  exact loop_sound hstep trivial (Nat.lt_succ_self v)

theorem offsetLines_sound {base : ℕ} {members : List ObjStmMember}
    (h : ∀ m ∈ members, base ≤ m.bodyStart) : Sound (offsetLines base members) fun _ => True := by
  induction members with
  | nil => exact .pure trivial
  | cons member members ih =>
    rw [List.forall_mem_cons] at h
    rw [offsetLines, sub_eq h.1]
    exact (ih h.2).bind fun _ _ => .pure trivial

theorem emitObjstm_sound {first endstreamKw : ℕ} {members : List ObjStmMember}
    (hmembers : MembersFrom first endstreamKw members) (hend : endstreamKw ≤ input.length)
    (extendsEntry : Option Bytes) :
    Sound (emitObjstm input first endstreamKw members extendsEntry) fun _ => True := by
  obtain ⟨member, rest, rfl, hfirst, hle, hleast⟩ := hmembers
  rw [emitObjstm, index_eq (Nat.zero_lt_succ _)]
  refine (offsetLines_sound hleast).bind ?_
  intro offsets _
  rw [List.getElem_cons_zero, sub_eq hfirst, sub_eq hle, sliceBetween_eq hle hend]
  exact .pure trivial

theorem xrefDictLine_sound {contentStart : ℕ} (size : ℕ) (h : contentStart ≤ input.length)
    (s : ℕ × Bytes) : Sound (xrefDictLine input contentStart size s)
      (Steps (fun _ => True) (contentStart - ·.1) (fun _ => True) s) := by
  obtain ⟨lineStart, out⟩ := s
  rw [xrefDictLine]
  dsimp only
  by_cases hlt : lineStart < contentStart
  · rw [if_pos hlt]
    refine (lineEndAfter_sound (by omega)).bind ?_
    rintro e ⟨-, hend, hgrows, -⟩
    have hnext := hgrows (by omega)
    have hmin : lineStart < min e contentStart := lt_min hnext hlt
    rw [sliceBetween_eq (le_of_lt hmin) (by omega)]
    refine Safe.bind (Q := fun _ => True) (.ok trivial) ?_
    intro line _
    have hstep : ∀ out' : Bytes, Steps (fun _ => True) (contentStart - ·.1) (fun _ => True)
        (lineStart, out) (.inl (min e contentStart, out') : (ℕ × Bytes) ⊕ Bytes) := by
      intro out'
      refine ⟨trivial, ?_⟩
      dsimp only
      omega
    split_ifs
    · exact .pure (hstep _)
    · exact .pure (hstep _)
    · exact .pure (hstep _)
  · rw [if_neg hlt]
    exact .pure trivial

theorem emitXrefStream_sound {contentStart : ℕ} (typeLineEnd : ℕ) (entries : List XrefEntry)
    (size thisOffset : ℕ) (h : contentStart ≤ input.length) :
    Sound (emitXrefStream input typeLineEnd contentStart entries size thisOffset) fun _ => True := by
  rw [emitXrefStream]
  refine (byteWidth_sound _).bind ?_
  intro width1 _
  refine (byteWidth_sound _).bind ?_
  intro width2 _
  have hloop : Sound (loop (xrefDictLine input contentStart size) (input.length + 1)
      (typeLineEnd, [])) fun _ => True :=
    loop_sound (fun s _ => xrefDictLine_sound size h s) trivial (by dsimp only; omega)
  exact hloop.bind fun _ _ => .pure trivial

theorem emitPlain_sound {newLen : Option (ℕ × ℕ × ℕ)} (h : SpanOk input object)
    (hholder : HolderOk (object, newLen)) : Sound (emitPlain input object newLen) fun _ => True := by
  rw [emitPlain.eq_def]
  split
  next newLen first last =>
    obtain ⟨hfirst, hlast⟩ := hholder newLen first last rfl
    rw [hfirst, sliceBetween_eq h.bodyStart h.bodyStart_le, sliceBetween_eq hlast h.endPos_le]
    exact .pure trivial
  next =>
    rw [sliceBetween_eq h.endPos h.endPos_le]
    exact .ok trivial

theorem emitObject_sound {newLen : Option (ℕ × ℕ × ℕ)} (size : ℕ) (o : Output)
    (h : SpanOk input object) (hholder : HolderOk (object, newLen)) :
    Sound (emitObject input size o object newLen) fun _ => True := by
  have hbody := h.body
  rw [emitObject]
  split
  next => exact (emitPlain_sound h hholder).bind fun _ _ => .pure trivial
  next typeLineEnd first endstreamKw members extendsEntry heq =>
    rw [heq] at hbody
    obtain ⟨htype, htypeLe, hmembers, hend⟩ := hbody
    rw [sliceBetween_eq htype htypeLe]
    refine Safe.bind (Q := fun _ => True) (.ok trivial) ?_
    intro header _
    refine (emitObjstm_sound hmembers (hend.trans h.endPos_le) extendsEntry).bind ?_
    intro stream _
    rw [sliceBetween_eq hend h.endPos_le]
    exact .pure trivial
  next typeLineEnd contentStart heq =>
    rw [heq] at hbody
    obtain ⟨htype, htypeLe, hcontent⟩ := hbody
    rw [sliceBetween_eq htype htypeLe]
    refine Safe.bind (Q := fun _ => True) (.ok trivial) ?_
    intro header _
    exact (emitXrefStream_sound _ _ _ _ hcontent).bind fun _ _ => .pure trivial

theorem emitObjects_sound {holders : List (ObjectSpan × Option (ℕ × ℕ × ℕ))} (size : ℕ)
    {previousEnd : Option ℕ} (hprevious : ∀ e, previousEnd = some e → e = start) (o : Output)
    (h : Holders input start holders) :
    Sound (emitObjects input size previousEnd holders o) fun _ => True := by
  induction holders generalizing start previousEnd o with
  | nil => exact .pure trivial
  | cons holder holders ih =>
    obtain ⟨object, newLen⟩ := holder
    obtain ⟨hstart, hobject, hholder, hrest⟩ := h
    have hgap : Sound (gapBefore input object.objLineStart previousEnd) fun _ => True := by
      cases previousEnd with
      | none => exact .pure trivial
      | some e =>
        rw [gapBefore, hprevious e rfl,
          sliceBetween_eq hstart (hobject.endPos.trans hobject.endPos_le)]
        exact .ok trivial
    rw [emitObjects]
    refine hgap.bind ?_
    intro gap _
    refine (emitObject_sound size _ hobject hholder).bind ?_
    rintro (o' | out) _
    · exact ih (fun e he => (Option.some.inj he).symm) o' hrest
    · exact .pure trivial

theorem rewriteSize_sound (trailer : Bytes) (size : ℕ) :
    Sound (rewriteSize trailer size) fun _ => True := by
  rw [rewriteSize]
  refine (findNameToken_sound _ _).bind ?_
  rintro (_ | pos) hpos
  · exact .pure trivial
  have hle := hpos pos rfl
  dsimp only
  rw [sliceBetween_eq (Nat.zero_le _) hle, sliceFrom_eq hle]
  refine Safe.bind (Q := fun _ => True) (.ok trivial) ?_
  intro before _
  refine Safe.bind (Q := fun rest => rest = trailer.drop (pos + (ascii "/Size").length)) (.ok rfl) ?_
  rintro rest -
  have hws := (List.takeWhile_prefix (p := isAsciiWhitespace) (l := rest)).length_le
  rw [sliceFrom_eq hws]
  refine Safe.bind (Q := fun afterWs => afterWs = rest.drop (rest.takeWhile isAsciiWhitespace).length)
    (.ok rfl) ?_
  rintro _ rfl
  have hdigits := (List.takeWhile_prefix (p := isAsciiDigit)
    (l := rest.drop (rest.takeWhile isAsciiWhitespace).length)).length_le
  rw [List.length_drop] at hdigits
  rw [sliceBetween_eq (Nat.zero_le _) hws, sliceFrom_eq (by omega)]
  exact .pure trivial

/-- What is found behind a position begins there or behind it. -/
theorem findBehind_sound (needle message : String) (h : start ≤ input.length) :
    Sound (findBehind input start needle message) fun p =>
      start ≤ p ∧ p ≤ input.length ∧ ascii needle <+: input.drop p := by
  rw [findBehind, sliceFrom_eq h]
  refine Safe.bind (Q := fun rest => rest = input.drop start) (.ok rfl) ?_
  rintro _ rfl
  split
  next off hoff =>
    have hle := findSubslice_some hoff
    have hprefix := findSubslice_begins hoff
    rw [List.drop_drop] at hprefix
    rw [List.length_drop] at hle
    exact .pure ⟨Nat.le_add_right _ _, by omega, hprefix⟩
  next => exact parseError_sound _ _

theorem tailXref_sound {recognizedXref : Option ℕ} {last : ℕ}
    (hxref : ∀ p, recognizedXref = some p → last ≤ p ∧ p < input.length) :
    Sound (tailXref input last recognizedXref) fun r =>
      ∀ p, r = some p → last ≤ p ∧ p ≤ input.length := by
  cases recognizedXref with
  | some xrefPos =>
    refine .pure ?_
    rintro _ ⟨⟩
    have hp := hxref xrefPos rfl
    exact ⟨hp.1, le_of_lt hp.2⟩
  | none =>
    refine (findLineKeywordFrom_sound (by decide) last).mono ?_
    intro r hr p hp
    have hbounds := hr p hp
    omega

theorem emitTail_sound {recognizedXref : Option ℕ} {last : ℕ} (size : ℕ) (o : Output)
    (hxref : ∀ p, recognizedXref = some p → last ≤ p ∧ p < input.length) :
    Sound (emitTail input last size recognizedXref o) fun _ => True := by
  rw [emitTail]
  refine (tailXref_sound hxref).bind ?_
  rintro (_ | xrefPos) hpos
  · exact parseError_sound _ _
  obtain ⟨hge, hle⟩ := hpos xrefPos rfl
  dsimp only
  rw [sliceBetween_eq hge hle]
  refine Safe.bind (Q := fun _ => True) (.ok trivial) ?_
  intro gap _
  refine (findBehind_sound _ _ hle).bind ?_
  rintro trailerKw ⟨-, htrailer, -⟩
  refine (findBehind_sound _ _ htrailer).bind ?_
  rintro dictOpen ⟨hopen, -, hprefix⟩
  obtain ⟨rest, hrest⟩ := hprefix
  have hfirst : input[dictOpen]? = some 0x3c := by
    rw [← List.head?_drop, ← hrest]
    rfl
  have hsecond : input[dictOpen + 1]? = some 0x3c := by
    rw [← List.head?_drop, ← List.drop_drop, ← hrest]
    rfl
  refine (findMatchingDictClose_sound hfirst hsecond).bind ?_
  rintro (_ | dictClose) hclose
  · exact parseError_sound _ _
  obtain ⟨hdict, hend⟩ := hclose dictClose rfl
  dsimp only
  rw [sliceBetween_eq (by omega) hend]
  refine Safe.bind (Q := fun _ => True) (.ok trivial) ?_
  intro trailerDict _
  refine (rewriteSize_sound _ _).bind ?_
  intro rewritten _
  refine (findBehind_sound _ _ hend).bind ?_
  rintro startxrefKw ⟨hstartxref, hstartxrefLe, -⟩
  rw [sliceBetween_eq hstartxref hstartxrefLe]
  refine Safe.bind (Q := fun _ => True) (.ok trivial) ?_
  intro gap' _
  exact (findBehind_sound _ _ hstartxrefLe).bind fun _ _ => .pure trivial

theorem emitEnd_sound {recognizedXref : Option ℕ} {last : ℕ} (s : ScanState) (o : Output)
    (hlast : last ≤ input.length)
    (hxref : ∀ p, recognizedXref = some p → last ≤ p ∧ p < input.length) :
    Sound (emitEnd input s last recognizedXref o) fun _ => True := by
  rw [emitEnd]
  split
  · rw [sliceFrom_eq hlast]
    exact .pure trivial
  · exact emitTail_sound _ o hxref

theorem firstObjStart_sound (h : Spans input start objects) :
    Sound (firstObjStart input objects) fun first => first ≤ input.length := by
  rw [firstObjStart]
  cases objects with
  | nil =>
    refine (findQpdfXrefLineFrom_sound 0).bind ?_
    rintro (_ | p) hp
    · exact parseError_sound _ _
    · exact .pure (le_of_lt (hp p rfl).2)
  | cons object objects => exact .pure (h.2.1.endPos.trans h.2.1.endPos_le)

/-- With its type lines ended a file is repaired or refused. -/
theorem fixQdf_sound (h : AllTypeLinesEnd input) : Sound (fixQdf input) fun _ => True := by
  rw [fixQdf]
  refine (scan_sound h).bind ?_
  intro s hspans
  refine (firstObjStart_sound hspans).bind ?_
  intro first hfirst
  have hlast : (s.objects.getLast?.map ObjectSpan.endPos).getD first ≤ input.length := by
    cases hobject : s.objects.getLast? with
    | none => exact hfirst
    | some object =>
      have hle := hspans.lastEnd_le (Nat.zero_le _)
      rw [lastEnd, hobject] at hle
      exact hle
  dsimp only
  refine (findQpdfXrefLineFrom_sound _).bind ?_
  intro recognizedXref hxref
  split
  · exact .error id
  · refine (countMarkers_sound hspans).bind ?_
    intro objects hobjects
    refine (lengthHolders_sound none hobjects).bind ?_
    intro holders hholders
    rw [sliceBetween_eq (Nat.zero_le _) hfirst]
    refine Safe.bind (Q := fun _ => True) (.ok trivial) ?_
    intro out _
    refine (emitObjects_sound _ (fun _ h => by cases h) _ hholders).bind ?_
    rintro (o | out') _
    · exact emitEnd_sound s o hlast hxref
    · exact .pure trivial

/-- A file is repaired or refused, without a panic and without an endless loop, if and only if
its type lines are ended. -/
theorem fixQdf_total (input : Bytes) :
    ((∃ out, fixQdf input = .ok out) ∨ ∃ e, fixQdf input = .error (.error e)) ↔
      AllTypeLinesEnd input := by
  constructor
  · intro hends
    by_contra hopen
    have hpanic : fixQdf input = .error .panic := by
      rw [fixQdf, scan_panics hopen]
      rfl
    rw [hpanic] at hends
    rcases hends with ⟨_, hout⟩ | ⟨_, he⟩
    · cases hout
    · cases he
  · intro h
    have hsound := fixQdf_sound h
    cases hfix : fixQdf input with
    | ok out => exact .inl ⟨out, rfl⟩
    | error e =>
      cases e with
      | error e => exact .inr ⟨e, rfl⟩
      | panic => exact absurd trivial (hsound.of_error hfix)
      | endless => exact absurd trivial (hsound.of_error hfix)

/-- An object stream whose `stream` keyword stands behind a CR. -/
theorem fixQdf_panics : ¬∀ input : Bytes,
    (∃ out, fixQdf input = .ok out) ∨ ∃ e, fixQdf input = .error (.error e) := by
  intro h
  have hpanic : fixQdf (ascii ("1 0 obj\n<</Type /ObjStm>>\rstream\n" ++
      "%% Object stream: object 2\n7\nendstream\nendobj\n")) = .error .panic := rfl
  rcases hpanic ▸ h _ with ⟨_, hout⟩ | ⟨_, he⟩
  · cases hout
  · cases he

end QdfFix

end Flpdf
