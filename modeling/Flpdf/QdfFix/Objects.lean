import Flpdf.QdfFix.Bounds
import Flpdf.QdfFix.Fix

/-!
# Where the objects of a QDF file lie

The scan comes from object to object. An object lies behind the one in front of
it, and all positions in it are in order, unless it is an object stream whose
type line is not ended before its `stream` keyword: there the scan panics.
-/

namespace Flpdf

namespace QdfFix

open Checked

variable {input : Bytes} {lineStart kwEnd streamKw typePos endPos start : ℕ} {P : Prop}

/-! ## One object -/

/-- An LF stands between the type of an object stream and its `stream` keyword. -/
def TypeLineEnds (input : Bytes) (kwEnd streamKw typePos : ℕ) : Prop :=
  ∃ i, kwEnd + typePos ≤ i ∧ i < streamKw ∧ input[i]? = some 0x0a

/-- An object stream with its `stream` keyword, the match of its type, its members and its end. -/
structure MeetsObjectStream (input : Bytes) (lineStart kwEnd streamKw typePos : ℕ) : Prop where
  stream : ownStream input kwEnd = .ok (some streamKw)
  type : ∃ dict, sliceBetween input kwEnd streamKw = (.ok dict : Fix Bytes) ∧
    findRawTypeLine dict (ascii "/Type /XRef") = .ok none ∧
    findRawTypeLine dict (ascii "/Type /ObjStm") = .ok (some typePos)
  members : ∃ endstreamKw endPos members,
    findLineKeywordFrom input (ascii "endstream") (contentStart input streamKw) =
      .ok (some endstreamKw) ∧
    objectEnd input lineStart (endstreamKw + (ascii "endstream").length) = .ok endPos ∧
    scanObjstmMembers input (contentStart input streamKw) endstreamKw = .ok (some members)

/-- If there is an object stream its type line is ended. -/
def TypeLinesEnd (input : Bytes) (lineStart kwEnd : ℕ) : Prop :=
  ∀ streamKw typePos, MeetsObjectStream input lineStart kwEnd streamKw typePos →
    TypeLineEnds input kwEnd streamKw typePos

/-- No loop is endless, and where `P` holds nothing panics. -/
def FaultIf (P : Prop) : Stop QdfError → Prop
  | .error _ => False
  | .panic => P
  | .endless => True

theorem faultIf_isFault (e : Stop QdfError) (h : FaultIf P e) : e.IsFault := by
  cases e with
  | error e => exact h
  | panic => trivial
  | endless => trivial

theorem faultIf_of_sound {α : Type} {x : Fix α} {Q : α → Prop} (h : Sound x Q) :
    Safe (FaultIf P) x Q :=
  h.weaken faultIf_isFault

theorem parseError_sound {α : Type} {Q : α → Prop} (offset : ℕ) (message : String) :
    Sound (parseError offset message : Fix α) Q :=
  .error id

theorem afterDict_sound (h : kwEnd ≤ input.length) : Sound (afterDict input kwEnd) fun r =>
    ∀ p, r = some p → kwEnd ≤ p := by
  rw [afterDict, sliceFrom_eq h]
  refine Safe.bind (Q := fun rest => rest = input.drop kwEnd) (.ok rfl) ?_
  rintro _ rfl
  split
  next => exact .pure fun _ => nofun
  next off hoff =>
    have hprefix := findSubslice_begins hoff
    rw [List.drop_drop] at hprefix
    obtain ⟨rest, hrest⟩ := hprefix
    have hfirst : input[kwEnd + off]? = some 0x3c := by
      rw [← List.head?_drop, ← hrest]
      rfl
    have hsecond : input[kwEnd + off + 1]? = some 0x3c := by
      rw [← List.head?_drop, ← List.drop_drop, ← hrest]
      rfl
    refine (findMatchingDictClose_sound hfirst hsecond).bind ?_
    intro r hr
    refine .pure ?_
    intro p hp
    obtain ⟨c, rfl, rfl⟩ := Option.map_eq_some_iff.mp hp
    have hc := hr c rfl
    omega

theorem ownStream_sound (h : kwEnd ≤ input.length) : Sound (ownStream input kwEnd) fun r =>
    ∀ streamKw, r = some streamKw → kwEnd ≤ streamKw ∧ streamKw + 6 ≤ input.length := by
  rw [ownStream]
  refine (afterDict_sound h).bind ?_
  rintro (_ | start) hstart
  · exact .pure fun _ => nofun
  have hle := hstart start rfl
  refine (findLineKeywordFrom_sound (by decide) start).bind ?_
  rintro (_ | streamKw) hstream
  · exact .pure fun _ => nofun
  obtain ⟨hge, hend⟩ := hstream streamKw rfl
  have hbounds : kwEnd ≤ streamKw ∧ streamKw + 6 ≤ input.length := ⟨hle.trans hge, hend⟩
  refine (findLineKeywordFrom_sound (by decide) kwEnd).bind ?_
  rintro (_ | endobj) -
  · refine .pure ?_
    rintro _ ⟨⟩
    exact hbounds
  · refine .pure ?_
    intro streamKw' heq
    split_ifs at heq
    cases heq
    exact hbounds

theorem contentStart_bounds (h : streamKw + 6 ≤ input.length) :
    streamKw + 6 ≤ contentStart input streamKw ∧ contentStart input streamKw ≤ input.length := by
  have hlt : ∀ i b, input[i]? = some b → i < input.length := fun i b hb =>
    (List.getElem?_eq_some_iff.mp hb).choose
  have hlength : (ascii "stream").length = 6 := rfl
  rw [contentStart, hlength]
  split_ifs with hcr hlf hlf
  · have hnext := hlt _ _ hlf
    omega
  · have hnext := hlt _ _ hcr
    omega
  · have hnext := hlt _ _ hlf
    omega
  · omega

theorem objectEnd_sound (lineStart start : ℕ) : Sound (objectEnd input lineStart start) fun e =>
    start + 6 ≤ e ∧ e ≤ input.length := by
  rw [objectEnd]
  refine (findLineKeywordFrom_sound (by decide) start).bind ?_
  rintro (_ | endobj) hendobj
  · exact parseError_sound _ _
  · obtain ⟨hge, hend⟩ := hendobj endobj rfl
    have hlength : (ascii "endobj").length = 6 := rfl
    rw [hlength] at hend
    refine .pure ?_
    rw [hlength]
    omega

/-- The positions of a body are in order. -/
def BodyOk (input : Bytes) (lineStart endPos : ℕ) : ObjectBody → Prop
  | .plain _ marker _ => ∀ m, marker = some m → m ≤ endPos
  | .objStm typeLineEnd first endstreamKw members _ => lineStart ≤ typeLineEnd ∧
      typeLineEnd ≤ input.length ∧ MembersFrom first endstreamKw members ∧ endstreamKw ≤ endPos
  | .xrefStream typeLineEnd contentStart => lineStart ≤ typeLineEnd ∧
      typeLineEnd ≤ input.length ∧ contentStart ≤ input.length

/-- An object stream is read, or panics where its type line is not ended. -/
theorem objStmBody_safe {endstreamKw : ℕ} (hline : lineStart ≤ kwEnd)
    (htype : kwEnd + typePos ≤ streamKw) (hstream : streamKw + 6 ≤ input.length)
    (hendstream : endstreamKw ≤ input.length) (hend : endstreamKw ≤ endPos)
    (hP : P → ∀ members, scanObjstmMembers input (contentStart input streamKw) endstreamKw =
      .ok (some members) → TypeLineEnds input kwEnd streamKw typePos) :
    Safe (FaultIf P) (objStmBody input lineStart kwEnd streamKw endstreamKw typePos)
      (BodyOk input lineStart endPos) := by
  rw [objStmBody]
  refine (faultIf_of_sound (lineEndAfter_sound (by omega))).bind ?_
  rintro typeLineEnd ⟨hge, hle, -, hended⟩
  have hmembers := scanObjstmMembers_sound (contentStart input streamKw) hendstream
  cases hscan : scanObjstmMembers input (contentStart input streamKw) endstreamKw with
  | error e => exact Safe.error fun h => hmembers.of_error hscan (faultIf_isFault e h)
  | ok r =>
    rcases r with _ | ⟨first, members⟩
    · exact faultIf_of_sound (parseError_sound _ _)
    · have hfrom := hmembers.of_ok hscan first members rfl
      dsimp only [bind, Except.bind]
      rcases Nat.lt_or_ge streamKw typeLineEnd with hlt | hge'
      · rw [sliceBetween_panic hlt]
        refine Safe.error fun h => ?_
        have hends := hP h _ hscan
        exact absurd ((hended streamKw (by omega)).mpr hends) (by omega)
      · rw [sliceBetween_eq hge' (by omega)]
        refine (faultIf_of_sound (findExtends_sound _)).bind ?_
        intro extendsEntry _
        exact .pure ⟨by omega, hle, hfrom, hend⟩

/-- What the scan relies on for an object that ends at `endPos`. -/
def ObjectOk (input : Bytes) (lineStart kwEnd : ℕ) (r : ObjectBody × ℕ) : Prop :=
  kwEnd < r.2 ∧ r.2 ≤ input.length ∧ BodyOk input lineStart r.2 r.1

/-- The marker of a stream stands behind its `endstream` line, in which no `endobj` begins. -/
theorem marker_le {endstreamKw : ℕ} (hobjectEnd : objectEnd input lineStart
      (endstreamKw + (ascii "endstream").length) = .ok endPos) :
    ∀ m, (if endstreamKw ≤ input.length ∧
        (ascii "endstream\n").isPrefixOf (input.drop endstreamKw) then
      some (endstreamKw + (ascii "endstream\n").length) else none) = some m → m ≤ endPos := by
  have hend := (objectEnd_sound _ _).of_ok hobjectEnd
  have hlength : (ascii "endstream").length = 9 := rfl
  have hlength' : (ascii "endstream\n").length = 10 := rfl
  rw [hlength] at hend
  rw [hlength']
  intro m hm
  split_ifs at hm
  cases hm
  omega

theorem streamBody_safe {endstreamKw : ℕ} (hline : lineStart ≤ kwEnd) (hkw : kwEnd ≤ streamKw)
    (hstream : streamKw + 6 ≤ input.length)
    (hcontent : contentStart input streamKw ≤ endstreamKw)
    (hendstream : endstreamKw ≤ input.length) (hobjectEnd : objectEnd input lineStart
      (endstreamKw + (ascii "endstream").length) = .ok endPos)
    (hP : P → ∀ dict typePos members, sliceBetween input kwEnd streamKw = (.ok dict : Fix Bytes) →
      findRawTypeLine dict (ascii "/Type /ObjStm") = .ok (some typePos) →
      scanObjstmMembers input (contentStart input streamKw) endstreamKw = .ok (some members) →
      TypeLineEnds input kwEnd streamKw typePos) :
    Safe (FaultIf P) (streamBody input lineStart kwEnd streamKw endstreamKw)
      (BodyOk input lineStart endPos) := by
  have hend := (objectEnd_sound _ _).of_ok hobjectEnd
  have hslice := sliceBetween_eq (ε := QdfError) hkw (by omega : streamKw ≤ input.length)
  rw [streamBody, hslice]
  dsimp only [bind, Except.bind]
  have htype := findRawTypeLine_sound (slice input kwEnd streamKw) (ascii "/Type /ObjStm")
  cases hfind : findRawTypeLine (slice input kwEnd streamKw) (ascii "/Type /ObjStm") with
  | error e => exact Safe.error fun h => htype.of_error hfind (faultIf_isFault e h)
  | ok r =>
    rcases r with _ | typePos
    · dsimp only
      rw [sub_eq hcontent]
      exact .pure (marker_le hobjectEnd)
    · have hle := htype.of_ok hfind typePos rfl
      rw [slice_length_of_le (by omega)] at hle
      dsimp only
      exact objStmBody_safe hline (by omega) hstream hendstream (by omega)
        fun h members => hP h _ typePos members hslice hfind

theorem objectBody_safe (hline : lineStart ≤ kwEnd) (hkw : kwEnd < input.length)
    (hP : P → TypeLinesEnd input lineStart kwEnd) : Safe (FaultIf P)
      (objectBody input lineStart kwEnd) (ObjectOk input lineStart kwEnd) := by
  have hplain : Safe (FaultIf P) (do
      return (.plain none none 0, ← objectEnd input lineStart kwEnd) : Fix (ObjectBody × ℕ))
      (ObjectOk input lineStart kwEnd) := by
    refine (faultIf_of_sound (objectEnd_sound lineStart kwEnd)).bind ?_
    rintro endPos ⟨hge, hle⟩
    exact .pure ⟨by dsimp only; omega, hle, fun _ => nofun⟩
  have hown := ownStream_sound (le_of_lt hkw)
  rw [objectBody]
  cases hstream : ownStream input kwEnd with
  | error e => exact Safe.error fun h => hown.of_error hstream (faultIf_isFault e h)
  | ok r =>
    rcases r with _ | streamKw
    · exact hplain
    obtain ⟨hge, hend⟩ := hown.of_ok hstream streamKw rfl
    have hcontent := contentStart_bounds hend
    have hslice := sliceBetween_eq (ε := QdfError) hge (by omega : streamKw ≤ input.length)
    dsimp only [bind, Except.bind]
    rw [hslice]
    dsimp only
    have hxref := findRawTypeLine_sound (slice input kwEnd streamKw) (ascii "/Type /XRef")
    cases hfind : findRawTypeLine (slice input kwEnd streamKw) (ascii "/Type /XRef") with
    | error e => exact Safe.error fun h => hxref.of_error hfind (faultIf_isFault e h)
    | ok r =>
      rcases r with _ | typePos
      · dsimp only
        have hkeyword : Sound (findLineKeywordFrom input (ascii "endstream")
            (contentStart input streamKw)) _ :=
          findLineKeywordFrom_sound (by decide) _
        cases hendstream : findLineKeywordFrom input (ascii "endstream")
            (contentStart input streamKw) with
        | error e => exact Safe.error fun h => hkeyword.of_error hendstream (faultIf_isFault e h)
        | ok r =>
          rcases r with _ | endstreamKw
          · exact hplain
          obtain ⟨hcontentLe, hendstreamLe⟩ := hkeyword.of_ok hendstream endstreamKw rfl
          dsimp only
          cases hobjectEnd : objectEnd input lineStart
              (endstreamKw + (ascii "endstream").length) with
          | error e =>
            exact Safe.error fun h =>
              (objectEnd_sound _ _).of_error hobjectEnd (faultIf_isFault e h)
          | ok endPos =>
            have hend' := (objectEnd_sound _ _).of_ok hobjectEnd
            refine (streamBody_safe hline hge hend hcontentLe (by omega) hobjectEnd ?_).bind ?_
            · intro h dict typePos members hdict htype hmembers
              rw [hslice] at hdict
              cases hdict
              exact hP h streamKw typePos ⟨hstream, ⟨_, hslice, hfind, htype⟩,
                ⟨endstreamKw, endPos, members, hendstream, hobjectEnd, hmembers⟩⟩
            · intro body hbody
              exact .pure ⟨by dsimp only; omega, hend'.2, hbody⟩
      · have hle := hxref.of_ok hfind typePos rfl
        rw [slice_length_of_le (by omega)] at hle
        dsimp only
        refine (faultIf_of_sound (lineEndAfter_sound (by omega))).bind ?_
        rintro typeLineEnd ⟨hge', hle', -, -⟩
        exact .pure ⟨by dsimp only; omega, hcontent.2, by omega, hle', hcontent.2⟩

/-- Where an object stream's type line is not ended the object cannot be read. -/
theorem objectBody_panics (hkw : kwEnd < input.length) (h : ¬TypeLinesEnd input lineStart kwEnd) :
    objectBody input lineStart kwEnd = .error .panic := by
  rw [TypeLinesEnd] at h
  push Not at h
  obtain ⟨streamKw, typePos, hmeets, hopen⟩ := h
  obtain ⟨dict, hdict, hxref, htype⟩ := hmeets.type
  obtain ⟨endstreamKw, endPos, ⟨first, members⟩, hendstream, hobjectEnd, hmembers⟩ := hmeets.members
  obtain ⟨hge, hend⟩ := (ownStream_sound (le_of_lt hkw)).of_ok hmeets.stream streamKw rfl
  have hle := (findRawTypeLine_sound _ _).of_ok htype typePos rfl
  rw [sliceBetween_eq hge (by omega)] at hdict
  cases hdict
  rw [slice_length_of_le (by omega)] at hle
  obtain ⟨typeLineEnd, hline⟩ : ∃ e, lineEndAfter input (kwEnd + typePos) = .ok e :=
    lineEndAfter_ok (by omega)
  obtain ⟨-, -, -, hended⟩ := (lineEndAfter_sound (by omega)).of_ok hline
  have hlt : streamKw < typeLineEnd := by
    by_contra hnot
    exact hopen ((hended streamKw (by omega)).mp (by omega))
  rw [objectBody, hmeets.stream]
  dsimp only [bind, Except.bind]
  rw [sliceBetween_eq hge (by omega)]
  dsimp only
  rw [hxref]
  dsimp only
  rw [hendstream]
  dsimp only
  rw [hobjectEnd]
  dsimp only
  rw [streamBody, sliceBetween_eq hge (by omega)]
  dsimp only [bind, Except.bind]
  rw [htype]
  dsimp only
  rw [objStmBody, hline]
  dsimp only [bind, Except.bind]
  rw [hmembers]
  dsimp only
  rw [sliceBetween_panic hlt]

end QdfFix

end Flpdf
