import Flpdf.Xref.ReconstructionSpec

/-!
# The reconstruction scan is independent of blocks

Blocks only decide when a line is processed, never what it says: the scan of a
file, however its reads are served, is the reference scan of its physical lines.
From that follow the offsets it records and the inputs on which it aborts.
-/

namespace Flpdf

open Std

/-! ## The two loops -/

section Loops

variable {src : Source} (deletedObjects : ExtTreeSet ℕ) (st : ScanState)

/-- The scan stands inside the file and has collected the open line so far. -/
structure Scanning (src : Source) (st : ScanState) : Prop where
  start_le : st.lineStart ≤ st.position
  pos_le : st.position ≤ src.content.length
  line : st.line = slice src.content st.lineStart st.position

/-- What the reference scan makes of the open line and the rest of the file. -/
def remaining (src : Source) (deletedObjects : ExtTreeSet ℕ) (st : ScanState) :
    Except RecoveryError Unit × Recovered :=
  scanLines src.content deletedObjects
    (lineSpans st.lineStart st.position (src.content.drop st.position)) st.recovered

theorem isEol_delimiter {b : UInt8} (h : isEol b = true) : isTokenDelimiter b = true := by
  have hb : b = 0x0a ∨ b = 0x0d := by
    simpa [isEol] using h
  rcases hb with rfl | rfl <;> rfl

/-- The bytes of a block leave the reference outcome as it is. -/
theorem scanChunk_spec {windowStart : ℕ} {window : Bytes}
    (hwindow : window <+: src.content.drop windowStart) (rest tail : Bytes)
    (h : Scanning src st) (hrest : src.content.drop st.position = rest ++ tail) :
    ∃ result st', scanChunk src deletedObjects windowStart window rest st = some (result, st') ∧
      (∀ e, result = .error e → remaining src deletedObjects st = (.error e, st'.recovered)) ∧
      (result = .ok () → Scanning src st' ∧ st'.position = st.position + rest.length ∧
        remaining src deletedObjects st = remaining src deletedObjects st') := by
  induction rest generalizing st with
  | nil =>
    refine ⟨_, _, rfl, ?_, fun _ => ⟨h, rfl, rfl⟩⟩
    rintro e ⟨⟩
  | cons byte rest ih =>
    rw [List.cons_append] at hrest
    obtain ⟨hbyte, hdrop⟩ := drop_eq_cons_iff.mp hrest
    have hlt : st.position < src.content.length := (List.getElem?_eq_some_iff.mp hbyte).1
    rw [scanChunk]
    by_cases heol : isEol byte = true
    · rw [if_pos heol]
      obtain ⟨reads', hprocess⟩ := processLine_spec src deletedObjects hwindow
        { st with position := st.position + 1 } h.start_le hlt.le
        (by
          rw [hrest]
          rintro d ⟨⟩
          exact isEol_delimiter heol) h.line
      have hremaining : remaining src deletedObjects st = continueWith st.recovered
          (scanLines src.content deletedObjects
            (lineSpans (st.position + 1) (st.position + 1) (rest ++ tail)))
          (scanLine src.content deletedObjects st.recovered (st.lineStart, st.position)) := by
        rw [remaining, hrest, lineSpans, if_pos heol, scanLines]
      rw [hprocess]
      cases hscan : scanLine src.content deletedObjects st.recovered
          (st.lineStart, st.position) with
      | error e =>
        rw [hscan] at hremaining
        refine ⟨_, _, rfl, ?_, ?_⟩
        · rintro e' ⟨⟩
          exact hremaining
        · rintro ⟨⟩
      | ok recovered =>
        rw [hscan] at hremaining
        obtain ⟨result, st', hchunk, herror, hok⟩ := ih
          { line := []
            lineStart := st.position + 1
            position := st.position + 1
            reads := reads'
            recovered := recovered }
          ⟨le_rfl, hlt, (slice_self _ _).symm⟩ hdrop
        have hnext : remaining src deletedObjects st = remaining src deletedObjects
            { line := []
              lineStart := st.position + 1
              position := st.position + 1
              reads := reads'
              recovered := recovered } := by
          rw [hremaining, remaining, hdrop, continueWith]
        refine ⟨result, st', hchunk, ?_, ?_⟩
        · intro e he
          rw [hnext]
          exact herror e he
        · intro he
          obtain ⟨hscanning, hpos, hsame⟩ := hok he
          refine ⟨hscanning, ?_, hnext.trans hsame⟩
          rw [hpos, List.length_cons]
          simp only
          omega
    · rw [if_neg heol]
      obtain ⟨result, st', hchunk, herror, hok⟩ := ih
        { st with line := st.line ++ [byte], position := st.position + 1 }
        ⟨Nat.le_succ_of_le h.start_le, hlt, by rw [h.line, slice_succ h.start_le hbyte]⟩ hdrop
      have hnext : remaining src deletedObjects st = remaining src deletedObjects
          { st with line := st.line ++ [byte], position := st.position + 1 } := by
        rw [remaining, remaining, hrest, hdrop, lineSpans, if_neg heol]
      refine ⟨result, st', hchunk, ?_, ?_⟩
      · intro e he
        rw [hnext]
        exact herror e he
      · intro he
        obtain ⟨hscanning, hpos, hsame⟩ := hok he
        refine ⟨hscanning, ?_, hnext.trans hsame⟩
        rw [hpos, List.length_cons]
        simp only
        omega

/-- However the source serves its reads, the blocks together are the file. -/
theorem scanBlocks_spec (fuel : ℕ) (last : ℕ × Bytes) (h : Scanning src st)
    (hlast : last.2 <+: src.content.drop last.1)
    (hfuel : src.content.length - st.position < fuel) :
    ∃ result st', scanBlocks src deletedObjects fuel last st = some (result, st') ∧
      (∀ e, result = .error e → remaining src deletedObjects st = (.error e, st'.recovered)) ∧
      (∀ last', result = .ok last' → Scanning src st' ∧ st'.position = src.content.length ∧
        last'.2 <+: src.content.drop last'.1 ∧
        remaining src deletedObjects st = remaining src deletedObjects st') := by
  induction fuel generalizing st last with
  | zero => omega
  | succ fuel ih =>
    rw [scanBlocks]
    by_cases hlt : st.position < src.content.length
    · have hne := RecoveryReader.read_ne_nil src st.reads hlt
      have hread := RecoveryReader.read_isPrefix src st.reads st.position
      obtain ⟨tail, htail⟩ := hread
      have hempty : (src.read st.reads st.position).isEmpty = false := by
        simpa using hne
      have hpos : 0 < (src.read st.reads st.position).length := List.length_pos_iff.mpr hne
      simp only [hempty, Bool.false_eq_true, if_false]
      obtain ⟨result, st', hchunk, herror, hok⟩ := scanChunk_spec deletedObjects
        { st with reads := st.reads + 1 }
        (RecoveryReader.read_isPrefix src st.reads st.position)
        (src.read st.reads st.position) tail ⟨h.start_le, h.pos_le, h.line⟩ htail.symm
      rw [hchunk]
      cases result with
      | error e =>
        refine ⟨_, _, rfl, ?_, ?_⟩
        · rintro e' ⟨⟩
          exact herror e rfl
        · rintro last' ⟨⟩
      | ok u =>
        obtain ⟨hscanning, hposition, hsame⟩ := hok rfl
        obtain ⟨result, st'', hblocks, herror', hok'⟩ := ih st'
          (st.position, src.read st.reads st.position) hscanning
          (RecoveryReader.read_isPrefix src st.reads st.position) (by
            rw [hposition]
            simp only
            omega)
        refine ⟨result, st'', hblocks, ?_, ?_⟩
        · intro e he
          exact hsame.trans (herror' e he)
        · intro last' he
          obtain ⟨hs, hp, hl, hr⟩ := hok' last' he
          exact ⟨hs, hp, hl, hsame.trans hr⟩
    · have hnil : src.read st.reads st.position = [] := by
        rw [Source.read, List.drop_eq_nil_of_le (by omega), List.take_nil]
      simp only [hnil, List.isEmpty_nil, if_true]
      refine ⟨_, _, rfl, ?_, ?_⟩
      · rintro e ⟨⟩
      · rintro last' ⟨⟩
        have hend : st.position = src.content.length := by
          have := h.pos_le
          omega
        exact ⟨⟨h.start_le, h.pos_le, h.line⟩, hend, hlast, rfl⟩

end Loops

/-- A line without bytes has no header. -/
theorem lineHeader_empty (content : Bytes) : lineHeader content (content.length, content.length) =
    none := by
  obtain ⟨number, hplain, hiff, _, _⟩ := plainToken_integer (Nat.le_refl content.length)
  have hrun : runAt content content.length = [] := by
    simp [runAt, skipGap, regularRun]
  have hs : isScanInteger number = false := by
    rw [Bool.eq_false_iff]
    intro h
    have := ((isScanInteger_iff le_rfl hplain).mp h).1
    rw [hrun] at this
    cases this
  simp [lineHeader, hplain, hs]

/-- The scan is the reference scan of the physical lines, for every way the source
serves its reads. -/
theorem recover_eq_scanLines (src : Source) (deletedObjects : ExtTreeSet ℕ)
    (registration : XrefRegistration) :
    recoverXrefEntriesFromSource src deletedObjects registration =
      some (scanLines src.content deletedObjects (physicalLines src.content)
        ⟨∅, registration⟩) := by
  obtain ⟨result, st', hblocks, herror, hok⟩ := scanBlocks_spec deletedObjects
    { line := []
      lineStart := 0
      position := 0
      reads := 0
      recovered := ⟨∅, registration⟩ }
    (src.content.length + 1) (0, [])
    (⟨le_rfl, Nat.zero_le _, (slice_self _ _).symm⟩ : Scanning src _) List.nil_prefix (by simp)
  simp only [recoverXrefEntriesFromSource, hblocks]
  cases result with
  | error e => exact congrArg some (herror e rfl).symm
  | ok last =>
    obtain ⟨hscanning, hposition, hlast, hsame⟩ := hok last rfl
    have hlines : scanLines src.content deletedObjects (physicalLines src.content)
        ⟨∅, registration⟩ = continueWith st'.recovered (fun recovered => (.ok (), recovered))
          (scanLine src.content deletedObjects st'.recovered
            (st'.lineStart, src.content.length)) := by
      have hfinal : remaining src deletedObjects st' =
          continueWith st'.recovered (fun recovered => (.ok (), recovered))
            (scanLine src.content deletedObjects st'.recovered
              (st'.lineStart, src.content.length)) := by
        rw [remaining, hposition, List.drop_length, lineSpans, scanLines]
        rfl
      exact hsame.trans hfinal
    rw [hlines]
    dsimp only
    by_cases hempty : st'.line.isEmpty = true
    · have hstart : st'.lineStart = src.content.length := by
        have hlen := congrArg List.length hscanning.line
        rw [List.isEmpty_iff.mp hempty, slice_length_of_le hscanning.pos_le] at hlen
        have := hscanning.start_le
        simp only [List.length_nil] at hlen
        omega
      rw [if_pos hempty, hstart, scanLine, lineHeader_empty]
      rfl
    · obtain ⟨reads', hprocess⟩ := processLine_spec src deletedObjects hlast st'
        (e := src.content.length) (hposition ▸ hscanning.start_le) le_rfl (by simp)
        (hposition ▸ hscanning.line)
      rw [if_neg hempty, hprocess]
      cases scanLine src.content deletedObjects st'.recovered
        (st'.lineStart, src.content.length) <;> rfl

/-! ## What the reference scan records -/

section Entries

variable {content : Bytes}

/-- The tokens of a header spell integers. -/
theorem lineHeader_isIntText {line : ℕ × ℕ} {number generation : Token}
    (h : lineHeader content line = some (number, generation)) :
    isIntText number.value = true ∧ isIntText generation.value = true := by
  have hp : line.1 ≤ content.length := by
    by_contra hp
    have hset : Tokenizer.setPosition { input := content } line.1 =
        .error (line.1, ascii "tokenizer position beyond end of input") :=
      if_pos (Nat.lt_of_not_le hp)
    simp [lineHeader, plainToken, hset] at h
  obtain ⟨number', hplain, _, _, _⟩ := plainToken_integer hp
  simp only [lineHeader, hplain, Option.bind_eq_bind, Option.bind_some, Bool.and_eq_true,
    decide_eq_true_eq] at h
  split_ifs at h with hs
  obtain ⟨hvalue, _, _, hle⟩ := scanInteger_fields hp hplain hs.1
  obtain ⟨generation', hplain', _, _, _⟩ := plainToken_integer hle
  by_cases hs' : isScanInteger generation' = true
  · rw [headerTail_of_integer hle hplain' hs'] at h
    split_ifs at h
    · simp only [Option.map_some, Option.some.injEq, Prod.mk.injEq] at h
      obtain ⟨rfl, rfl⟩ := h
      rw [hvalue, (scanInteger_fields hle hplain' hs').1]
      exact ⟨((isScanInteger_iff hp hplain).mp hs.1).1,
        ((isScanInteger_iff hle hplain').mp hs').1⟩
    · simp at h
  · rw [headerTail_eq_none hplain' (Bool.eq_false_iff.mpr hs')] at h
    simp at h

theorem parseScanInteger_of_fits {token : Token} (h : isIntText token.value = true)
    (hfits : FitsInt (intValue token.value)) :
    parseScanInteger token = .ok (intValue token.value) := by
  simp only [parseScanInteger, qpdfStringToIntChecked_of_fits h hfits]

theorem parseScanInteger_of_not_fits {token : Token} (h : isIntText token.value = true)
    (hfits : ¬ FitsInt (intValue token.value)) :
    ∃ message, parseScanInteger token = .error (.system message) := by
  obtain ⟨message, hmessage⟩ := qpdfStringToIntChecked_of_not_fits h hfits
  exact ⟨message, by simp only [parseScanInteger, hmessage]⟩

/-- A line whose header overflows aborts the scan. -/
theorem scanLine_of_overflows {line : ℕ × ℕ} (h : lineOverflows content line)
    (deletedObjects : ExtTreeSet ℕ) (recovered : Recovered) :
    ∃ message, scanLine content deletedObjects recovered line = .error (.system message) := by
  obtain ⟨number, generation, hheader, hfits⟩ := h
  obtain ⟨hnumber, hgeneration⟩ := lineHeader_isIntText hheader
  by_cases hn : FitsInt (intValue number.value)
  · have hg : ¬ FitsInt (intValue generation.value) := fun hg => hfits ⟨hn, hg⟩
    obtain ⟨message, hmessage⟩ := parseScanInteger_of_not_fits hgeneration hg
    refine ⟨message, ?_⟩
    simp only [scanLine, hheader, reconstructedObjectRef, parseScanInteger_of_fits hnumber hn,
      hmessage]
  · obtain ⟨message, hmessage⟩ := parseScanInteger_of_not_fits hnumber hn
    refine ⟨message, ?_⟩
    simp only [scanLine, hheader, reconstructedObjectRef, hmessage]

/-- Any other line records its entry, if it has one. -/
theorem scanLine_of_fits {line : ℕ × ℕ} (h : ¬ lineOverflows content line)
    (deletedObjects : ExtTreeSet ℕ) (recovered : Recovered) :
    scanLine content deletedObjects recovered line =
      .ok (match lineEntry content line with
        | none => recovered
        | some (ref, offset) =>
          recovered.insertReconstructedXrefEntry deletedObjects ref offset) := by
  cases hheader : lineHeader content line with
  | none => simp only [scanLine, lineEntry, hheader]
  | some header =>
    obtain ⟨number, generation⟩ := header
    obtain ⟨hnumber, hgeneration⟩ := lineHeader_isIntText hheader
    have hfits : FitsInt (intValue number.value) ∧ FitsInt (intValue generation.value) := by
      by_contra hfits
      exact h ⟨number, generation, hheader, hfits⟩
    simp only [scanLine, lineEntry, hheader, reconstructedObjectRef,
      parseScanInteger_of_fits hnumber hfits.1, parseScanInteger_of_fits hgeneration hfits.2]
    by_cases hvalid : 0 < intValue number.value ∧ 0 ≤ intValue generation.value ∧
        intValue generation.value < 65535
    · rw [if_pos hvalid, if_neg (by omega)]
    · rw [if_neg hvalid, if_pos (by omega)]

/-- An entry of a line that does not overflow is a valid reference. -/
theorem lineEntry_valid {line : ℕ × ℕ} {ref : ObjectRef} {offset : ℕ}
    (h : ¬ lineOverflows content line) (hentry : lineEntry content line = some (ref, offset)) :
    ref.Valid := by
  rw [lineEntry] at hentry
  cases hheader : lineHeader content line with
  | none => simp [hheader] at hentry
  | some header =>
    obtain ⟨number, generation⟩ := header
    have hfits : FitsInt (intValue number.value) := by
      by_contra hfits
      exact h ⟨number, generation, hheader, fun hf => hfits hf.1⟩
    simp only [hheader] at hentry
    split_ifs at hentry with hvalid
    simp only [Option.some.injEq, Prod.mk.injEq] at hentry
    obtain ⟨rfl, _⟩ := hentry
    unfold FitsInt at hfits
    simp only [ObjectRef.Valid]
    omega

/-- Without an overflow the scan records the entries of all lines in order. -/
theorem scanLines_of_fits (deletedObjects : ExtTreeSet ℕ) (lines : List (ℕ × ℕ))
    (h : ∀ line ∈ lines, ¬ lineOverflows content line) (recovered : Recovered) :
    scanLines content deletedObjects lines recovered =
      (.ok (), (lines.filterMap (lineEntry content)).foldl
        (fun recovered entry =>
          recovered.insertReconstructedXrefEntry deletedObjects entry.1 entry.2) recovered) := by
  induction lines generalizing recovered with
  | nil => rfl
  | cons line lines ih =>
    rw [scanLines, scanLine_of_fits (h line (by simp)), List.filterMap_cons]
    cases lineEntry content line <;> exact ih (fun l hl => h l (by simp [hl])) _

/-- With an overflow on some line it aborts. -/
theorem scanLines_of_overflows (deletedObjects : ExtTreeSet ℕ) (lines : List (ℕ × ℕ))
    (h : ∃ line ∈ lines, lineOverflows content line) (recovered : Recovered) :
    ∃ message recovered', scanLines content deletedObjects lines recovered =
      (.error (.system message), recovered') := by
  induction lines generalizing recovered with
  | nil => simp at h
  | cons line lines ih =>
    rw [scanLines]
    by_cases hline : lineOverflows content line
    · obtain ⟨message, hscan⟩ := scanLine_of_overflows hline deletedObjects recovered
      exact ⟨message, recovered, by rw [hscan, continueWith]⟩
    · rw [scanLine_of_fits hline]
      apply ih
      obtain ⟨line', hmem, hover⟩ := h
      rcases List.mem_cons.mp hmem with rfl | hmem
      · exact absurd hover hline
      · exact ⟨line', hmem, hover⟩

end Entries

/-! ## Lookups after a run of recovered headers -/

/-- The entry a run of recovered headers leaves for a reference. -/
def lastOf (found : List (ObjectRef × ℕ)) (ref : ObjectRef) : Option XrefEntry :=
  (lastOffsetOf found ref).map .uncompressed

theorem lastOf_concat (found : List (ObjectRef × ℕ)) (entry : ObjectRef × ℕ) (ref : ObjectRef) :
    lastOf (found ++ [entry]) ref =
      if entry.1 = ref then some (.uncompressed entry.2) else lastOf found ref := by
  rw [lastOf, lastOffsetOf, List.reverse_append, List.reverse_singleton, List.singleton_append]
  by_cases h : entry.1 = ref <;> simp [h, lastOf, lastOffsetOf]

section Fold

variable (deletedObjects : ExtTreeSet ℕ) (found : List (ObjectRef × ℕ)) (recovered : Recovered)

/-- The tables after a run of recovered headers. -/
def insertAll : Recovered :=
  found.foldl (fun recovered entry =>
    recovered.insertReconstructedXrefEntry deletedObjects entry.1 entry.2) recovered

theorem insertAll_concat (entry : ObjectRef × ℕ) :
    insertAll deletedObjects (found ++ [entry]) recovered =
      (insertAll deletedObjects found recovered).insertReconstructedXrefEntry deletedObjects
        entry.1 entry.2 := by
  rw [insertAll, List.foldl_concat, insertAll]

theorem insertAll_entries (ref : ObjectRef) :
    (insertAll deletedObjects found recovered).entries[ref]? =
      if ref.number ∈ deletedObjects then recovered.entries[ref]?
      else (lastOf found ref).or recovered.entries[ref]? := by
  induction found using List.reverseRecOn with
  | nil => simp [insertAll, lastOf, lastOffsetOf]
  | append_singleton found entry ih =>
    rw [insertAll_concat, lastOf_concat, Recovered.insertReconstructedXrefEntry]
    by_cases hdel : entry.1.number ∈ deletedObjects
    · simp only [if_pos hdel, ih]
      by_cases href : entry.1 = ref
      · simp [← href, hdel]
      · simp [href]
    · simp only [if_neg hdel, getElem?_insert_ite, ih]
      by_cases href : entry.1 = ref
      · simp [← href, hdel]
      · simp [href]

theorem insertReconstructed_deletedObjects (s : XrefRegistration) (ref : ObjectRef) (offset : ℕ) :
    (s.insertReconstructedXrefEntry ref offset).deletedObjects = s.deletedObjects := by
  unfold XrefRegistration.insertReconstructedXrefEntry
  cases QpdfObjGen.tryFromObjectRef ref with
  | error e => rfl
  | ok key => exact (apply_ite _ _ _ _).trans (ite_self _)

theorem insertAll_deletedObjects :
    (insertAll deletedObjects found recovered).registration.deletedObjects =
      recovered.registration.deletedObjects := by
  induction found using List.reverseRecOn with
  | nil => rfl
  | append_singleton found entry ih =>
    rw [insertAll_concat]
    exact (insertReconstructed_deletedObjects _ _ _).trans ih

/-- The registration's own suppressed numbers decide which headers it keeps. -/
theorem insertAll_registration (hvalid : ∀ entry ∈ found, entry.1.Valid) (ref : ObjectRef) :
    (insertAll deletedObjects found recovered).registration.entries[ref]? =
        (if ref.number ∈ recovered.registration.deletedObjects then
          recovered.registration.entries[ref]?
        else (lastOf found ref).or recovered.registration.entries[ref]?) ∧
      (insertAll deletedObjects found recovered).registration.rawEntries[
          (⟨ref.number, ref.generation⟩ : QpdfObjGen)]? =
        (if ref.number ∈ recovered.registration.deletedObjects then
          recovered.registration.rawEntries[(⟨ref.number, ref.generation⟩ : QpdfObjGen)]?
        else (lastOf found ref).or
          recovered.registration.rawEntries[(⟨ref.number, ref.generation⟩ : QpdfObjGen)]?) := by
  induction found using List.reverseRecOn with
  | nil => simp [insertAll, lastOf, lastOffsetOf]
  | append_singleton found entry ih =>
    obtain ⟨ihentries, ihraw⟩ := ih (fun e he => hvalid e (by simp [he]))
    have hkey : (⟨entry.1.number, entry.1.generation⟩ : QpdfObjGen) =
        ⟨ref.number, ref.generation⟩ ↔ entry.1 = ref := by
      obtain ⟨⟨number, generation⟩, offset⟩ := entry
      obtain ⟨number', generation'⟩ := ref
      simp only [QpdfObjGen.mk.injEq, ObjectRef.mk.injEq]
      omega
    rw [insertAll_concat, lastOf_concat, Recovered.insertReconstructedXrefEntry,
      XrefRegistration.insertReconstructedXrefEntry, (hvalid entry (by simp)).tryFromObjectRef]
    dsimp only
    rw [insertAll_deletedObjects]
    by_cases hdel : entry.1.number ∈ recovered.registration.deletedObjects
    · simp only [if_pos hdel, ihentries, ihraw]
      by_cases href : entry.1 = ref
      · simp [← href, hdel]
      · simp [href]
    · simp only [if_neg hdel, getElem?_insert_ite, ihentries, ihraw, hkey]
      by_cases href : entry.1 = ref
      · simp [← href, hdel]
      · simp [href]

end Fold

/-- For every file and every way its reads are served, the scan aborts exactly when
the header of some line has a number or generation out of range, and otherwise
records, for each valid reference that is not suppressed, the offset of the number
on the last line whose header names it; the registration receives the same. -/
theorem recover_spec (src : Source) (deletedObjects : ExtTreeSet ℕ)
    (registration : XrefRegistration) :
    ∃ result recovered,
      recoverXrefEntriesFromSource src deletedObjects registration = some (result, recovered) ∧
      ((∃ line ∈ physicalLines src.content, lineOverflows src.content line) →
        ∃ message, result = .error (.system message)) ∧
      ((∀ line ∈ physicalLines src.content, ¬ lineOverflows src.content line) →
        result = .ok () ∧
        (∀ ref, recovered.entries[ref]? =
          if ref.number ∈ deletedObjects then none
          else (lastOffset src.content ref).map .uncompressed) ∧
        ∀ ref, recovered.registration.entries[ref]? =
            (if ref.number ∈ registration.deletedObjects then registration.entries[ref]?
            else ((lastOffset src.content ref).map .uncompressed).or registration.entries[ref]?) ∧
          recovered.registration.rawEntries[(⟨ref.number, ref.generation⟩ : QpdfObjGen)]? =
            (if ref.number ∈ registration.deletedObjects then
              registration.rawEntries[(⟨ref.number, ref.generation⟩ : QpdfObjGen)]?
            else ((lastOffset src.content ref).map .uncompressed).or
              registration.rawEntries[(⟨ref.number, ref.generation⟩ : QpdfObjGen)]?)) := by
  refine ⟨_, _, recover_eq_scanLines src deletedObjects registration, ?_, ?_⟩
  · intro hover
    obtain ⟨message, recovered, hscan⟩ := scanLines_of_overflows deletedObjects
      (physicalLines src.content) hover ⟨∅, registration⟩
    exact ⟨message, by rw [hscan]⟩
  · intro hfits
    rw [scanLines_of_fits deletedObjects _ hfits]
    have hvalid : ∀ entry ∈ (physicalLines src.content).filterMap (lineEntry src.content),
        entry.1.Valid := by
      intro entry hentry
      obtain ⟨line, hmem, hline⟩ := List.mem_filterMap.mp hentry
      exact lineEntry_valid (hfits line hmem) hline
    refine ⟨rfl, ?_, fun ref => insertAll_registration deletedObjects _ ⟨∅, registration⟩ hvalid ref⟩
    intro ref
    refine (insertAll_entries deletedObjects _ ⟨∅, registration⟩ ref).trans ?_
    simp [lastOf, lastOffset]

/-- An object header whose number has a hundred digits. -/
def longNumberHeader : Bytes := List.replicate 99 0x30 ++ ascii "1 0 obj"

/-- The line is the number one, the generation zero and `obj`, and is not recorded. -/
theorem longNumberHeader_not_recovered :
    (∃ number generation object,
      physicalLines longNumberHeader = [(0, longNumberHeader.length)] ∧
      plainToken longNumberHeader 0 = some number ∧ number.isInteger = true ∧
      intValue number.value = 1 ∧ number.start = 0 ∧ number.endPos ≤ longNumberHeader.length ∧
      plainToken longNumberHeader number.endPos = some generation ∧
      generation.isInteger = true ∧ intValue generation.value = 0 ∧
      plainToken longNumberHeader generation.endPos = some object ∧
      object.isWordValue (ascii "obj") = true) ∧
    ∃ recovered, recoverXrefEntriesFromSource ⟨longNumberHeader, fun _ => blockLength⟩ ∅ .new =
        some (.ok (), recovered) ∧
      recovered.entries[(⟨1, 0⟩ : ObjectRef)]? = none := by
  have hheader : lineHeader longNumberHeader (0, longNumberHeader.length) = none := by
    decide +kernel
  have hlines : physicalLines longNumberHeader = [(0, longNumberHeader.length)] := by
    decide
  constructor
  · exact ⟨Tokenizer.runToken 0 .number (List.replicate 99 0x30 ++ [0x31]),
      Tokenizer.runToken 101 .number [0x30], Tokenizer.runToken 103 .literal (ascii "obj"),
      hlines, by decide +kernel⟩
  · have hscan : scanLines longNumberHeader ∅ (physicalLines longNumberHeader) ⟨∅, .new⟩ =
        (.ok (), ⟨∅, .new⟩) := by
      simp only [hlines, scanLines, scanLine, hheader, continueWith]
    refine ⟨⟨∅, .new⟩, ?_, rfl⟩
    rw [recover_eq_scanLines, hscan]

end Flpdf
