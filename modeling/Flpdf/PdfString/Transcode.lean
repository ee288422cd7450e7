import Flpdf.PdfString.Stored

/-! # Single-byte encodings

`qutil.rs` turns UTF-8 into an encoding of one byte a character and says whether every
character has one.  PDFDocEncoding has a table of its own here, apart from the one that
strings are read with.
-/

namespace Flpdf

inductive SingleByteEncoding where
  | ascii
  | winAnsi
  | macRoman
  | pdfDoc
  deriving DecidableEq, Repr

/-- `UNICODE_TO_PDF_DOC`. -/
def unicodeToPdfDoc : List (ℕ × UInt8) :=
  [(0x02d8, 0x18), (0x02c7, 0x19), (0x02c6, 0x1a), (0x02d9, 0x1b), (0x02dd, 0x1c),
    (0x02db, 0x1d), (0x02da, 0x1e), (0x02dc, 0x1f), (0x2022, 0x80), (0x2020, 0x81),
    (0x2021, 0x82), (0x2026, 0x83), (0x2014, 0x84), (0x2013, 0x85), (0x0192, 0x86),
    (0x2044, 0x87), (0x2039, 0x88), (0x203a, 0x89), (0x2212, 0x8a), (0x2030, 0x8b),
    (0x201e, 0x8c), (0x201c, 0x8d), (0x201d, 0x8e), (0x2018, 0x8f), (0x2019, 0x90),
    (0x201a, 0x91), (0x2122, 0x92), (0xfb01, 0x93), (0xfb02, 0x94), (0x0141, 0x95),
    (0x0152, 0x96), (0x0160, 0x97), (0x0178, 0x98), (0x017d, 0x99), (0x0131, 0x9a),
    (0x0142, 0x9b), (0x0153, 0x9c), (0x0161, 0x9d), (0x017e, 0x9e), (0xfffd, 0x9f),
    (0x20ac, 0xa0)]

/-- The characters of WinAnsiEncoding outside the range that keeps its numbers. -/
def unicodeToWinAnsi : List (ℕ × UInt8) :=
  [(0x00a0, 0xa0), (0x0192, 0x83), (0x0152, 0x8c), (0x0153, 0x9c), (0x0160, 0x8a),
    (0x0161, 0x9a), (0x0178, 0x9f), (0x017d, 0x8e), (0x017e, 0x9e), (0x02c6, 0x88),
    (0x0303, 0x98), (0x2013, 0x96), (0x2014, 0x97), (0x2018, 0x91), (0x2019, 0x92),
    (0x201a, 0x82), (0x201c, 0x93), (0x201d, 0x94), (0x201e, 0x84), (0x2020, 0x86),
    (0x2021, 0x87), (0x2022, 0x95), (0x2026, 0x85), (0x2030, 0x89), (0x2039, 0x8b),
    (0x203a, 0x9b), (0x20ac, 0x80), (0x2122, 0x99)]

/-- `MAC_ROMAN_TO_UNICODE`: the characters of the bytes from 0x80 on. -/
def macRomanToUnicode : List ℕ :=
  [0x00c4, 0x00c5, 0x00c7, 0x00c9, 0x00d1, 0x00d6, 0x00dc, 0x00e1, 0x00e0, 0x00e2, 0x00e4,
    0x00e3, 0x00e5, 0x00e7, 0x00e9, 0x00e8, 0x00ea, 0x00eb, 0x00ed, 0x00ec, 0x00ee, 0x00ef,
    0x00f1, 0x00f3, 0x00f2, 0x00f4, 0x00f6, 0x00f5, 0x00fa, 0x00f9, 0x00fb, 0x00fc, 0x2020,
    0x00b0, 0x00a2, 0x00a3, 0x00a7, 0x2022, 0x00b6, 0x00df, 0x00ae, 0x00a9, 0x2122, 0x0301,
    0x0308, 0xfffd, 0x00c6, 0x00d8, 0xfffd, 0x00b1, 0xfffd, 0xfffd, 0x00a5, 0x03bc, 0xfffd,
    0xfffd, 0xfffd, 0xfffd, 0xfffd, 0x1d43, 0x1d52, 0xfffd, 0x00e6, 0x00f8, 0x00bf, 0x00a1,
    0x00ac, 0xfffd, 0x0192, 0xfffd, 0xfffd, 0x00ab, 0x00bb, 0x2026, 0xfffd, 0x00c0, 0x00c3,
    0x00d5, 0x0152, 0x0153, 0x2013, 0x2014, 0x201c, 0x201d, 0x2018, 0x2019, 0x00f7, 0xfffd,
    0x00ff, 0x0178, 0x2044, 0x00a4, 0x2039, 0x203a, 0xfb01, 0xfb02, 0x2021, 0x00b7, 0x201a,
    0x201e, 0x2030, 0x00c2, 0x00ca, 0x00c1, 0x00cb, 0x00c8, 0x00cd, 0x00ce, 0x00cf, 0x00cc,
    0x00d3, 0x00d4, 0xfffd, 0x00d2, 0x00da, 0x00db, 0x00d9, 0x0131, 0x02c6, 0x0303, 0x0304,
    0x0306, 0x0307, 0x030a, 0x0327, 0x030b, 0x0328, 0x02c7]

def encodeExtended (codepoint : ℕ) (encoding : SingleByteEncoding) : Option UInt8 :=
  match encoding with
  | .ascii => none
  | .winAnsi => unicodeToWinAnsi.lookup codepoint
  | .macRoman =>
    (macRomanToUnicode.findIdx? fun value => value = codepoint ∧ value ≠ 0xfffd).map fun index =>
      UInt8.ofNat index + 0x80
  | .pdfDoc => unicodeToPdfDoc.lookup codepoint

/-- The continuation bytes of a character; a byte that is none stays unread. -/
def nextContinuations : ℕ → ℕ → Bytes → Option ℕ × Bytes
  | 0, codepoint, rest => (some codepoint, rest)
  | _ + 1, _, [] => (none, [])
  | count + 1, codepoint, byte :: rest =>
    if byte &&& 0xc0 ≠ 0x80 then (none, byte :: rest)
    else nextContinuations count (codepoint <<< 6 ||| (byte &&& 0x3f).toNat) rest

def lowerBound (length : ℕ) : ℕ :=
  match length with
  | 2 => 1 <<< 7
  | 3 => 1 <<< 11
  | 4 => 1 <<< 16
  | 5 => 1 <<< 12
  | 6 => 1 <<< 26
  | _ => 0

/-- `next_utf8_codepoint`; no code point is an error. -/
def nextUtf8Codepoint (first : UInt8) (rest : Bytes) : Option ℕ × Bytes :=
  if first < 128 then (some first.toNat, rest)
  else
    let (bytesNeeded, toClear) := countBytes first 8 0x40 0x80 0
    if ¬(1 ≤ bytesNeeded ∧ bytesNeeded ≤ 5) ∨ bytesNeeded > rest.length then (none, rest)
    else
      match nextContinuations bytesNeeded (first &&& ~~~toClear).toNat rest with
      | (none, rest) => (none, rest)
      | (some codepoint, rest) =>
        if lowerBound (bytesNeeded + 1) > 0 ∧ codepoint < lowerBound (bytesNeeded + 1) then (none, rest)
        else (some codepoint, rest)

/-- The byte of a code point, if it has one. -/
def transcodeCodepoint (encoding : SingleByteEncoding) (codepoint : ℕ) : Option UInt8 :=
  if codepoint < 128 then
    if encoding = .pdfDoc ∧ ((0x18 ≤ codepoint ∧ codepoint ≤ 0x1f) ∨ codepoint = 127) then none
    else some (UInt8.ofNat codepoint)
  else if codepoint = 0xad ∧ encoding = .pdfDoc then none
  else if (encoding = .winAnsi ∨ encoding = .pdfDoc) ∧ 161 ≤ codepoint ∧ codepoint < 256 then
    some (UInt8.ofNat codepoint)
  else encodeExtended codepoint encoding

/-- The loop: what is written, and whether every code point has a byte. -/
def transcodeLoop (encoding : SingleByteEncoding) : ℕ → Bytes → Bytes × Bool
  | 0, _ => ([], true)
  | _, [] => ([], true)
  | fuel + 1, first :: rest =>
    let (codepoint, rest) := nextUtf8Codepoint first rest
    let encoded := codepoint.bind (transcodeCodepoint encoding)
    let (output, representable) := transcodeLoop encoding fuel rest
    (encoded.getD 0x3f :: output, encoded.isSome && representable)

def pdfDocPrefixCollidesWithABom (input : Bytes) : Bool :=
  [0xc3, 0xbe, 0xc3, 0xbf].isPrefixOf input || [0xc3, 0xbf, 0xc3, 0xbe].isPrefixOf input ||
    [0xc3, 0xaf, 0xc2, 0xbb, 0xc2, 0xbf].isPrefixOf input

def transcodeUtf8WithStatus (input : Bytes) (encoding : SingleByteEncoding) : Bytes × Bool :=
  let (output, representable) := transcodeLoop encoding input.length input
  if encoding = .pdfDoc ∧ pdfDocPrefixCollidesWithABom input then (0x3f :: output, false)
  else (output, representable)

def utf8ToPdfDocChecked (input : Bytes) : Bytes × Bool := transcodeUtf8WithStatus input .pdfDoc

variable {first byte : UInt8} {rest rest' : Bytes} {codepoint count fuel : ℕ} {c : Char}
  {text : List Char}

/-! ## The two decoders -/

/-- The sum and the disjunction of a code point and six bits are one number. -/
theorem nextContinuations_eq (count codepoint : ℕ) (rest : Bytes) :
    nextContinuations count codepoint rest = takeContinuations count codepoint rest := by
  induction count generalizing codepoint rest with
  | zero => rfl
  | succ count ih =>
    cases rest with
    | nil => rfl
    | cons byte rest =>
      have hsix : (byte &&& 0x3f).toNat < 2 ^ 6 :=
        forall_byte (p := fun byte => (byte &&& 0x3f).toNat < 2 ^ 6) (by decide) byte
      rw [nextContinuations, takeContinuations, ← Nat.shiftLeft_add_eq_or_of_lt hsix, ih]

/-- The character of a code point, which may be none. -/
def scalarOf (codepoint : ℕ) : Char := (charFromU32 codepoint).getD replacementChar

theorem normalizeChar_eq (first : UInt8) (rest : Bytes) : normalizeChar first rest =
    ((nextUtf8Codepoint first rest).1.map scalarOf, (nextUtf8Codepoint first rest).2) := by
  rw [normalizeChar, nextUtf8Codepoint]
  by_cases hascii : first < 0x80
  · have hchar : Char.ofNat first.toNat = scalarOf first.toNat :=
      forall_byte (p := fun first => Char.ofNat first.toNat = scalarOf first.toNat)
        (by decide) first
    rw [if_pos hascii, if_pos hascii, hchar]
    rfl
  rw [if_neg hascii, if_neg hascii]
  generalize countBytes first 8 0x40 0x80 0 = counted
  obtain ⟨bytesNeeded, toClear⟩ := counted
  dsimp only
  by_cases hshort : ¬(1 ≤ bytesNeeded ∧ bytesNeeded ≤ 5) ∨ bytesNeeded > rest.length
  · rw [if_pos hshort, if_pos hshort]
    rfl
  rw [if_neg hshort, if_neg hshort, nextContinuations_eq]
  have hbound : lowerBounds.getD (bytesNeeded + 1) 0 = lowerBound (bytesNeeded + 1) := by
    have hcases : bytesNeeded = 1 ∨ bytesNeeded = 2 ∨ bytesNeeded = 3 ∨ bytesNeeded = 4 ∨
        bytesNeeded = 5 := by omega
    rcases hcases with rfl | rfl | rfl | rfl | rfl <;> rfl
  rw [hbound]
  rcases takeContinuations bytesNeeded (first &&& ~~~toClear).toNat rest with ⟨_ | codepoint, rest'⟩
  · rfl
  · dsimp only
    split_ifs <;> rfl

theorem scalarOf_eq (h : scalarOf codepoint = c) (hc : c ≠ replacementChar) : codepoint = c.toNat := by
  rw [scalarOf] at h
  cases hchar : charFromU32 codepoint with
  | none =>
    rw [hchar] at h
    exact absurd h.symm hc
  | some d =>
    rw [hchar] at h
    rw [← h]
    exact (charFromU32_eq_some_iff.mp hchar).symm

/-- A character in valid UTF-8 has its own code point. -/
theorem nextUtf8Codepoint_of_firstChar (h : firstChar first rest = some (c, rest')) :
    nextUtf8Codepoint first rest = (some c.toNat, rest') := by
  have hnormal := normalizeChar_of_firstChar h
  rw [normalizeChar_eq] at hnormal
  by_cases hc : c = replacementChar
  · have hbytes := encodeChar_of_firstChar h
    subst hc
    obtain ⟨rfl, rfl⟩ := List.cons.inj (hbytes.trans (show _ = 0xef :: 0xbf :: 0xbd :: rest' from rfl))
    rfl
  · generalize nextUtf8Codepoint first rest = next at hnormal ⊢
    obtain ⟨found, rest''⟩ := next
    obtain ⟨hfound, rfl⟩ := Prod.mk.inj hnormal
    obtain ⟨codepoint, rfl, hscalar⟩ := Option.map_eq_some_iff.mp hfound
    rw [scalarOf_eq hscalar hc]

/-- On valid UTF-8 the loop goes character by character. -/
theorem transcodeLoop_encodeUtf8 (encoding : SingleByteEncoding)
    (h : (encodeUtf8 text).length ≤ fuel) :
    transcodeLoop encoding fuel (encodeUtf8 text) =
      (text.map fun c => (transcodeCodepoint encoding c.toNat).getD 0x3f,
        text.all fun c => (transcodeCodepoint encoding c.toNat).isSome) := by
  induction text generalizing fuel with
  | nil => cases fuel <;> rfl
  | cons c text ih =>
    obtain ⟨first, bytes, heq, hfirst⟩ := exists_firstChar c (encodeUtf8 text)
    rw [encodeUtf8_cons] at h ⊢
    have hpos : 0 < (String.utf8EncodeChar c).length := by
      rw [String.length_utf8EncodeChar]
      exact c.utf8Size_pos
    rw [List.length_append] at h
    cases fuel with
    | zero => omega
    | succ fuel =>
      rw [heq, transcodeLoop, nextUtf8Codepoint_of_firstChar hfirst]
      dsimp only
      rw [ih (by omega)]
      rfl

/-! ## The two tables -/

/-- Every byte that strings are written with is the byte of its character. -/
theorem transcodeCodepoint_pdfDocChar (h : isUndefinedByte byte = false) :
    transcodeCodepoint .pdfDoc (pdfDocChar byte).toNat = some byte :=
  forall_byte (p := fun byte => isUndefinedByte byte = false →
    transcodeCodepoint .pdfDoc (pdfDocChar byte).toNat = some byte) (by decide) byte h

theorem char_eq_of_toNat {d : Char} (h : d.toNat = c.toNat) : d = c := by
  have hchars := charFromU32_toNat d
  rw [h, charFromU32_toNat] at hchars
  exact (Option.some.inj hchars).symm

/-- A byte of this table is read back as the character, but for the replacement character. -/
theorem pdfDocChar_of_transcode (h : transcodeCodepoint .pdfDoc c.toNat = some byte)
    (hc : c ≠ replacementChar) : isUndefinedByte byte = false ∧ pdfDocChar byte = c := by
  have hlow := forall_byte (p := fun byte => byte < 128 →
    ¬((0x18 ≤ byte.toNat ∧ byte.toNat ≤ 0x1f) ∨ byte.toNat = 127) →
      isUndefinedByte byte = false ∧ (pdfDocChar byte).toNat = byte.toNat) (by decide) byte
  have hhigh := forall_byte (p := fun byte => 161 ≤ byte → byte.toNat ≠ 0xad →
      isUndefinedByte byte = false ∧ (pdfDocChar byte).toNat = byte.toNat) (by decide) byte
  have htable : ∀ entry ∈ unicodeToPdfDoc, entry.1 ≠ 0xfffd →
      isUndefinedByte entry.2 = false ∧ (pdfDocChar entry.2).toNat = entry.1 := by decide
  have hreplacement : c.toNat ≠ 0xfffd := fun heq => hc (char_eq_of_toNat heq)
  rw [transcodeCodepoint] at h
  simp only [true_and, and_true, reduceCtorEq, or_true] at h
  split_ifs at h with hascii hcontrol hhyphen hdirect
  · obtain rfl := Option.some.inj h
    rw [toNat_byte (by omega)] at hlow
    obtain ⟨hdefined, hchar⟩ := hlow (byte_lt (by omega) hascii) hcontrol
    exact ⟨hdefined, char_eq_of_toNat hchar⟩
  · obtain rfl := Option.some.inj h
    rw [toNat_byte (by omega)] at hhigh
    obtain ⟨hdefined, hchar⟩ := hhigh (byte_le (by omega) hdirect.1) hhyphen
    exact ⟨hdefined, char_eq_of_toNat hchar⟩
  · obtain ⟨before, after, hentry, -⟩ := List.lookup_eq_some_iff.mp h
    have hmem : (c.toNat, byte) ∈ unicodeToPdfDoc :=
      hentry ▸ List.mem_append_right before List.mem_cons_self
    obtain ⟨hdefined, hchar⟩ := htable _ hmem hreplacement
    exact ⟨hdefined, char_eq_of_toNat hchar⟩

/-- The search finds the byte that is read as the character. -/
theorem findPdfDoc_eq_some_iff :
    findPdfDoc c = some byte ↔ isUndefinedByte byte = false ∧ pdfDocChar byte = c := by
  have hdefined : ∀ {byte}, findPdfDoc c = some byte → isUndefinedByte byte = false := by
    intro byte h
    have hfound := List.find?_some h
    rw [Bool.and_eq_true, Bool.not_eq_true'] at hfound
    exact hfound.1
  constructor
  · intro h
    exact ⟨hdefined h, pdfDocChar_of_findPdfDoc h⟩
  · rintro ⟨hbyte, hchar⟩
    cases hfound : findPdfDoc c with
    | none =>
      have hall := List.find?_eq_none.mp hfound byte
        (List.mem_map.mpr ⟨byte.toNat, List.mem_range.mpr byte.toNat_lt, UInt8.ofNat_toNat⟩)
      rw [hbyte, utf8Value_singleton, hchar, beq_self_eq_true] at hall
      exact absurd rfl hall
    | some byte' =>
      have hbytes := transcodeCodepoint_pdfDocChar (hdefined hfound)
      rw [pdfDocChar_of_findPdfDoc hfound, ← hchar, transcodeCodepoint_pdfDocChar hbyte] at hbytes
      exact hbytes.symm

theorem findPdfDoc_replacementChar : findPdfDoc replacementChar = none := by
  rw [Option.eq_none_iff_forall_ne_some]
  intro byte h
  obtain ⟨hdefined, hchar⟩ := findPdfDoc_eq_some_iff.mp h
  exact forall_byte (p := fun byte => isUndefinedByte byte = false →
    pdfDocChar byte ≠ replacementChar) (by decide) byte hdefined hchar

/-- The tables agree on every other character. -/
theorem transcodeCodepoint_eq_findPdfDoc (hc : c ≠ replacementChar) :
    transcodeCodepoint .pdfDoc c.toNat = findPdfDoc c := by
  ext byte
  rw [findPdfDoc_eq_some_iff]
  constructor
  · exact fun h => pdfDocChar_of_transcode h hc
  · rintro ⟨hdefined, rfl⟩
    exact transcodeCodepoint_pdfDocChar hdefined

/-! ## Texts -/

theorem mapM_of_forall {α β : Type} {f : α → Option β} {g : α → β} {as : List α}
    (h : ∀ a ∈ as, f a = some (g a)) : as.mapM f = some (as.map g) := by
  induction as with
  | nil => rfl
  | cons a as ih =>
    rw [List.mapM_cons, h a List.mem_cons_self, ih fun b hb => h b (List.mem_cons_of_mem _ hb)]
    rfl

theorem mapM_of_exists {α β : Type} {f : α → Option β} {as : List α} (h : ∃ a ∈ as, f a = none) :
    as.mapM f = none := by
  rw [Option.eq_none_iff_forall_ne_some]
  intro bs hbs
  obtain ⟨a, ha, hnone⟩ := h
  have hforall := forall₂_of_mapM hbs
  clear hbs
  induction hforall with
  | nil => cases ha
  | cons hb _ ih =>
    rcases List.mem_cons.mp ha with rfl | ha
    · rw [hnone] at hb
      cases hb
    · exact ih ha

/-- A text is written in PDFDocEncoding when it is representable and has no replacement
character, and else in UTF-16. -/
theorem newUnicodeString_eq_checked (text : List Char) :
    ((utf8ToPdfDocChecked (encodeUtf8 text)).2 = true → replacementChar ∉ text →
      newUnicodeString (encodeUtf8 text) = (utf8ToPdfDocChecked (encodeUtf8 text)).1) ∧
    ((utf8ToPdfDocChecked (encodeUtf8 text)).2 = false ∨ replacementChar ∈ text →
      newUnicodeString (encodeUtf8 text) = encodeUtf16be text) := by
  have hsame : pdfDocPrefixCollidesWithABom (encodeUtf8 text) = resemblesUnicodeBom (encodeUtf8 text) :=
    rfl
  rw [utf8ToPdfDocChecked, transcodeUtf8WithStatus, transcodeLoop_encodeUtf8 _ le_rfl, hsame,
    newUnicodeString, normalizeUtf8_encodeUtf8]
  dsimp only
  by_cases hbom : resemblesUnicodeBom (encodeUtf8 text) = true
  · rw [hbom, if_pos ⟨rfl, rfl⟩]
    exact ⟨by simp, fun _ => rfl⟩
  rw [Bool.not_eq_true] at hbom
  rw [hbom, if_neg (fun h => Bool.false_ne_true h.2), if_pos (by decide)]
  dsimp only
  constructor
  · intro hall hreplacement
    have hbytes : ∀ c ∈ text,
        findPdfDoc c = some ((transcodeCodepoint .pdfDoc c.toNat).getD 0x3f) := by
      intro c hc
      have hsome := List.all_eq_true.mp hall c hc
      obtain ⟨byte, hbyte⟩ := Option.isSome_iff_exists.mp hsome
      rw [← transcodeCodepoint_eq_findPdfDoc fun heq => hreplacement (heq ▸ hc), hbyte, Option.getD_some]
    rw [mapM_of_forall hbytes]
  · intro h
    have hnone : ∃ c ∈ text, findPdfDoc c = none := by
      by_cases hreplacement : replacementChar ∈ text
      · exact ⟨replacementChar, hreplacement, findPdfDoc_replacementChar⟩
      · have hnot := h.resolve_right hreplacement
        rw [List.all_eq_false] at hnot
        obtain ⟨c, hc, hcode⟩ := hnot
        rw [transcodeCodepoint_eq_findPdfDoc fun heq => hreplacement (heq ▸ hc), Bool.not_eq_true,
          Option.isSome_eq_false_iff, Option.isNone_iff_eq_none] at hcode
        exact ⟨c, hc, hcode⟩
    rw [mapM_of_exists hnone]

/-- The replacement character has a byte in one of the tables only. -/
theorem replacementChar_encoders_differ :
    ¬∀ text : List Char, ((utf8ToPdfDocChecked (encodeUtf8 text)).2 = true →
        newUnicodeString (encodeUtf8 text) = (utf8ToPdfDocChecked (encodeUtf8 text)).1) ∧
      ((utf8ToPdfDocChecked (encodeUtf8 text)).2 = false →
        newUnicodeString (encodeUtf8 text) = encodeUtf16be text) := by
  intro h
  have hrepresentable : utf8ToPdfDocChecked (encodeUtf8 [replacementChar]) = ([0x9f], true) := by
    decide
  have hwritten : newUnicodeString (encodeUtf8 [replacementChar]) = [0xfe, 0xff, 0xff, 0xfd] := by
    decide
  have hsame := (h [replacementChar]).1
  rw [hrepresentable, hwritten] at hsame
  exact absurd (hsame rfl) (by decide)

end Flpdf
