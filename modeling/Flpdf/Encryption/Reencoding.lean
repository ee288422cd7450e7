import Flpdf.PdfString.Transcode

/-!
# Passwords in other encodings

`password.rs` has encoders and decoders of its own for the single-byte encodings a password
may have been typed in. Its encoder agrees with the general one on every text, and undoes its
decoder on every password whose bytes have a character.
-/

namespace Flpdf.Password

inductive SingleByteEncoding where
  | pdfDoc
  | winAnsi
  | macRoman
  deriving DecidableEq, Repr

/-! ## The tables -/

/-- `PDF_DOC_LOW_TO_UNICODE`. -/
def pdfDocLowToUnicode : List ℕ :=
  [0x02d8, 0x02c7, 0x02c6, 0x02d9, 0x02dd, 0x02db, 0x02da, 0x02dc]

/-- `PDF_DOC_TO_UNICODE`. -/
def pdfDocToUnicode : List ℕ :=
  [0xfffd, 0x2022, 0x2020, 0x2021, 0x2026, 0x2014, 0x2013, 0x0192, 0x2044, 0x2039, 0x203a,
   0x2212, 0x2030, 0x201e, 0x201c, 0x201d, 0x2018, 0x2019, 0x201a, 0x2122, 0xfb01, 0xfb02,
   0x0141, 0x0152, 0x0160, 0x0178, 0x017d, 0x0131, 0x0142, 0x0153, 0x0161, 0x017e, 0xfffd, 0x20ac]

/-- `WIN_ANSI_TO_UNICODE`. -/
def winAnsiToUnicode : List ℕ :=
  [0x20ac, 0xfffd, 0x201a, 0x0192, 0x201e, 0x2026, 0x2020, 0x2021, 0x02c6, 0x2030, 0x0160,
   0x2039, 0x0152, 0xfffd, 0x017d, 0xfffd, 0xfffd, 0x2018, 0x2019, 0x201c, 0x201d, 0x2022,
   0x2013, 0x2014, 0x0303, 0x2122, 0x0161, 0x203a, 0x0153, 0xfffd, 0x017e, 0x0178, 0x00a0]

/-- `MAC_ROMAN_TO_UNICODE`. -/
def macRomanToUnicode : List ℕ :=
  [0x00c4, 0x00c5, 0x00c7, 0x00c9, 0x00d1, 0x00d6, 0x00dc, 0x00e1, 0x00e0, 0x00e2, 0x00e4,
   0x00e3, 0x00e5, 0x00e7, 0x00e9, 0x00e8, 0x00ea, 0x00eb, 0x00ed, 0x00ec, 0x00ee, 0x00ef,
   0x00f1, 0x00f3, 0x00f2, 0x00f4, 0x00f6, 0x00f5, 0x00fa, 0x00f9, 0x00fb, 0x00fc, 0x2020,
   0x00b0, 0x00a2, 0x00a3, 0x00a7, 0x2022, 0x00b6, 0x00df, 0x00ae, 0x00a9, 0x2122, 0x0301,
   0x0308, 0xfffd, 0x00c6, 0x00d8, 0xfffd, 0x00b1, 0xfffd, 0xfffd, 0x00a5, 0x03bc, 0xfffd,
   0xfffd, 0xfffd, 0xfffd, 0xfffd, 0x1d43, 0x1d52, 0xfffd, 0x00e6, 0x00f8, 0x00bf, 0x00a1,
   0x00ac, 0xfffd, 0x0192, 0xfffd, 0xfffd, 0x00ab, 0x00bb, 0x2026, 0xfffd, 0x00c0, 0x00c3,
   0x00d5, 0x0152, 0x0153, 0x2013, 0x2014, 0x201c, 0x201d, 0x2018, 0x2019, 0x00f7, 0xfffd,
   0x00ff, 0x0178, 0x2044, 0x00a4, 0x2039, 0x203a, 0xfb01, 0xfb02, 0x2021, 0x00b7, 0x201a,
   0x201e, 0x2030, 0x00c2, 0x00ca, 0x00c1, 0x00cb, 0x00c8, 0x00cd, 0x00ce, 0x00cf, 0x00cc,
   0x00d3, 0x00d4, 0xfffd, 0x00d2, 0x00da, 0x00db, 0x00d9, 0x0131, 0x02c6, 0x0303, 0x0304,
   0x0306, 0x0307, 0x030a, 0x0327, 0x030b, 0x0328, 0x02c7]

/-- The arms of `encode_pdf_doc`. -/
def pdfDocArms : List (ℕ × UInt8) :=
  [(0x02d8, 0x18), (0x02c7, 0x19), (0x02c6, 0x1a), (0x02d9, 0x1b), (0x02dd, 0x1c),
   (0x02db, 0x1d), (0x02da, 0x1e), (0x02dc, 0x1f), (0x2022, 0x80), (0x2020, 0x81),
   (0x2021, 0x82), (0x2026, 0x83), (0x2014, 0x84), (0x2013, 0x85), (0x0192, 0x86),
   (0x2044, 0x87), (0x2039, 0x88), (0x203a, 0x89), (0x2212, 0x8a), (0x2030, 0x8b),
   (0x201e, 0x8c), (0x201c, 0x8d), (0x201d, 0x8e), (0x2018, 0x8f), (0x2019, 0x90),
   (0x201a, 0x91), (0x2122, 0x92), (0xfb01, 0x93), (0xfb02, 0x94), (0x0141, 0x95),
   (0x0152, 0x96), (0x0160, 0x97), (0x0178, 0x98), (0x017d, 0x99), (0x0131, 0x9a),
   (0x0142, 0x9b), (0x0153, 0x9c), (0x0161, 0x9d), (0x017e, 0x9e), (0xfffd, 0x9f), (0x20ac, 0xa0)]

/-- The arms of `encode_win_ansi`. -/
def winAnsiArms : List (ℕ × UInt8) :=
  [(0x20ac, 0x80), (0x201a, 0x82), (0x0192, 0x83), (0x201e, 0x84), (0x2026, 0x85),
   (0x2020, 0x86), (0x2021, 0x87), (0x02c6, 0x88), (0x2030, 0x89), (0x0160, 0x8a),
   (0x2039, 0x8b), (0x0152, 0x8c), (0x017d, 0x8e), (0x2018, 0x91), (0x2019, 0x92),
   (0x201c, 0x93), (0x201d, 0x94), (0x2022, 0x95), (0x2013, 0x96), (0x2014, 0x97),
   (0x0303, 0x98), (0x2122, 0x99), (0x0161, 0x9a), (0x203a, 0x9b), (0x0153, 0x9c),
   (0x017e, 0x9e), (0x0178, 0x9f), (0x00a0, 0xa0)]

/-! ## Decoding -/

/-- The code point of a byte. -/
def decodeByte (byte : UInt8) (encoding : SingleByteEncoding) : ℕ :=
  match encoding with
  | .pdfDoc =>
    if 0x18 ≤ byte ∧ byte ≤ 0x1f then pdfDocLowToUnicode.getD (byte - 0x18).toNat 0
    else if 0x7f ≤ byte ∧ byte ≤ 0xa0 then pdfDocToUnicode.getD (byte - 0x7f).toNat 0
    else if byte = 0xad then 0xfffd
    else byte.toNat
  | .winAnsi =>
    if 0x80 ≤ byte ∧ byte ≤ 0xa0 then winAnsiToUnicode.getD (byte - 0x80).toNat 0
    else byte.toNat
  | .macRoman =>
    if 0x80 ≤ byte then macRomanToUnicode.getD (byte - 0x80).toNat 0 else byte.toNat

/-- `decode_single_byte`. -/
def decodeSingleByte (raw : Bytes) (encoding : SingleByteEncoding) : Bytes :=
  encodeUtf8 (raw.filterMap fun byte => charFromU32 (decodeByte byte encoding))

/-! ## Encoding -/

def encodePdfDoc (codepoint : ℕ) : Option UInt8 := pdfDocArms.lookup codepoint

def encodeWinAnsi (codepoint : ℕ) : Option UInt8 := winAnsiArms.lookup codepoint

def encodeMacRoman (codepoint : ℕ) : Option UInt8 :=
  (macRomanToUnicode.findIdx? fun value => value = codepoint ∧ value ≠ 0xfffd).map fun index =>
    UInt8.ofNat index + 0x80

/-- The byte of a code point in `transcode_utf8`. -/
def encodeCodepoint (codepoint : ℕ) (encoding : SingleByteEncoding) : Option UInt8 :=
  if codepoint < 0x80 then
    if encoding = .pdfDoc ∧ ((0x18 ≤ codepoint ∧ codepoint ≤ 0x1f) ∨ codepoint = 0x7f) then none
    else some (UInt8.ofNat codepoint)
  else if encoding = .pdfDoc ∧ codepoint = 0xad then none
  else if 0xa0 < codepoint ∧ codepoint < 0x100 ∧ (encoding = .pdfDoc ∨ encoding = .winAnsi) then
    some (UInt8.ofNat codepoint)
  else
    match encoding with
    | .pdfDoc => encodePdfDoc codepoint
    | .winAnsi => encodeWinAnsi codepoint
    | .macRoman => encodeMacRoman codepoint

/-- The front of a UTF-8 text that would be taken for a byte-order mark in PDFDocEncoding. -/
def looksLikeBom (raw : Bytes) : Bool :=
  [0xc3, 0xbe, 0xc3, 0xbf].isPrefixOf raw || [0xc3, 0xbf, 0xc3, 0xbe].isPrefixOf raw ||
    [0xc3, 0xaf, 0xc2, 0xbb, 0xc2, 0xbf].isPrefixOf raw

/-- `transcode_utf8`. -/
def transcodeUtf8 (raw : Bytes) (encoding : SingleByteEncoding) : Option Bytes := do
  let text ← decodeUtf8 raw
  if encoding = .pdfDoc ∧ looksLikeBom raw then none
  else text.mapM fun c => encodeCodepoint c.toNat encoding

/-- The encoding under the name that `qutil.rs` has for it. -/
def SingleByteEncoding.general : SingleByteEncoding → Flpdf.SingleByteEncoding
  | .pdfDoc => .pdfDoc
  | .winAnsi => .winAnsi
  | .macRoman => .macRoman

/-! ## The encoders agree -/

/-- Two tables that find each other's entries find the same. -/
theorem lookup_eq_lookup {α β : Type*} [DecidableEq α] {l l' : List (α × β)}
    (h : ∀ entry ∈ l, l'.lookup entry.1 = some entry.2)
    (h' : ∀ entry ∈ l', l.lookup entry.1 = some entry.2) (a : α) : l.lookup a = l'.lookup a := by
  have hmem : ∀ {l : List (α × β)} {b}, l.lookup a = some b → (a, b) ∈ l := by
    intro l b hb
    obtain ⟨before, after, heq, -⟩ := List.lookup_eq_some_iff.mp hb
    exact heq ▸ List.mem_append_right before List.mem_cons_self
  cases hfound : l.lookup a with
  | some b => exact (h _ (hmem hfound)).symm
  | none =>
    cases hfound' : l'.lookup a with
    | none => rfl
    | some b =>
      have hback := h' _ (hmem hfound')
      rw [hfound] at hback
      cases hback

theorem encodeWinAnsi_eq (codepoint : ℕ) :
    encodeWinAnsi codepoint = unicodeToWinAnsi.lookup codepoint :=
  lookup_eq_lookup (by decide) (by decide) codepoint

/-- A code point has the same byte in both encoders. -/
theorem encodeCodepoint_eq (codepoint : ℕ) (encoding : SingleByteEncoding) :
    encodeCodepoint codepoint encoding = transcodeCodepoint encoding.general codepoint := by
  unfold encodeCodepoint transcodeCodepoint
  cases encoding with
  | pdfDoc =>
    simp only [SingleByteEncoding.general, true_and, and_true, reduceCtorEq, or_false, false_or]
    split_ifs with h₁ h₂ h₃ h₄ h₅ h₅
    all_goals first | rfl | omega
  | winAnsi =>
    simp only [SingleByteEncoding.general, reduceCtorEq, false_and, and_false, if_false, or_false, false_or, and_true,
      true_and, encodeWinAnsi_eq, encodeExtended]
    split_ifs with h₁ h₂ h₃
    all_goals first | rfl | omega
  | macRoman =>
    simp only [SingleByteEncoding.general, reduceCtorEq, false_and, and_false, if_false, or_self,
      encodeExtended]
    rfl

/-- On valid UTF-8 the encoder has a result when the general one has a byte for every code
point, and then the same. -/
theorem transcodeUtf8_encodeUtf8 (text : List Char) (encoding : SingleByteEncoding) :
    transcodeUtf8 (encodeUtf8 text) encoding =
      if (transcodeUtf8WithStatus (encodeUtf8 text) encoding.general).2 then
        some (transcodeUtf8WithStatus (encodeUtf8 text) encoding.general).1
      else none := by
  have hbom : looksLikeBom (encodeUtf8 text) = pdfDocPrefixCollidesWithABom (encodeUtf8 text) := rfl
  have hencoding : encoding = .pdfDoc ↔ encoding.general = .pdfDoc := by
    cases encoding <;> decide
  simp only [transcodeUtf8, decodeUtf8_encodeUtf8, Option.bind_eq_bind, Option.bind_some,
    encodeCodepoint_eq]
  have hstatus : transcodeUtf8WithStatus (encodeUtf8 text) encoding.general =
      if encoding.general = .pdfDoc ∧ pdfDocPrefixCollidesWithABom (encodeUtf8 text) then
        (0x3f :: text.map fun c => (transcodeCodepoint encoding.general c.toNat).getD 0x3f, false)
      else
        (text.map fun c => (transcodeCodepoint encoding.general c.toNat).getD 0x3f,
          text.all fun c => (transcodeCodepoint encoding.general c.toNat).isSome) := by
    rw [transcodeUtf8WithStatus, transcodeLoop_encodeUtf8 _ le_rfl]
  rw [hbom]
  by_cases hfront : encoding = .pdfDoc ∧ pdfDocPrefixCollidesWithABom (encodeUtf8 text) = true
  · rw [if_pos ⟨hencoding.mp hfront.1, hfront.2⟩] at hstatus
    rw [if_pos hfront, hstatus]
    rfl
  · rw [if_neg fun h => hfront ⟨hencoding.mpr h.1, h.2⟩] at hstatus
    rw [if_neg hfront, hstatus]
    dsimp only
    by_cases hall : (text.all fun c =>
        (transcodeCodepoint encoding.general c.toNat).isSome) = true
    · rw [if_pos hall]
      apply mapM_of_forall
      intro c hc
      obtain ⟨byte, hbyte⟩ := Option.isSome_iff_exists.mp (List.all_eq_true.mp hall c hc)
      rw [hbyte, Option.getD_some]
    · rw [if_neg hall]
      apply mapM_of_exists
      rw [Bool.not_eq_true, List.all_eq_false] at hall
      obtain ⟨c, hc, hnone⟩ := hall
      rw [Bool.not_eq_true, Option.isSome_eq_false_iff, Option.isNone_iff_eq_none] at hnone
      exact ⟨c, hc, hnone⟩

/-! ## The encoder undoes the decoder -/

/-- A byte that has a character is the byte of that character. -/
theorem encodeCodepoint_decodeByte {byte : UInt8} {encoding : SingleByteEncoding}
    (h : decodeByte byte encoding ≠ 0xfffd) :
    (decodeByte byte encoding).isValidChar ∧
      encodeCodepoint (decodeByte byte encoding) encoding = some byte := by
  cases encoding with
  | pdfDoc =>
    exact forall_byte (p := fun byte => decodeByte byte .pdfDoc ≠ 0xfffd →
      (decodeByte byte .pdfDoc).isValidChar ∧
        encodeCodepoint (decodeByte byte .pdfDoc) .pdfDoc = some byte) (by decide) byte h
  | winAnsi =>
    exact forall_byte (p := fun byte => decodeByte byte .winAnsi ≠ 0xfffd →
      (decodeByte byte .winAnsi).isValidChar ∧
        encodeCodepoint (decodeByte byte .winAnsi) .winAnsi = some byte) (by decide) byte h
  | macRoman =>
    exact forall_byte (p := fun byte => decodeByte byte .macRoman ≠ 0xfffd →
      (decodeByte byte .macRoman).isValidChar ∧
        encodeCodepoint (decodeByte byte .macRoman) .macRoman = some byte) (by decide) byte h

/-- The character of a byte that has one. -/
def byteChar (encoding : SingleByteEncoding) (byte : UInt8) : Char :=
  Char.ofNat (decodeByte byte encoding)

theorem toNat_byteChar {byte : UInt8} {encoding : SingleByteEncoding}
    (h : decodeByte byte encoding ≠ 0xfffd) :
    (byteChar encoding byte).toNat = decodeByte byte encoding := by
  have hchar : charFromU32 (decodeByte byte encoding) = some (byteChar encoding byte) :=
    if_pos (encodeCodepoint_decodeByte h).1
  exact charFromU32_eq_some_iff.mp hchar

theorem decodeSingleByte_eq {raw : Bytes} {encoding : SingleByteEncoding}
    (h : ∀ byte ∈ raw, decodeByte byte encoding ≠ 0xfffd) :
    decodeSingleByte raw encoding = encodeUtf8 (raw.map (byteChar encoding)) := by
  rw [decodeSingleByte, ← List.filterMap_eq_map]
  congr 1
  apply List.filterMap_congr
  intro byte hbyte
  rw [charFromU32, if_pos (encodeCodepoint_decodeByte (h byte hbyte)).1]
  rfl

/-- UTF-8 texts that begin alike begin with the same characters. -/
theorem prefix_of_encodeUtf8 {front text : List Char} (h : encodeUtf8 front <+: encodeUtf8 text) :
    front <+: text := by
  induction front generalizing text with
  | nil => exact List.nil_prefix
  | cons c front ih =>
    obtain ⟨rest, hrest⟩ := h
    rw [encodeUtf8_cons, List.append_assoc] at hrest
    obtain ⟨a, bytes, hbytes, hfirst⟩ := exists_firstChar c (encodeUtf8 front ++ rest)
    rw [hbytes] at hrest
    cases text with
    | nil => exact absurd hrest (List.cons_ne_nil _ _)
    | cons d text =>
      obtain ⟨a', bytes', hbytes', hfirst'⟩ := exists_firstChar d (encodeUtf8 text)
      rw [encodeUtf8_cons, hbytes', List.cons.injEq] at hrest
      obtain ⟨rfl, rfl⟩ := hrest
      rw [hfirst, Option.some.injEq, Prod.mk.injEq] at hfirst'
      obtain ⟨rfl, htail⟩ := hfirst'
      exact (List.cons_prefix_cons).mpr ⟨rfl, ih ⟨rest, htail⟩⟩

/-- A password that begins like a text with a byte-order mark. -/
def beginsWithBom (raw : Bytes) : Bool :=
  [0xfe, 0xff].isPrefixOf raw || [0xff, 0xfe].isPrefixOf raw || [0xef, 0xbb, 0xbf].isPrefixOf raw

/-- Bytes that keep their numbers, in front of a decoded password, stand in front of the
password. -/
theorem prefix_of_decodeSingleByte {front raw : Bytes}
    (hfront : ∀ byte ∈ front, 0xae ≤ byte)
    (h : encodeUtf8 (front.map (byteChar .pdfDoc)) <+: encodeUtf8 (raw.map (byteChar .pdfDoc))) :
    front <+: raw := by
  have hbyte : ∀ byte byte' : UInt8, 0xae ≤ byte →
      byteChar .pdfDoc byte = byteChar .pdfDoc byte' → byte = byte' := by
    intro byte byte' hbound hsame
    have hkeeps := forall_byte (p := fun byte => 0xae ≤ byte →
      (byteChar .pdfDoc byte).toNat = byte.toNat) (by decide)
    have hothers := forall_byte (p := fun byte => ¬0xae ≤ byte →
      (byteChar .pdfDoc byte).toNat < 0xae ∨ 0x100 ≤ (byteChar .pdfDoc byte).toNat)
      (by decide)
    have hnumber := hkeeps byte hbound
    have hlt := byte.toNat_lt
    have hle : 0xae ≤ byte.toNat := hbound
    rw [hsame] at hnumber
    by_cases hbound' : 0xae ≤ byte'
    · exact UInt8.toNat_inj.mp (hnumber.symm.trans (hkeeps byte' hbound'))
    · have := hothers byte' hbound'
      omega
  have hchars := prefix_of_encodeUtf8 h
  clear h
  induction front generalizing raw with
  | nil => exact List.nil_prefix
  | cons byte front ih =>
    cases raw with
    | nil => exact absurd hchars.length_le (by simp)
    | cons byte' raw =>
      rw [List.map_cons, List.map_cons, List.cons_prefix_cons] at hchars
      have hsame := hbyte byte byte' (hfront byte List.mem_cons_self) hchars.1
      exact (List.cons_prefix_cons).mpr
        ⟨hsame, ih (fun b hb => hfront b (List.mem_cons_of_mem byte hb)) hchars.2⟩

theorem looksLikeBom_decodeSingleByte {raw : Bytes}
    (h : ∀ byte ∈ raw, decodeByte byte .pdfDoc ≠ 0xfffd) (hbom : beginsWithBom raw = false) :
    looksLikeBom (decodeSingleByte raw .pdfDoc) = false := by
  have hfront : ∀ front : Bytes, (∀ byte ∈ front, 0xae ≤ byte) → front.isPrefixOf raw = false →
      (encodeUtf8 (front.map (byteChar .pdfDoc))).isPrefixOf
        (encodeUtf8 (raw.map (byteChar .pdfDoc))) = false := by
    intro front hbytes hnot
    rw [← Bool.not_eq_true, List.isPrefixOf_iff_prefix] at hnot ⊢
    exact fun hprefix => hnot (prefix_of_decodeSingleByte hbytes hprefix)
  rw [beginsWithBom, Bool.or_eq_false_iff, Bool.or_eq_false_iff] at hbom
  obtain ⟨⟨hbe, hle⟩, hutf8⟩ := hbom
  rw [decodeSingleByte_eq h, looksLikeBom, Bool.or_eq_false_iff, Bool.or_eq_false_iff]
  exact ⟨⟨hfront [0xfe, 0xff] (by simp) hbe, hfront [0xff, 0xfe] (by simp) hle⟩,
    hfront [0xef, 0xbb, 0xbf] (by simp) hutf8⟩

/-- The encoders agree on every text, and encoding undoes decoding. -/
theorem transcodeUtf8_spec :
    (∀ raw encoding, isUtf8 raw = true →
      transcodeUtf8 raw encoding =
        if (transcodeUtf8WithStatus raw encoding.general).2 then
          some (transcodeUtf8WithStatus raw encoding.general).1
        else none) ∧
    ∀ raw encoding, (∀ byte ∈ raw, decodeByte byte encoding ≠ 0xfffd) →
      (encoding = .pdfDoc → beginsWithBom raw = false) →
        transcodeUtf8 (decodeSingleByte raw encoding) encoding = some raw := by
  constructor
  · intro raw encoding hraw
    obtain ⟨text, rfl⟩ := isUtf8_iff.mp hraw
    exact transcodeUtf8_encodeUtf8 text encoding
  · intro raw encoding h hbom
    have hfront : ¬(encoding = .pdfDoc ∧ looksLikeBom (decodeSingleByte raw encoding) = true) := by
      rintro ⟨rfl, hlooks⟩
      rw [looksLikeBom_decodeSingleByte h (hbom rfl)] at hlooks
      exact Bool.false_ne_true hlooks
    have hbytes : ∀ byte ∈ raw,
        encodeCodepoint (byteChar encoding byte).toNat encoding = some byte := by
      intro byte hbyte
      rw [toNat_byteChar (h byte hbyte)]
      exact (encodeCodepoint_decodeByte (h byte hbyte)).2
    rw [decodeSingleByte_eq h] at hfront ⊢
    rw [transcodeUtf8, decodeUtf8_encodeUtf8, Option.bind_eq_bind, Option.bind_some,
      if_neg hfront, List.mapM_map]
    have hmap := mapM_of_forall (g := id) hbytes
    rw [List.map_id] at hmap
    exact hmap

/-- A password in WinAnsiEncoding, and the byte-order mark that is refused. -/
theorem transcodeUtf8_spec_winAnsi :
    transcodeUtf8 (decodeSingleByte [0x63, 0x61, 0x66, 0xe9, 0x80] .winAnsi) .winAnsi =
        some [0x63, 0x61, 0x66, 0xe9, 0x80] ∧
      transcodeUtf8 [0xc3, 0xbe, 0xc3, 0xbf] .pdfDoc = none := by
  constructor
  · have hall : ([0x63, 0x61, 0x66, 0xe9, 0x80] : Bytes).all
        (fun byte => decodeByte byte .winAnsi != 0xfffd) = true := rfl
    exact transcodeUtf8_spec.2 _ _
      (fun byte hbyte => bne_iff_ne.mp (List.all_eq_true.mp hall byte hbyte)) nofun
  · rw [transcodeUtf8_spec.1 _ _ (by decide)]
    decide

end Flpdf.Password
