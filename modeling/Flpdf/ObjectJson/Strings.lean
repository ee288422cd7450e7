import Flpdf.Json.Acceptance
import Flpdf.Json.Written
import Flpdf.ObjectJson.Importer
import Flpdf.PdfString.Stored

/-!
# Strings through the JSON form

A string that `writeString` has written, parsed as JSON and imported again: the
hexadecimal form gives back its bytes, the Unicode form its text. Where the text
was decoded from PDFDocEncoding, the two views of a string may differ.
-/

namespace Flpdf

open ObjectJsonWriter (hexText isMarkedUtf8 isPrintable)

variable {bytes text s : Bytes} {byte : UInt8}

/-! ## JSON strings -/

theorem encodeString_append : Json.encodeString (bytes ++ text) =
    Json.encodeString bytes ++ Json.encodeString text :=
  List.flatMap_append

/-- A safe text has no byte that is escaped. -/
theorem encodeString_of_safe (h : jsonStringIsSafe text = true) : Json.encodeString text = text := by
  apply Json.encodeString_of_plain
  intro byte hbyte
  exact forall_byte
    (p := fun byte => ((0x22 < byte && byte != 0x5c) || byte == 0x20 || byte == 0x21) = true →
      Json.encodeByte byte = [byte])
    (by decide) byte (List.all_eq_true.mp h byte hbyte)

theorem writeJsonEncoded_eq (w : ObjectJsonWriter) :
    w.writeJsonEncoded text = w.write (Json.encodeString text) := by
  rw [ObjectJsonWriter.writeJsonEncoded]
  by_cases hsafe : jsonStringIsSafe text = true
  · rw [if_pos hsafe, encodeString_of_safe hsafe]
  · rw [if_neg hsafe, jsonEncodeString]

/-- The JSON text of a string. -/
def jsonQuoted (string : Bytes) : Bytes := 0x22 :: (Json.encodeString string ++ [0x22])

theorem parse_jsonQuoted (string : Bytes) : Json.parse (jsonQuoted string) =
    some (.ok (Json.makeString string 0 ((Json.encodeString string).length + 2))) := by
  apply Json.parse_ok_iff_accepts.mpr
  apply Json.Parser.accepts_of_document
  have hscalar := Json.Scalar.string (Json.stringText_encodeString ((0 : ℤ) + 1) string)
  rw [Int.zero_add] at hscalar
  refine ⟨[], jsonQuoted string, [], ?_, ?_, ?_, ?_⟩
  · intro byte hbyte
    cases hbyte
  · intro byte hbyte
    cases hbyte
  · exact .inl hscalar
  · rw [List.nil_append, List.append_nil]

/-! ## Hexadecimal texts -/

theorem hexText_cons : hexText (byte :: bytes) =
    hexDigit (byte >>> 4) :: hexDigit (byte &&& 0x0f) :: hexText bytes :=
  rfl

theorem hexText_length (bytes : Bytes) : (hexText bytes).length = 2 * bytes.length := by
  induction bytes with
  | nil => rfl
  | cons byte bytes ih =>
    rw [hexText_cons, List.length_cons, List.length_cons, ih, List.length_cons]
    omega

theorem hexDecode_hexText (bytes : Bytes) : hexDecode (hexText bytes) = some bytes := by
  induction bytes with
  | nil => rfl
  | cons byte bytes ih =>
    have hjoin : (16 : UInt8) * (byte >>> 4) + (byte &&& 0x0f) = byte :=
      forall_byte (p := fun byte => (16 : UInt8) * (byte >>> 4) + (byte &&& 0x0f) = byte)
        (by decide) byte
    rw [hexText_cons, hexDecode, hexValue_hexDigit_high, hexValue_hexDigit_low, ih]
    show some (((16 : UInt8) * (byte >>> 4) + (byte &&& 0x0f)) :: bytes) = some (byte :: bytes)
    rw [hjoin]

theorem hexText_isHex (bytes : Bytes) :
    (hexText bytes).all (fun byte => (hexValue byte).isSome) = true := by
  induction bytes with
  | nil => rfl
  | cons byte bytes ih =>
    rw [hexText_cons, List.all_cons, List.all_cons, ih, hexValue_hexDigit_high,
      hexValue_hexDigit_low]
    rfl

theorem encodeString_hexText (bytes : Bytes) : Json.encodeString (hexText bytes) = hexText bytes := by
  apply Json.encodeString_of_plain
  intro byte hbyte
  exact forall_byte (p := fun byte => (hexValue byte).isSome = true → Json.encodeByte byte = [byte])
    (by decide) byte (List.all_eq_true.mp (hexText_isHex bytes) byte hbyte)

/-! ## The two forms -/

/-- What `writeString` writes of a string by itself, in version 2. -/
def writtenString (s : Bytes) : Bytes := (({} : ObjectJsonWriter).writeString s 2).out

/-- The text of the Unicode form. -/
def unicodeForm (s text : Bytes) : Prop := writtenString s = jsonQuoted (ascii "u:" ++ text)

def binaryForm (s : Bytes) : Prop := writtenString s = jsonQuoted (ascii "b:" ++ hexText s)

theorem writeUnicodeQuoted_out (text : Bytes) :
    (({} : ObjectJsonWriter).writeUnicodeQuoted text).out = jsonQuoted (ascii "u:" ++ text) := by
  rw [ObjectJsonWriter.writeUnicodeQuoted, writeJsonEncoded_eq, jsonQuoted, encodeString_append]
  rfl

theorem writeBinaryQuoted_out (s : Bytes) :
    (({} : ObjectJsonWriter).writeBinaryQuoted s).out = jsonQuoted (ascii "b:" ++ hexText s) := by
  rw [ObjectJsonWriter.writeBinaryQuoted, jsonQuoted, encodeString_append, encodeString_hexText]
  rfl

/-- A text that starts with a letter is no reference. -/
theorem parseIndirectReference_of_letter (byte : UInt8) (bytes : Bytes) (h : isAsciiDigit byte = false) :
    parseIndirectReference (byte :: bytes) = .noMatch := by
  have hnone : (byte :: bytes).takeWhile isAsciiDigit = [] := by
    rw [List.takeWhile_cons, h]
    rfl
  rw [parseIndirectReference, if_pos (.inl hnone)]

theorem jsonStringToHandle_unicode (text : Bytes) : jsonStringToHandle (ascii "u:" ++ text) =
    some (.ok (.string (newUnicodeString text))) := by
  have hmatch : parseIndirectReference (ascii "u:" ++ text) = .noMatch :=
    parseIndirectReference_of_letter 0x75 _ (by decide)
  rw [jsonStringToHandle, hmatch]
  rfl

theorem jsonStringToHandle_binary (s : Bytes) : jsonStringToHandle (ascii "b:" ++ hexText s) =
    some (.ok (.string s)) := by
  have hmatch : parseIndirectReference (ascii "b:" ++ hexText s) = .noMatch :=
    parseIndirectReference_of_letter 0x62 _ (by decide)
  have hdrop : (ascii "b:" ++ hexText s).drop 2 = hexText s := rfl
  have heven : ¬((hexText s).length % 2 ≠ 0 ∨
      (!(hexText s).all fun byte => (hexValue byte).isSome) = true) := by
    rw [hexText_length, hexText_isHex]
    simp
  have hu : (ascii "u:").isPrefixOf (ascii "b:" ++ hexText s) = false := rfl
  have hb : (ascii "b:").isPrefixOf (ascii "b:" ++ hexText s) = true := rfl
  rw [jsonStringToHandle, hmatch]
  dsimp only
  rw [hu, if_neg Bool.false_ne_true, if_pos hb, hdrop, if_neg heven, hexDecode_hexText]

/-! ## Strings that come back -/

/-- The string comes back from its JSON form: with its bytes where these were
written, with its text where that was. -/
def StringSurvives (s : Bytes) : Prop :=
  ∃ string start stop v, Json.parse (writtenString s) = some (.ok (Json.makeString string start stop)) ∧
    jsonStringToHandle string = some (.ok (.string v)) ∧
    ((ascii "b:" <+: string ∧ v = s) ∨ (ascii "u:" <+: string ∧ utf8Value v = utf8Value s))

theorem stringSurvives_of_binary (h : binaryForm s) : StringSurvives s := by
  have hparse := parse_jsonQuoted (ascii "b:" ++ hexText s)
  rw [← h] at hparse
  exact ⟨_, _, _, s, hparse, jsonStringToHandle_binary s, .inl ⟨List.prefix_append _ _, rfl⟩⟩

/-- The Unicode form keeps a string if and only if its text is the UTF-8 view. -/
theorem stringSurvives_iff_of_unicode (chars : List Char) (h : unicodeForm s (encodeUtf8 chars)) :
    StringSurvives s ↔ encodeUtf8 chars = utf8Value s := by
  have hparse := parse_jsonQuoted (ascii "u:" ++ encodeUtf8 chars)
  rw [← h] at hparse
  constructor
  · rintro ⟨string, start, stop, v, hparse', hhandle, hform⟩
    rw [hparse] at hparse'
    have hstring : ascii "u:" ++ encodeUtf8 chars = string := by
      injection hparse' with hparse'
      injection hparse' with hparse'
      injection hparse'
    rw [← hstring, jsonStringToHandle_unicode] at hhandle
    have hv : newUnicodeString (encodeUtf8 chars) = v := by
      injection hhandle with hhandle
      injection hhandle with hhandle
      injection hhandle
    rcases hform with ⟨hbinary, -⟩ | ⟨-, hview⟩
    · rw [← hstring] at hbinary
      obtain ⟨_, hbinary⟩ := hbinary
      injection hbinary with hletter
      exact absurd hletter (by decide)
    · rw [← hv, utf8Value_newUnicodeString] at hview
      exact hview
  · intro hview
    refine ⟨_, _, _, _, hparse, jsonStringToHandle_unicode _, .inr ⟨List.prefix_append _ _, ?_⟩⟩
    rw [utf8Value_newUnicodeString, hview]

/-! ## The branches of the writer -/

/-- `writeString` decodes the string from PDFDocEncoding. -/
structure DecodesText (s : Bytes) : Prop where
  notBigEndian : ¬[0xfe, 0xff] <+: s
  notLittleEndian : ¬[0xff, 0xfe] <+: s
  notMarked : isMarkedUtf8 s = false
  notPrintable : s.all isPrintable = false
  notHex : jsonUseHexString s = false
  decodes : (decodePdfTextString s).isSome

theorem utf8Value_of_bigEndian (h : [0xfe, 0xff] <+: s) :
    utf8Value s = encodeUtf8 (lossyUtf16ToUtf8 (s.drop 2) false) := by
  obtain ⟨rest, rfl⟩ := h
  rfl

theorem utf8Value_of_littleEndian (h : [0xff, 0xfe] <+: s) :
    utf8Value s = encodeUtf8 (lossyUtf16ToUtf8 (s.drop 2) true) := by
  obtain ⟨rest, rfl⟩ := h
  rfl

theorem utf8Value_of_mark (h : [0xef, 0xbb, 0xbf] <+: s) : utf8Value s = s.drop 3 := by
  obtain ⟨rest, rfl⟩ := h
  rfl

/-- A printable string is its own text. -/
theorem printable_text (h : s.all isPrintable = true) :
    s = encodeUtf8 (s.map pdfDocChar) := by
  induction s with
  | nil => rfl
  | cons byte s ih =>
    rw [List.all_cons, Bool.and_eq_true] at h
    have hchar : String.utf8EncodeChar (pdfDocChar byte) = [byte] :=
      forall_byte (p := fun byte => isPrintable byte = true →
        String.utf8EncodeChar (pdfDocChar byte) = [byte]) (by decide) byte h.1
    rw [List.map_cons, encodeUtf8_cons, ← ih h.2, hchar]
    rfl

/-- No byte order mark is printable. -/
theorem not_prefix_of_printable {mark : UInt8} {marks : Bytes} (h : s.all isPrintable = true)
    (hmark : isPrintable mark = false) : ¬mark :: marks <+: s := by
  rintro ⟨rest, rfl⟩
  rw [List.cons_append, List.all_cons, hmark] at h
  cases h

theorem utf8Value_of_printable (h : s.all isPrintable = true) : utf8Value s = s := by
  rw [utf8Value_of_plain (not_prefix_of_printable h (by decide))
    (not_prefix_of_printable h (by decide)) (not_prefix_of_printable h (by decide)),
    ← printable_text h]

theorem decodePdfTextString_of_plain (h₁ : ¬[0xfe, 0xff] <+: s) (h₂ : ¬[0xff, 0xfe] <+: s) :
    decodePdfTextString s = s.mapM pdfDocEncoding := by
  unfold decodePdfTextString
  split
  · exact absurd ⟨_, rfl⟩ h₁
  · exact absurd ⟨_, rfl⟩ h₂
  · rfl

/-- Of the bytes that have a character, the UTF-8 view replaces only the soft hyphen. -/
theorem pdfDocChar_of_encoding {char : Char} (h : pdfDocEncoding byte = some char) :
    pdfDocChar byte = char ↔ byte ≠ 0xad := by
  obtain rfl : (pdfDocEncoding byte).getD replacementChar = char := by
    rw [h]
    rfl
  have hsome : (pdfDocEncoding byte).isSome = true := Option.isSome_of_eq_some h
  exact forall_byte (p := fun byte => (pdfDocEncoding byte).isSome = true →
    (pdfDocChar byte = (pdfDocEncoding byte).getD replacementChar ↔ byte ≠ 0xad))
    (by decide) byte hsome

theorem map_pdfDocChar_iff {chars : List Char} (h : s.mapM pdfDocEncoding = some chars) :
    s.map pdfDocChar = chars ↔ 0xad ∉ s := by
  have hforall := forall₂_of_mapM h
  clear h
  induction hforall with
  | nil => simp
  | cons hbyte _ ih =>
    rw [List.map_cons, List.cons.injEq, pdfDocChar_of_encoding hbyte, List.mem_cons, not_or, ne_comm]
    exact and_congr_right fun _ => ih

/-- The decoded text is the UTF-8 view, but for soft hyphens and for a UTF-8 mark
with no UTF-8 behind it. -/
theorem decoded_eq_view_iff {chars : List Char} (h : DecodesText s)
    (hchars : decodePdfTextString s = some chars) :
    encodeUtf8 chars = utf8Value s ↔ 0xad ∉ s ∧ ¬[0xef, 0xbb, 0xbf] <+: s := by
  rw [decodePdfTextString_of_plain h.notBigEndian h.notLittleEndian] at hchars
  by_cases hmark : [0xef, 0xbb, 0xbf] <+: s
  · have hbad : encodeUtf8 chars ≠ utf8Value s := by
      intro heq
      rw [utf8Value_of_mark hmark] at heq
      have hmarked := h.notMarked
      rw [isMarkedUtf8, List.isPrefixOf_iff_prefix.mpr hmark, isUtf8_iff.mpr ⟨chars, heq⟩] at hmarked
      cases hmarked
    simp [hbad, hmark]
  · rw [utf8Value_of_plain h.notBigEndian h.notLittleEndian hmark, ← map_pdfDocChar_iff hchars]
    constructor
    · intro heq
      exact ⟨(encodeUtf8_injective heq).symm, hmark⟩
    · intro heq
      rw [heq.1]

theorem writtenString_of_decodes {chars : List Char} (h : DecodesText s)
    (hchars : decodePdfTextString s = some chars) : unicodeForm s (encodeUtf8 chars) := by
  have hbig : ¬[0xfe, 0xff].isPrefixOf s = true := by
    rw [List.isPrefixOf_iff_prefix]
    exact h.notBigEndian
  have hlittle : ¬[0xff, 0xfe].isPrefixOf s = true := by
    rw [List.isPrefixOf_iff_prefix]
    exact h.notLittleEndian
  rw [unicodeForm, ← writeUnicodeQuoted_out, writtenString, ObjectJsonWriter.writeString,
    if_neg (by decide), if_neg hbig, if_neg hlittle, h.notMarked, if_neg Bool.false_ne_true,
    h.notPrintable, if_neg Bool.false_ne_true, ObjectJsonWriter.writeOtherString, h.notHex,
    if_neg Bool.false_ne_true, hchars]

/-- Every other string is written in a form that keeps it. -/
theorem stringSurvives_of_not_decodes (h : ¬DecodesText s) : StringSurvives s := by
  by_cases hbig : [0xfe, 0xff] <+: s
  · apply (stringSurvives_iff_of_unicode _ _).mpr (utf8Value_of_bigEndian hbig).symm
    rw [unicodeForm, ← writeUnicodeQuoted_out, writtenString, ObjectJsonWriter.writeString,
      if_neg (by decide), if_pos (List.isPrefixOf_iff_prefix.mpr hbig)]
  have hbig' : ¬[0xfe, 0xff].isPrefixOf s = true := by rwa [List.isPrefixOf_iff_prefix]
  by_cases hlittle : [0xff, 0xfe] <+: s
  · apply (stringSurvives_iff_of_unicode _ _).mpr (utf8Value_of_littleEndian hlittle).symm
    rw [unicodeForm, ← writeUnicodeQuoted_out, writtenString, ObjectJsonWriter.writeString,
      if_neg (by decide), if_neg hbig', if_pos (List.isPrefixOf_iff_prefix.mpr hlittle)]
  have hlittle' : ¬[0xff, 0xfe].isPrefixOf s = true := by rwa [List.isPrefixOf_iff_prefix]
  cases hmarked : isMarkedUtf8 s with
  | true =>
    have hparts := hmarked
    rw [isMarkedUtf8, Bool.and_eq_true, List.isPrefixOf_iff_prefix, isUtf8_iff] at hparts
    obtain ⟨hmark, chars, hchars⟩ := hparts
    apply (stringSurvives_iff_of_unicode chars _).mpr
    · rw [hchars, utf8Value_of_mark hmark]
    · rw [unicodeForm, ← writeUnicodeQuoted_out, writtenString, ObjectJsonWriter.writeString,
        if_neg (by decide), if_neg hbig', if_neg hlittle', if_pos hmarked, hchars]
  | false =>
    cases hprintable : s.all isPrintable with
    | true =>
      apply (stringSurvives_iff_of_unicode (s.map pdfDocChar) _).mpr
      · rw [← printable_text hprintable, utf8Value_of_printable hprintable]
      · rw [unicodeForm, ← writeUnicodeQuoted_out, writtenString, ObjectJsonWriter.writeString,
          if_neg (by decide), if_neg hbig', if_neg hlittle', hmarked, if_neg Bool.false_ne_true,
          if_pos hprintable, ← printable_text hprintable]
    | false =>
      apply stringSurvives_of_binary
      rw [binaryForm, ← writeBinaryQuoted_out, writtenString, ObjectJsonWriter.writeString,
        if_neg (by decide), if_neg hbig', if_neg hlittle', hmarked, if_neg Bool.false_ne_true,
        hprintable, if_neg Bool.false_ne_true, ObjectJsonWriter.writeOtherString]
      cases hhex : jsonUseHexString s with
      | true => rw [if_pos rfl]
      | false =>
        cases hdecode : decodePdfTextString s with
        | none => rfl
        | some chars =>
          have hsome : (decodePdfTextString s).isSome = true := Option.isSome_of_eq_some hdecode
          exact absurd ⟨hbig, hlittle, hmarked, hprintable, hhex, hsome⟩ h

end Flpdf
