import Flpdf.PdfString.Text
import Mathlib.Data.List.Forall2

/-!
# Unicode texts in stored strings

`newUnicodeString` keeps a text in whichever form it chooses: the UTF-8 view of
the stored string is the text again.
-/

namespace Flpdf

variable {bytes rest : Bytes} {c : Char} {text : List Char} {codepoint count fuel : ℕ}

/-! ## The UTF-8 view -/

/-- Without a byte order mark, the view goes byte by byte. -/
theorem utf8Value_of_plain (h₁ : ¬[0xfe, 0xff] <+: bytes) (h₂ : ¬[0xff, 0xfe] <+: bytes)
    (h₃ : ¬[0xef, 0xbb, 0xbf] <+: bytes) : utf8Value bytes = encodeUtf8 (bytes.map pdfDocChar) := by
  unfold utf8Value
  split
  · exact absurd ⟨_, rfl⟩ h₁
  · exact absurd ⟨_, rfl⟩ h₂
  · exact absurd ⟨_, rfl⟩ h₃
  · rfl

theorem utf8Value_singleton (byte : UInt8) :
    utf8Value [byte] = String.utf8EncodeChar (pdfDocChar byte) := by
  have hshort : ∀ mark : Bytes, 2 ≤ mark.length → ¬mark <+: [byte] := by
    intro mark hlength hstarts
    have hle := hstarts.length_le
    rw [List.length_singleton] at hle
    omega
  rw [utf8Value_of_plain (hshort _ (by decide)) (hshort _ (by decide)) (hshort _ (by decide)),
    List.map_singleton, encodeUtf8_cons]
  exact List.append_nil _

theorem pdfDocChar_of_findPdfDoc {byte : UInt8} (h : findPdfDoc c = some byte) :
    pdfDocChar byte = c := by
  have hfound := List.find?_some h
  rw [utf8Value_singleton, Bool.and_eq_true, beq_iff_eq] at hfound
  have htexts : encodeUtf8 [pdfDocChar byte] = encodeUtf8 [c] := by
    rw [encodeUtf8_cons, encodeUtf8_cons, hfound.2]
  exact (List.cons.inj (encodeUtf8_injective htexts)).1

theorem forall₂_of_mapM {α β : Type} {f : α → Option β} {as : List α} {bs : List β}
    (h : as.mapM f = some bs) : List.Forall₂ (fun a b => f a = some b) as bs := by
  induction as generalizing bs with
  | nil =>
    cases h
    exact .nil
  | cons a as ih =>
    rw [List.mapM_cons] at h
    cases ha : f a with
    | none =>
      rw [ha] at h
      cases h
    | some b =>
      cases has : as.mapM f with
      | none =>
        rw [ha, has] at h
        cases h
      | some bs' =>
        rw [ha, has] at h
        cases h
        exact .cons ha (ih has)

theorem map_pdfDocChar_of_mapM {pdfdoc : Bytes} (h : text.mapM findPdfDoc = some pdfdoc) :
    pdfdoc.map pdfDocChar = text := by
  have hforall := forall₂_of_mapM h
  clear h
  induction hforall with
  | nil => rfl
  | cons hfound _ ih => rw [List.map_cons, ih, pdfDocChar_of_findPdfDoc hfound]

/-! ## Normalization of valid UTF-8 -/

theorem takeContinuations_cons {byte : UInt8} (h : isContinuation byte = true) :
    takeContinuations (count + 1) codepoint (byte :: rest) =
      takeContinuations count (sixMore codepoint byte) rest := by
  have hbyte := forall_byte (p := fun byte => isContinuation byte = true →
    ¬byte &&& 0xc0 ≠ 0x80 ∧ (byte &&& 0x3f).toNat = byte.toNat - 0x80) (by decide) byte h
  have hcode : (codepoint <<< 6) + (byte.toNat - 0x80) = sixMore codepoint byte := by
    rw [Nat.shiftLeft_eq]
    unfold sixMore
    omega
  rw [takeContinuations, if_neg hbyte.1, hbyte.2, hcode]

theorem charFromU32_of_assemble {low n : ℕ} (h : assemble low n = some c) :
    ¬n < low ∧ (charFromU32 n).getD replacementChar = c := by
  unfold assemble at h
  split_ifs at h with hlow
  rw [h]
  exact ⟨Nat.not_lt.mpr hlow, rfl⟩

/-- A character in valid UTF-8 is no error. -/
theorem normalizeChar_of_firstChar {a : UInt8} (h : firstChar a bytes = some (c, rest)) :
    normalizeChar a bytes = (some c, rest) := by
  unfold firstChar at h
  unfold normalizeChar
  by_cases h₁ : a < 0x80
  · rw [if_pos h₁] at h ⊢
    obtain ⟨d, hd, heq⟩ := Option.map_eq_some_iff.mp h
    cases heq
    rw [← charFromU32_eq_some_iff.mp hd, Char.ofNat_toNat]
  rw [if_neg h₁] at h ⊢
  by_cases h₂ : a < 0xe0
  · rw [if_pos h₂] at h
    cases bytes with
    | nil => cases h
    | cons x bytes =>
      dsimp only at h
      split_ifs at h with htail
      obtain ⟨d, hd, heq⟩ := Option.map_eq_some_iff.mp h
      cases heq
      obtain ⟨hcount, hclear⟩ := forall_byte (p := fun a => 0xc0 ≤ a → a < 0xe0 →
        countBytes a 8 0x40 0x80 0 = (1, 0xc0) ∧ (a &&& ~~~0xc0).toNat = a.toNat - 0xc0)
        (by decide) a htail.1 h₂
      obtain ⟨hlow, hchar⟩ := charFromU32_of_assemble hd
      rw [hcount]
      dsimp only
      rw [if_neg (by simp), takeContinuations_cons htail.2, takeContinuations, hclear]
      dsimp only
      rw [if_neg (fun h => hlow h.2), hchar]
  by_cases h₃ : a < 0xf0
  · rw [if_neg h₂, if_pos h₃] at h
    match bytes, h with
    | x :: y :: bytes, h =>
      dsimp only at h
      split_ifs at h with htail
      obtain ⟨d, hd, heq⟩ := Option.map_eq_some_iff.mp h
      cases heq
      obtain ⟨hcount, hclear⟩ := forall_byte (p := fun a => ¬a < 0xe0 → a < 0xf0 →
        countBytes a 8 0x40 0x80 0 = (2, 0xe0) ∧ (a &&& ~~~0xe0).toNat = a.toNat - 0xe0)
        (by decide) a h₂ h₃
      obtain ⟨hlow, hchar⟩ := charFromU32_of_assemble hd
      rw [hcount]
      dsimp only
      rw [if_neg (by simp), takeContinuations_cons htail.1, takeContinuations_cons htail.2,
        takeContinuations, hclear]
      dsimp only
      rw [if_neg (fun h => hlow h.2), hchar]
  · rw [if_neg h₂, if_neg h₃] at h
    match bytes, h with
    | x :: y :: z :: bytes, h =>
      dsimp only at h
      split_ifs at h with htail
      obtain ⟨d, hd, heq⟩ := Option.map_eq_some_iff.mp h
      cases heq
      have hsmall : a < 0xf8 := by
        have hmax := toNat_lt c
        have hcode := (assemble_eq_some_iff.mp hd).2
        have hge : 0xf0 ≤ a.toNat := Nat.not_lt.mp fun h => h₃ (UInt8.lt_iff_toNat_lt.mpr h)
        apply UInt8.lt_iff_toNat_lt.mpr
        show a.toNat < 0xf8
        unfold sixMore at hcode
        omega
      obtain ⟨hcount, hclear⟩ := forall_byte (p := fun a => ¬a < 0xf0 → a < 0xf8 →
        countBytes a 8 0x40 0x80 0 = (3, 0xf0) ∧ (a &&& ~~~0xf0).toNat = a.toNat - 0xf0)
        (by decide) a h₃ hsmall
      obtain ⟨hlow, hchar⟩ := charFromU32_of_assemble hd
      rw [hcount]
      dsimp only
      rw [if_neg (by simp), takeContinuations_cons htail.1, takeContinuations_cons htail.2.1,
        takeContinuations_cons htail.2.2, takeContinuations, hclear]
      dsimp only
      rw [if_neg (fun h => hlow h.2), hchar]

theorem normalizeFrom_encodeUtf8 (h : (encodeUtf8 text).length ≤ fuel) :
    normalizeFrom fuel (encodeUtf8 text) = (text, false) := by
  induction text generalizing fuel with
  | nil => cases fuel <;> rfl
  | cons c text ih =>
    obtain ⟨a, bytes, heq, hfirst⟩ := exists_firstChar c (encodeUtf8 text)
    rw [encodeUtf8_cons] at h ⊢
    have hpos : 0 < (String.utf8EncodeChar c).length := by
      rw [String.length_utf8EncodeChar]
      exact c.utf8Size_pos
    rw [List.length_append] at h
    cases fuel with
    | zero => omega
    | succ fuel =>
      rw [heq, normalizeFrom, normalizeChar_of_firstChar hfirst]
      dsimp only
      rw [ih (by omega)]
      rfl

theorem normalizeUtf8_encodeUtf8 (text : List Char) :
    normalizeUtf8 (encodeUtf8 text) = (text, false) :=
  normalizeFrom_encodeUtf8 (Nat.le_refl _)

/-! ## Stored forms -/

theorem utf8Value_encodeUtf16be (text : List Char) :
    utf8Value (encodeUtf16be text) = encodeUtf8 text := by
  rw [encodeUtf16be, utf8Value, lossyUtf16ToUtf8_units]

/-- A PDFDocEncoded text begins like a byte order mark only if the text says so. -/
theorem resemblesUnicodeBom_of_marked {pdfdoc mark : Bytes} (htext : pdfdoc.map pdfDocChar = text)
    (hmark : mark = [0xfe, 0xff] ∨ mark = [0xff, 0xfe] ∨ mark = [0xef, 0xbb, 0xbf])
    (h : mark <+: pdfdoc) : resemblesUnicodeBom (encodeUtf8 text) = true := by
  obtain ⟨rest, rfl⟩ := h
  rw [← htext, List.map_append, encodeUtf8, List.flatMap_append, resemblesUnicodeBom]
  simp only [Bool.or_eq_true, List.isPrefixOf_iff_prefix]
  rcases hmark with rfl | rfl | rfl
  · exact .inl (.inl ⟨_, rfl⟩)
  · exact .inl (.inr ⟨_, rfl⟩)
  · exact .inr ⟨_, rfl⟩

/-- The stored string of a text has the text for its UTF-8 view. -/
theorem utf8Value_newUnicodeString (text : List Char) :
    utf8Value (newUnicodeString (encodeUtf8 text)) = encodeUtf8 text := by
  rw [newUnicodeString, normalizeUtf8_encodeUtf8]
  dsimp only
  by_cases hbom : resemblesUnicodeBom (encodeUtf8 text) = true
  · rw [hbom]
    exact utf8Value_encodeUtf16be text
  · rw [Bool.not_eq_true] at hbom
    rw [hbom, if_pos (by decide)]
    cases hpdfdoc : text.mapM findPdfDoc with
    | none => exact utf8Value_encodeUtf16be text
    | some pdfdoc =>
      have htext := map_pdfDocChar_of_mapM hpdfdoc
      have hnot : ∀ mark, (mark = [0xfe, 0xff] ∨ mark = [0xff, 0xfe] ∨ mark = [0xef, 0xbb, 0xbf]) →
          ¬mark <+: pdfdoc := by
        intro mark hmark hstarts
        rw [resemblesUnicodeBom_of_marked htext hmark hstarts] at hbom
        cases hbom
      dsimp only
      rw [utf8Value_of_plain (hnot _ (.inl rfl)) (hnot _ (.inr (.inl rfl)))
        (hnot _ (.inr (.inr rfl))), htext]

end Flpdf
