import Flpdf.PdfString.Transcode

/-! # Texts that are not valid UTF-8

The stored string of any bytes has the normalized text for its UTF-8 view.  A byte
order mark could only come from bytes that look like one, since no other form of
the characters in it is free of errors.
-/

namespace Flpdf

variable {first : UInt8} {s rest rest' : Bytes} {codepoint fuel : ℕ} {text more : List Char}

/-- Only the two-byte form gives a code point of eleven bits. -/
theorem twoBytes_of_nextUtf8Codepoint (h : nextUtf8Codepoint first rest = (some codepoint, rest'))
    (hlow : 0x80 ≤ codepoint) (hhigh : codepoint < 0x800) :
    first :: rest = UInt8.ofNat (0xc0 + codepoint / 64) :: UInt8.ofNat (0x80 + codepoint % 64) :: rest' := by
  rw [nextUtf8Codepoint] at h
  by_cases hascii : first < 128
  · rw [if_pos hascii] at h
    cases h
    exact absurd (UInt8.lt_iff_toNat_lt.mp hascii) (Nat.not_lt.mpr hlow)
  rw [if_neg hascii] at h
  have hcount := forall_byte (p := fun first => ¬first < 128 →
      (countBytes first 8 0x40 0x80 0).1 = 1 → (countBytes first 8 0x40 0x80 0).2 = 0xc0 ∧
        first.toNat = 0xc0 + (first &&& ~~~0xc0).toNat) (by decide) first hascii
  generalize countBytes first 8 0x40 0x80 0 = counted at h hcount
  obtain ⟨bytesNeeded, toClear⟩ := counted
  dsimp only at h hcount
  split_ifs at h with hshort
  · cases h
  rw [nextContinuations_eq] at h
  by_cases hone : bytesNeeded = 1
  · obtain ⟨rfl, hfirst⟩ := hcount hone
    subst hone
    cases rest with
    | nil => simp at hshort
    | cons byte rest =>
      have hbyte := forall_byte (p := fun byte => ¬byte &&& 0xc0 ≠ 0x80 →
          byte.toNat = 0x80 + (byte &&& 0x3f).toNat ∧ (byte &&& 0x3f).toNat < 64)
          (by decide) byte
      rw [takeContinuations] at h
      split_ifs at h with htail
      · cases h
      obtain ⟨hvalue, hsix⟩ := hbyte htail
      rw [takeContinuations] at h
      dsimp only at h
      split_ifs at h with hbound
      · cases h
      obtain ⟨hcode, rfl⟩ := Prod.mk.inj h
      rw [Nat.shiftLeft_eq, Option.some.injEq] at hcode
      have hhead : first = UInt8.ofNat (0xc0 + codepoint / 64) := by
        apply UInt8.toNat_inj.mp
        rw [toNat_byte (by omega)]
        omega
      have htail' : byte = UInt8.ofNat (0x80 + codepoint % 64) := by
        apply UInt8.toNat_inj.mp
        rw [toNat_byte (by omega)]
        omega
      rw [← hhead, ← htail']
  · cases htaken : takeContinuations bytesNeeded (first &&& ~~~toClear).toNat rest with
    | mk found rest'' =>
      rw [htaken] at h
      cases found with
      | none => cases h
      | some found =>
        dsimp only at h
        split_ifs at h with hbound
        · cases h
        cases h
        have hlarge : 0x800 ≤ lowerBound (bytesNeeded + 1) := by
          have hcases : bytesNeeded = 2 ∨ bytesNeeded = 3 ∨ bytesNeeded = 4 ∨ bytesNeeded = 5 := by
            omega
          rcases hcases with rfl | rfl | rfl | rfl <;> decide
        omega

/-- Characters of two bytes that come without errors are there as they are. -/
theorem encodeUtf8_prefix_of_normalizeFrom
    (hmore : ∀ c ∈ more, 0x80 ≤ c.toNat ∧ c.toNat < 0x800)
    (h : normalizeFrom fuel s = (more ++ text, false)) : encodeUtf8 more <+: s := by
  induction more generalizing fuel s with
  | nil => exact List.nil_prefix
  | cons c more ih =>
    obtain ⟨hlow, hhigh⟩ := hmore c List.mem_cons_self
    cases fuel with
    | zero => cases h
    | succ fuel =>
      cases s with
      | nil => cases h
      | cons first rest =>
        rw [normalizeFrom, normalizeChar_eq] at h
        dsimp only at h
        cases hnext : nextUtf8Codepoint first rest with
        | mk found rest' =>
          rw [hnext] at h
          obtain ⟨htext, herror⟩ := Prod.mk.inj h
          rw [Bool.or_eq_false_iff] at herror
          rw [List.cons_append] at htext
          obtain ⟨hchar, htext⟩ := List.cons.inj htext
          cases found with
          | none => cases herror.1
          | some codepoint =>
            have hcode : codepoint = c.toNat := by
              refine scalarOf_eq hchar ?_
              rintro rfl
              exact absurd hhigh (by decide)
            subst hcode
            have hrest := ih (fun d hd => hmore d (List.mem_cons_of_mem c hd))
              (Prod.ext htext herror.2)
            obtain ⟨after, rfl⟩ := hrest
            rw [twoBytes_of_nextUtf8Codepoint hnext hlow hhigh, encodeUtf8_cons, utf8EncodeChar_eq,
              if_neg (by omega), if_pos hhigh]
            exact ⟨after, rfl⟩

/-- A text that is written with the bytes of a byte order mark looks like one. -/
theorem resemblesUnicodeBom_of_normalized {pdfdoc mark : Bytes}
    (h : normalizeUtf8 s = (pdfdoc.map pdfDocChar, false))
    (hmark : mark = [0xfe, 0xff] ∨ mark = [0xff, 0xfe] ∨ mark = [0xef, 0xbb, 0xbf])
    (hstarts : mark <+: pdfdoc) : resemblesUnicodeBom s = true := by
  obtain ⟨behind, rfl⟩ := hstarts
  rw [List.map_append] at h
  have hall : (mark.map pdfDocChar).all (fun c => 0x80 ≤ c.toNat && c.toNat < 0x800) = true := by
    rcases hmark with rfl | rfl | rfl <;> rfl
  have hchars : ∀ c ∈ mark.map pdfDocChar, 0x80 ≤ c.toNat ∧ c.toNat < 0x800 := by
    intro c hc
    simpa using List.all_eq_true.mp hall c hc
  have hs := encodeUtf8_prefix_of_normalizeFrom hchars h
  rw [resemblesUnicodeBom]
  simp only [Bool.or_eq_true, List.isPrefixOf_iff_prefix]
  rcases hmark with rfl | rfl | rfl
  · exact .inl (.inl hs)
  · exact .inl (.inr hs)
  · exact .inr hs

/-- The stored string of any bytes has the normalized text for its UTF-8 view. -/
theorem utf8Value_newUnicodeString_normalized (s : Bytes) :
    utf8Value (newUnicodeString s) = normalizedUtf8Value s := by
  rw [newUnicodeString, normalizedUtf8Value]
  cases hnormal : normalizeUtf8 s with
  | mk text hadError =>
    dsimp only
    by_cases hplain : (!hadError && !resemblesUnicodeBom s) = true
    · rw [if_pos hplain]
      rw [Bool.and_eq_true, Bool.not_eq_true', Bool.not_eq_true'] at hplain
      obtain ⟨rfl, hbom⟩ := hplain
      cases hpdfdoc : text.mapM findPdfDoc with
      | none => exact utf8Value_encodeUtf16be text
      | some pdfdoc =>
        have htext := map_pdfDocChar_of_mapM hpdfdoc
        have hnot : ∀ mark, (mark = [0xfe, 0xff] ∨ mark = [0xff, 0xfe] ∨ mark = [0xef, 0xbb, 0xbf]) →
            ¬mark <+: pdfdoc := by
          intro mark hmark hstarts
          rw [← htext] at hnormal
          rw [resemblesUnicodeBom_of_normalized hnormal hmark hstarts] at hbom
          cases hbom
        dsimp only
        rw [utf8Value_of_plain (hnot _ (.inl rfl)) (hnot _ (.inr (.inl rfl)))
          (hnot _ (.inr (.inr rfl))), htext]
    · rw [if_neg hplain]
      exact utf8Value_encodeUtf16be text

/-- What is normalized stays as it is. -/
theorem normalizedUtf8Value_normalizedUtf8Value (s : Bytes) :
    normalizedUtf8Value (normalizedUtf8Value s) = normalizedUtf8Value s := by
  rw [normalizedUtf8Value, normalizedUtf8Value, normalizeUtf8_encodeUtf8]

end Flpdf
