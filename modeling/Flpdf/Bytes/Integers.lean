import Flpdf.Bytes.Ascii
import Mathlib.Algebra.Order.Ring.Int
import Mathlib.Algebra.Order.Ring.Nat
import Mathlib.Data.List.TakeWhile
import Mathlib.Data.Nat.Notation

/-! # Decimal integers

The `strtoll`-style conversions of the repository, with the two stages at which
a number can be out of range, and the integers a token can spell.
-/

namespace Flpdf

/-- The value of a run of decimal digits. -/
def decimalValue (digits : Bytes) : ℕ :=
  digits.foldl (fun n d => 10 * n + (d - 0x30).toNat) 0

inductive QpdfLongLongParse where
  | noDigits
  | overflow (message : Bytes)
  | value (v : ℤ)
  deriving DecidableEq, Repr

inductive QpdfIntParse where
  | noDigits
  | overflow (message : Bytes)
  | value (v : ℤ)
  deriving DecidableEq, Repr

def isStrtollSpace (b : UInt8) : Bool :=
  b == 0x20 || b == 0x0a || b == 0x0d || b == 0x09 || b == 0x0c || b == 0x0b

def longLongOverflowMessage (text : Bytes) : Bytes :=
  ascii "overflow/underflow converting " ++ text ++ ascii " to 64-bit integer"

/-- An optional sign and what follows it. -/
def splitSign : Bytes → Bool × Bytes
  | 0x2d :: digits => (true, digits)
  | 0x2b :: digits => (false, digits)
  | digits => (false, digits)

/-- The value with its sign, when it is a signed 64-bit one; the magnitude goes
through `u128` and `i128` first. -/
def signedLongLong (text : Bytes) (negative : Bool) (magnitude : ℕ) : QpdfLongLongParse :=
  if 2 ^ 128 ≤ magnitude then .overflow (longLongOverflowMessage text)
  else
    let bounded : ℤ := min magnitude (2 ^ 127 - 1)
    let signed := if negative then -bounded else bounded
    if signed < -2 ^ 63 ∨ signed > 2 ^ 63 - 1 then .overflow (longLongOverflowMessage text)
    else .value signed

/-- `qpdf_string_to_ll_checked`: a decimal prefix as a signed 64-bit value. -/
def qpdfStringToLlChecked (text : Bytes) : QpdfLongLongParse :=
  let text := text.takeWhile (· != 0)
  let sign := splitSign (text.dropWhile isStrtollSpace)
  let digits := sign.2.takeWhile isAsciiDigit
  if digits.isEmpty then .noDigits else signedLongLong text sign.1 (decimalValue digits)

/-- The values an `i32` holds. -/
def FitsInt (v : ℤ) : Prop := -2 ^ 31 ≤ v ∧ v < 2 ^ 31

instance : DecidablePred FitsInt := fun v => inferInstanceAs (Decidable (-2 ^ 31 ≤ v ∧ v < 2 ^ 31))

def qpdfI64ToIntChecked (v : ℤ) : Except Bytes ℤ :=
  if FitsInt v then .ok v
  else .error (ascii "integer out of range converting " ++ ascii (toString v) ++
    ascii " from a 8-byte signed type to a 4-byte signed type")

/-- `qpdf_string_to_int_checked`: the same prefix narrowed to an `i32`. -/
def qpdfStringToIntChecked (text : Bytes) : QpdfIntParse :=
  match qpdfStringToLlChecked text with
  | .noDigits => .noDigits
  | .overflow message => .overflow message
  | .value v =>
    match qpdfI64ToIntChecked v with
    | .ok v => .value v
    | .error message => .overflow message

/-! ## Integer texts -/

/-- An optional sign and at least one digit, and nothing else. -/
def isIntText (text : Bytes) : Bool :=
  !(splitSign text).2.isEmpty && (splitSign text).2.all isAsciiDigit

/-- The number an integer text spells. -/
def intValue (text : Bytes) : ℤ :=
  if (splitSign text).1 then -decimalValue (splitSign text).2 else decimalValue (splitSign text).2

theorem isAsciiDigit_not_space (b : UInt8) (h : isAsciiDigit b = true) :
    isStrtollSpace b = false ∧ b ≠ 0 ∧ b ≠ 0x2d ∧ b ≠ 0x2b :=
  forall_byte (p := fun b => isAsciiDigit b = true →
    isStrtollSpace b = false ∧ b ≠ 0 ∧ b ≠ 0x2d ∧ b ≠ 0x2b) (by decide) b h

/-- The shapes of `splitSign`. -/
theorem splitSign_cases (text : Bytes) :
    (text = 0x2d :: (splitSign text).2 ∧ (splitSign text).1 = true) ∨
      (text = 0x2b :: (splitSign text).2 ∧ (splitSign text).1 = false) ∨
        text = (splitSign text).2 ∧ (splitSign text).1 = false := by
  unfold splitSign
  split <;> simp

/-- No byte of an integer text stops or is skipped by the conversion. -/
theorem isIntText_bytes {text : Bytes} (h : isIntText text = true) :
    ∀ b ∈ text, isStrtollSpace b = false ∧ b ≠ 0 := by
  simp only [isIntText, Bool.and_eq_true, List.all_eq_true] at h
  intro b hb
  have hdigits : ∀ d ∈ (splitSign text).2, isStrtollSpace d = false ∧ d ≠ 0 := by
    intro d hd
    have := isAsciiDigit_not_space d (h.2 d hd)
    exact ⟨this.1, this.2.1⟩
  rcases splitSign_cases text with ⟨htext, _⟩ | ⟨htext, _⟩ | ⟨htext, _⟩
  · rw [htext, List.mem_cons] at hb
    rcases hb with rfl | hb
    · decide
    · exact hdigits b hb
  · rw [htext, List.mem_cons] at hb
    rcases hb with rfl | hb
    · decide
    · exact hdigits b hb
  · rw [htext] at hb
    exact hdigits b hb

theorem signedLongLong_eq (text : Bytes) (negative : Bool) (n : ℕ) :
    signedLongLong text negative n =
      if -2 ^ 63 ≤ (if negative then -(n : ℤ) else n) ∧
          (if negative then -(n : ℤ) else n) ≤ 2 ^ 63 - 1 then
        .value (if negative then -(n : ℤ) else n)
      else .overflow (longLongOverflowMessage text) := by
  unfold signedLongLong
  by_cases hbig : 2 ^ 128 ≤ n
  · rw [if_pos hbig, if_neg]
    cases negative <;> simp only [Bool.false_eq_true, if_false, if_true] <;> omega
  · rw [if_neg hbig]
    cases negative with
    | false =>
      simp only [Bool.false_eq_true, if_false]
      by_cases hfit : (n : ℤ) ≤ 2 ^ 63 - 1
      · rw [min_eq_left (by omega), if_neg (by omega), if_pos (by omega)]
      · rw [if_pos (by omega), if_neg (by omega)]
    | true =>
      simp only [if_true]
      by_cases hfit : (n : ℤ) ≤ 2 ^ 63
      · rw [min_eq_left (by omega), if_neg (by omega), if_pos (by omega)]
      · rw [if_pos (by omega), if_neg (by omega)]

/-- On an integer text the conversion reads the whole text. -/
theorem qpdfStringToLlChecked_of_isIntText {text : Bytes} (h : isIntText text = true) :
    qpdfStringToLlChecked text =
      if -2 ^ 63 ≤ intValue text ∧ intValue text ≤ 2 ^ 63 - 1 then .value (intValue text)
      else .overflow (longLongOverflowMessage text) := by
  have hbytes := isIntText_bytes h
  simp only [isIntText, Bool.and_eq_true, List.all_eq_true, Bool.not_eq_true'] at h
  have htext : text.takeWhile (· != 0) = text := by
    rw [List.takeWhile_eq_self_iff]
    intro b hb
    simpa using (hbytes b hb).2
  have hstrip : text.dropWhile isStrtollSpace = text := by
    cases text with
    | nil => rfl
    | cons b rest =>
      rw [List.dropWhile_cons_of_neg]
      simp [(hbytes b (by simp)).1]
  have hdigits : (splitSign text).2.takeWhile isAsciiDigit = (splitSign text).2 := by
    rw [List.takeWhile_eq_self_iff]
    exact h.2
  simp only [qpdfStringToLlChecked, htext, hstrip, hdigits, h.1, Bool.false_eq_true, if_false]
  exact signedLongLong_eq _ _ _

/-- An integer text converts to its value exactly when an `i32` holds it. -/
theorem qpdfStringToIntChecked_of_fits {text : Bytes} (h : isIntText text = true)
    (hfits : FitsInt (intValue text)) :
    qpdfStringToIntChecked text = .value (intValue text) := by
  have hrange : -2 ^ 63 ≤ intValue text ∧ intValue text ≤ 2 ^ 63 - 1 := by
    unfold FitsInt at hfits
    omega
  simp only [qpdfStringToIntChecked, qpdfStringToLlChecked_of_isIntText h, if_pos hrange,
    qpdfI64ToIntChecked, if_pos hfits]

theorem qpdfStringToIntChecked_of_not_fits {text : Bytes} (h : isIntText text = true)
    (hfits : ¬ FitsInt (intValue text)) :
    ∃ message, qpdfStringToIntChecked text = .overflow message := by
  simp only [qpdfStringToIntChecked, qpdfStringToLlChecked_of_isIntText h]
  by_cases hrange : -2 ^ 63 ≤ intValue text ∧ intValue text ≤ 2 ^ 63 - 1
  · simp only [if_pos hrange, qpdfI64ToIntChecked, if_neg hfits]
    exact ⟨_, rfl⟩
  · simp only [if_neg hrange]
    exact ⟨_, rfl⟩

end Flpdf
