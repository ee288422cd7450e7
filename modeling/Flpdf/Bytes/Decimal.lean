import Flpdf.Bytes.Integers

/-!
# Decimal spellings

The digits of a number as the writers produce them, last digit first, and the
value they are read back as.
-/

namespace Flpdf

variable {n fuel : ℕ} {encoded : Bytes}

def decimalDigit (n : ℕ) : UInt8 := UInt8.ofNat (0x30 + n % 10)

/-- The loop that puts one digit after the other in front. -/
def decimalLoop : ℕ → ℕ → Bytes → Bytes
  | 0, _, encoded => encoded
  | fuel + 1, magnitude, encoded =>
    let encoded := decimalDigit magnitude :: encoded
    if magnitude / 10 = 0 then encoded else decimalLoop fuel (magnitude / 10) encoded

def natDecimal (n : ℕ) : Bytes := decimalLoop (n + 1) n []

/-- An integer with its sign. -/
def intDecimal (v : ℤ) : Bytes := if v < 0 then 0x2d :: natDecimal v.natAbs else natDecimal v.natAbs

theorem decimalLoop_append (fuel n : ℕ) (encoded : Bytes) :
    decimalLoop fuel n encoded = decimalLoop fuel n [] ++ encoded := by
  induction fuel generalizing n encoded with
  | zero => rfl
  | succ fuel ih =>
    rw [decimalLoop, decimalLoop]
    split_ifs
    · rfl
    · rw [ih (n / 10) (decimalDigit n :: encoded), ih (n / 10) [decimalDigit n],
        List.append_assoc, List.singleton_append]

/-- Any fuel that is larger than the number is enough. -/
theorem decimalLoop_eq (h : n < fuel) : decimalLoop fuel n [] = natDecimal n := by
  induction n using Nat.strong_induction_on generalizing fuel with
  | _ n ih =>
    cases fuel with
    | zero => omega
    | succ fuel =>
      rw [natDecimal, decimalLoop, decimalLoop]
      split_ifs with hzero
      · rfl
      · have hless : n / 10 < n := by omega
        rw [decimalLoop_append, decimalLoop_append n, ih (n / 10) hless (by omega),
          ih (n / 10) hless hless]

theorem natDecimal_of_lt (h : n < 10) : natDecimal n = [decimalDigit n] := by
  have hzero : n / 10 = 0 := by omega
  rw [natDecimal, decimalLoop]
  rw [if_pos hzero]

theorem natDecimal_of_le (h : 10 ≤ n) : natDecimal n = natDecimal (n / 10) ++ [decimalDigit n] := by
  have hzero : ¬n / 10 = 0 := by omega
  rw [natDecimal, decimalLoop]
  rw [if_neg hzero, decimalLoop_append, decimalLoop_eq (by omega)]

/-- The digits of a number, one after the other. -/
theorem natDecimal_induction {p : ℕ → Bytes → Prop}
    (digit : ∀ n, n < 10 → p n [decimalDigit n])
    (append : ∀ n, 10 ≤ n → p (n / 10) (natDecimal (n / 10)) →
      p n (natDecimal (n / 10) ++ [decimalDigit n])) (n : ℕ) : p n (natDecimal n) := by
  induction n using Nat.strong_induction_on with
  | _ n ih =>
    by_cases hlt : n < 10
    · rw [natDecimal_of_lt hlt]
      exact digit n hlt
    · rw [natDecimal_of_le (by omega)]
      exact append n (by omega) (ih (n / 10) (by omega))

theorem decimalDigit_cases (n : ℕ) : decimalDigit n ∈ (List.range 10).map decimalDigit := by
  have hmod : decimalDigit n = decimalDigit (n % 10) := by
    rw [decimalDigit, decimalDigit, Nat.mod_mod]
  rw [hmod]
  exact List.mem_map_of_mem (List.mem_range.mpr (Nat.mod_lt n (by decide)))

theorem decimalDigit_isAsciiDigit (n : ℕ) : isAsciiDigit (decimalDigit n) = true := by
  have hall : ∀ b ∈ (List.range 10).map decimalDigit, isAsciiDigit b = true :=
    List.all_eq_true.mp rfl
  exact hall _ (decimalDigit_cases n)

theorem natDecimal_isAsciiDigit (n : ℕ) : ∀ b ∈ natDecimal n, isAsciiDigit b = true := by
  induction n using natDecimal_induction with
  | digit n _ =>
    intro b hb
    rw [List.mem_singleton.mp hb]
    exact decimalDigit_isAsciiDigit n
  | append n _ ih =>
    intro b hb
    rcases List.mem_append.mp hb with hb | hb
    · exact ih b hb
    · rw [List.mem_singleton.mp hb]
      exact decimalDigit_isAsciiDigit n

theorem natDecimal_ne_nil (n : ℕ) : natDecimal n ≠ [] := by
  induction n using natDecimal_induction with
  | digit n _ => exact List.cons_ne_nil _ _
  | append n _ _ => exact List.append_ne_nil_of_right_ne_nil _ (List.cons_ne_nil _ _)

theorem decimalValue_append_digit (digits : Bytes) (n : ℕ) :
    decimalValue (digits ++ [decimalDigit n]) = 10 * decimalValue digits + n % 10 := by
  have hdigit : (decimalDigit n - 0x30).toNat = n % 10 := by
    have hmod : n % 10 < 10 := Nat.mod_lt n (by decide)
    have hall : ∀ k ∈ List.range 10, (UInt8.ofNat (0x30 + k) - 0x30).toNat = k := by decide
    exact hall _ (List.mem_range.mpr hmod)
  rw [decimalValue, List.foldl_append, ← decimalValue, List.foldl_cons, List.foldl_nil, hdigit]

/-- The digits of a number spell the number. -/
theorem decimalValue_natDecimal (n : ℕ) : decimalValue (natDecimal n) = n := by
  induction n using natDecimal_induction with
  | digit n hlt =>
    have hvalue := decimalValue_append_digit [] n
    rw [List.nil_append] at hvalue
    rw [hvalue, Nat.mod_eq_of_lt hlt]
    simp [decimalValue]
  | append n _ ih =>
    rw [decimalValue_append_digit, ih]
    omega

theorem splitSign_natDecimal (n : ℕ) : splitSign (natDecimal n) = (false, natDecimal n) := by
  have hdigits := natDecimal_isAsciiDigit n
  rcases splitSign_cases (natDecimal n) with ⟨htext, -⟩ | ⟨htext, -⟩ | ⟨htext, hsign⟩
  · rw [htext] at hdigits
    exact absurd (hdigits 0x2d List.mem_cons_self) (by decide)
  · rw [htext] at hdigits
    exact absurd (hdigits 0x2b List.mem_cons_self) (by decide)
  · exact Prod.ext hsign htext.symm

/-- An integer that is written is an integer text. -/
theorem isIntText_intDecimal (v : ℤ) : isIntText (intDecimal v) = true := by
  have hdigits : (natDecimal v.natAbs).all isAsciiDigit = true :=
    List.all_eq_true.mpr (natDecimal_isAsciiDigit v.natAbs)
  have hne : (natDecimal v.natAbs).isEmpty = false := by
    simpa using natDecimal_ne_nil v.natAbs
  rw [intDecimal]
  split_ifs
  · rw [isIntText, splitSign, hdigits, hne]
    rfl
  · rw [isIntText, splitSign_natDecimal, hdigits, hne]
    rfl

/-- It spells the integer. -/
theorem intValue_intDecimal (v : ℤ) : intValue (intDecimal v) = v := by
  rw [intDecimal]
  split_ifs with hneg
  · rw [intValue, splitSign, if_pos rfl, decimalValue_natDecimal]
    omega
  · rw [intValue, splitSign_natDecimal, if_neg (by simp), decimalValue_natDecimal]
    omega

end Flpdf
