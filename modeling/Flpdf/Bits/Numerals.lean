import Flpdf.Bits.Msb

/-! # Numerals of a fixed width

`toBits width value` are the last `width` binary digits of a number, the most
significant one first, and `padded` is a bit string filled up to whole octets.
-/

namespace Flpdf.Bits

variable {width value : ℕ}

/-- The low `width` bits of a number. -/
def toBits : ℕ → ℕ → List Bool
  | 0, _ => []
  | width + 1, value => value.testBit width :: toBits width value

@[simp] theorem toBits_zero (value : ℕ) : toBits 0 value = [] := rfl

@[simp] theorem toBits_length (width value : ℕ) : (toBits width value).length = width := by
  induction width with
  | zero => rfl
  | succ width ih => rw [toBits, List.length_cons, ih]

theorem ofBits_toBits (width value : ℕ) : ofBits (toBits width value) = value % 2 ^ width := by
  induction width with
  | zero => simp [ofBits, Nat.mod_one]
  | succ width ih =>
    have hcons : toBits (width + 1) value = [value.testBit width] ++ toBits width value := rfl
    rw [hcons, ofBits_append, ih, toBits_length, Nat.mod_pow_succ, Nat.testBit_eq_decide_div_mod_eq,
      Nat.add_comm, Nat.mul_comm]
    congr 2
    rcases Nat.mod_two_eq_zero_or_one (value / 2 ^ width) with h | h <;> rw [h] <;> rfl

theorem ofBits_toBits_of_lt (h : value < 2 ^ width) : ofBits (toBits width value) = value := by
  rw [ofBits_toBits, Nat.mod_eq_of_lt h]

theorem toBits_of_zero (width : ℕ) : toBits width 0 = List.replicate width false := by
  induction width with
  | zero => rfl
  | succ width ih => rw [toBits, ih, Nat.zero_testBit, List.replicate_succ]

/-- A numeral in two parts. -/
theorem toBits_add (high low value : ℕ) :
    toBits (high + low) value = toBits high (value / 2 ^ low) ++ toBits low value := by
  induction high with
  | zero => rw [Nat.zero_add, toBits_zero, List.nil_append]
  | succ high ih =>
    rw [Nat.succ_add_eq_add_succ, Nat.add_succ, toBits, toBits, ih, Nat.testBit_div_two_pow,
      List.cons_append]

theorem toBits_mod {n : ℕ} (h : width ≤ n) : toBits width (value % 2 ^ n) = toBits width value := by
  induction width with
  | zero => rfl
  | succ width ih =>
    have hlt : width < n := h
    rw [toBits, toBits, ih (Nat.le_of_lt hlt), Nat.testBit_mod_two_pow, decide_eq_true hlt,
      Bool.true_and]

/-- Two numerals side by side. -/
theorem toBits_concat (high : ℕ) {low q n : ℕ} (hn : n < 2 ^ low) :
    toBits (high + low) (2 ^ low * q + n) = toBits high q ++ toBits low n := by
  rw [toBits_add, Nat.mul_add_div (Nat.two_pow_pos low), Nat.div_eq_of_lt hn, Nat.add_zero,
    ← toBits_mod (Nat.le_refl low), Nat.mul_add_mod, toBits_mod (Nat.le_refl low)]

theorem byteBits_eq_toBits (b : UInt8) : byteBits b = toBits 8 b.toNat := rfl

/-! ## Whole octets -/

/-- The zeros that fill a bit string up to whole octets. -/
def padding (length : ℕ) : List Bool := List.replicate ((8 - length % 8) % 8) false

def padded (bits : List Bool) : List Bool := bits ++ padding bits.length

theorem padded_length (bits : List Bool) : (padded bits).length % 8 = 0 := by
  rw [padded, padding, List.length_append, List.length_replicate]
  omega

theorem padded_of_dvd {bits : List Bool} (h : bits.length % 8 = 0) : padded bits = bits := by
  rw [padded, padding, h]
  exact List.append_nil bits

end Flpdf.Bits
