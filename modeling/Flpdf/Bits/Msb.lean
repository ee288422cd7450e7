import Flpdf.Bytes.Ascii
import Mathlib.Tactic.Ring
import Mathlib.Tactic.Linarith

/-! # Bit strings, most significant bit first

A bit string is a list of Booleans.  `ofBits` is its value as a binary
numeral, and a byte string is the concatenation of its octets.
-/

namespace Flpdf.Bits

/-- The value of a bit string. -/
def ofBits (l : List Bool) : ℕ := l.foldl (fun n b => 2 * n + b.toNat) 0

/-- The eight bits of a byte. -/
def byteBits (b : UInt8) : List Bool := (List.range 8).map fun i => b.toNat.testBit (7 - i)

def bytesBits (bytes : List UInt8) : List Bool := bytes.flatMap byteBits

@[simp] theorem byteBits_length (b : UInt8) : (byteBits b).length = 8 := by simp [byteBits]

@[simp] theorem bytesBits_nil : bytesBits [] = [] := rfl

@[simp] theorem bytesBits_cons (b : UInt8) (bytes : List UInt8) :
    bytesBits (b :: bytes) = byteBits b ++ bytesBits bytes := rfl

theorem bytesBits_append (a b : List UInt8) : bytesBits (a ++ b) = bytesBits a ++ bytesBits b :=
  List.flatMap_append

@[simp] theorem bytesBits_length (bytes : List UInt8) :
    (bytesBits bytes).length = 8 * bytes.length := by
  induction bytes with
  | nil => rfl
  | cons b bytes ih =>
    rw [bytesBits_cons, List.length_append, byteBits_length, ih, List.length_cons]
    ring

theorem foldl_ofBits (l : List Bool) (n : ℕ) :
    l.foldl (fun n b => 2 * n + b.toNat) n = n * 2 ^ l.length + ofBits l := by
  induction l generalizing n with
  | nil => simp [ofBits]
  | cons b l ih =>
    rw [ofBits, List.foldl_cons, List.foldl_cons, ih, ih (2 * 0 + _), List.length_cons, pow_succ]
    ring

theorem ofBits_append (a b : List Bool) : ofBits (a ++ b) = ofBits a * 2 ^ b.length + ofBits b := by
  rw [ofBits, List.foldl_append, foldl_ofBits]
  rfl

theorem ofBits_lt (l : List Bool) : ofBits l < 2 ^ l.length := by
  induction l with
  | nil => simp [ofBits]
  | cons b l ih =>
    have hb : b.toNat ≤ 1 := Bool.toNat_le b
    have hcons : ofBits (b :: l) = b.toNat * 2 ^ l.length + ofBits l := by
      rw [ofBits, List.foldl_cons, foldl_ofBits]
      ring
    have hmul : b.toNat * 2 ^ l.length ≤ 2 ^ l.length := Nat.mul_le_of_le_div _ _ _ (by
      rwa [Nat.div_self (by positivity)])
    rw [hcons, List.length_cons, pow_succ]
    omega

theorem ofBits_byteBits (b : UInt8) : ofBits (byteBits b) = b.toNat :=
  forall_byte (p := fun b => ofBits (byteBits b) = b.toNat) (by decide) b

/-- Dropping leading bits is a remainder. -/
theorem ofBits_drop (l : List Bool) (k : ℕ) :
    ofBits (l.drop k) = ofBits l % 2 ^ (l.length - k) := by
  have hl := ofBits_append (l.take k) (l.drop k)
  have hlt := ofBits_lt (l.drop k)
  rw [List.take_append_drop, List.length_drop] at hl
  rw [List.length_drop] at hlt
  rw [hl, Nat.mul_comm, Nat.mul_add_mod, Nat.mod_eq_of_lt hlt]

/-- Keeping leading bits is a quotient. -/
theorem ofBits_take (l : List Bool) (k : ℕ) :
    ofBits (l.take k) = ofBits l / 2 ^ (l.length - k) := by
  have hl := ofBits_append (l.take k) (l.drop k)
  have hlt := ofBits_lt (l.drop k)
  rw [List.take_append_drop, List.length_drop] at hl
  rw [List.length_drop] at hlt
  rw [hl, Nat.mul_comm, Nat.mul_add_div (by positivity), Nat.div_eq_of_lt hlt, Nat.add_zero]

/-- The bits behind a bit position, split into the byte that holds it and the next ones. -/
theorem drop_bytesBits (bytes : List UInt8) (q r : ℕ) :
    (bytesBits bytes).drop (8 * q + r) = (bytesBits (bytes.drop q)).drop r := by
  induction q generalizing bytes with
  | zero => simp
  | succ q ih =>
    cases bytes with
    | nil => simp
    | cons b bytes =>
      rw [bytesBits_cons, List.drop_succ_cons, ← ih,
        show 8 * (q + 1) + r = (byteBits b).length + (8 * q + r) by rw [byteBits_length]; ring,
        ← List.drop_drop, List.drop_left]

end Flpdf.Bits
