import Flpdf.Bits.Numerals

/-! # Packed samples

Samples of one width stand one behind the other in a bit string.
-/

namespace Flpdf.Bits

variable {width count start k : ℕ} {bits tail : List Bool} {value value' : ℕ → ℕ}

/-- The sample at an index. -/
def sampleAt (width : ℕ) (bits : List Bool) (k : ℕ) : ℕ :=
  ofBits ((bits.drop (k * width)).take width)

/-- The bits of `count` samples, from the index `start` on. -/
def packed (width : ℕ) (value : ℕ → ℕ) (start count : ℕ) : List Bool :=
  (List.range' start count).flatMap fun k => toBits width (value k)

@[simp] theorem packed_zero (value : ℕ → ℕ) (start : ℕ) : packed width value start 0 = [] := rfl

theorem packed_succ (value : ℕ → ℕ) (start count : ℕ) : packed width value start (count + 1) =
    toBits width (value start) ++ packed width value (start + 1) count := by
  rw [packed, List.range'_succ, List.flatMap_cons]
  rfl

theorem packed_add (value : ℕ → ℕ) (start m n : ℕ) : packed width value start (m + n) =
    packed width value start m ++ packed width value (start + m) n := by
  induction m generalizing start with
  | zero => rw [Nat.zero_add, Nat.add_zero, packed_zero, List.nil_append]
  | succ m ih =>
    rw [Nat.succ_add, packed_succ, packed_succ, ih, List.append_assoc, Nat.add_assoc,
      Nat.add_comm 1 m]

@[simp] theorem packed_length (value : ℕ → ℕ) (start count : ℕ) :
    (packed width value start count).length = count * width := by
  induction count generalizing start with
  | zero => rw [packed_zero, List.length_nil, Nat.zero_mul]
  | succ count ih =>
    rw [packed_succ, List.length_append, toBits_length, ih, Nat.succ_mul, Nat.add_comm]

theorem packed_congr (h : ∀ k, start ≤ k → k < start + count → value k = value' k) :
    packed width value start count = packed width value' start count := by
  rw [packed, packed, List.flatMap_congr]
  intro k hk
  rw [List.mem_range'_1] at hk
  rw [h k hk.1 hk.2]

theorem ofBits_cons (b : Bool) (l : List Bool) :
    ofBits (b :: l) = b.toNat * 2 ^ l.length + ofBits l := by
  have hbit : ofBits [b] = b.toNat := Nat.zero_add _
  rw [← List.singleton_append, ofBits_append, hbit]

/-- A bit string is the numeral of its value. -/
theorem toBits_ofBits (l : List Bool) : toBits l.length (ofBits l) = l := by
  induction l with
  | nil => rfl
  | cons b l ih =>
    have hlt := ofBits_lt l
    have hrest : toBits l.length (b.toNat * 2 ^ l.length + ofBits l) = l := by
      rw [← toBits_mod (Nat.le_refl _), Nat.mul_comm, Nat.mul_add_mod, Nat.mod_eq_of_lt hlt, ih]
    have hbit : (b.toNat * 2 ^ l.length + ofBits l).testBit l.length = b := by
      rw [Nat.testBit_eq_decide_div_mod_eq, Nat.mul_comm, Nat.mul_add_div (Nat.two_pow_pos _),
        Nat.div_eq_of_lt hlt, Nat.add_zero]
      cases b <;> rfl
    rw [List.length_cons, toBits, ofBits_cons, hrest, hbit]

theorem sampleAt_lt (width : ℕ) (bits : List Bool) (k : ℕ) : sampleAt width bits k < 2 ^ width :=
  (ofBits_lt _).trans_le (Nat.pow_le_pow_right (by decide) (List.length_take_le _ _))

/-- A bit string begins with the samples it has. -/
theorem packed_sampleAt (h : count * width ≤ bits.length) :
    bits = packed width (sampleAt width bits) 0 count ++ bits.drop (count * width) := by
  induction count with
  | zero => rw [packed_zero, Nat.zero_mul, List.drop_zero, List.nil_append]
  | succ count ih =>
    rw [Nat.succ_mul] at h ⊢
    have hsample : toBits width (sampleAt width bits count) =
        (bits.drop (count * width)).take width := by
      have hlength : ((bits.drop (count * width)).take width).length = width := by
        rw [List.length_take, List.length_drop]
        omega
      have hbits := toBits_ofBits ((bits.drop (count * width)).take width)
      rwa [hlength] at hbits
    rw [packed_add, packed_succ, packed_zero, Nat.zero_add, List.append_nil, hsample,
      List.append_assoc, ← List.drop_drop, List.take_append_drop]
    exact ih (by omega)

/-- The samples of packed samples. -/
theorem sampleAt_packed (hk : k < count) (hvalue : value k < 2 ^ width) :
    sampleAt width (packed width value 0 count ++ tail) k = value k := by
  obtain ⟨left, rfl⟩ := Nat.exists_eq_add_of_lt hk
  rw [sampleAt, Nat.add_assoc, packed_add, packed_succ, Nat.zero_add, List.append_assoc,
    List.drop_left' (packed_length _ _ _), List.append_assoc, List.take_left' (toBits_length _ _),
    ofBits_toBits_of_lt hvalue]

end Flpdf.Bits
