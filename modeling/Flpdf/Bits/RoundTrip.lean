import Flpdf.Bits.BitStream
import Flpdf.Bits.BitWriter

/-! # Fields written and read back

A run of fields is a run of writer calls and a flush; the reader is asked for the
same widths in the same order. What one call of the writer leaves and one call of
the reader takes carries over to the runs.
-/

namespace Flpdf

open Bits

/-- A field of at most 32 bits. -/
structure UnsignedField where
  value : ℕ
  width : ℕ
  width_le : width ≤ 32

/-- A field of a signed number that its width can hold; of the two numbers half way
the positive one. -/
structure SignedField where
  value : ℤ
  width : ℕ
  width_pos : 1 ≤ width
  width_le : width ≤ 32
  lower : -2 ^ (width - 1) < value
  upper : value ≤ 2 ^ (width - 1)

namespace SignedField

/-- The bits a signed number is written as. -/
def code (field : SignedField) : ℕ := (field.value % 2 ^ field.width).toNat

theorem code_lt (field : SignedField) : field.code < 2 ^ field.width := by
  have hpos : (0 : ℤ) < 2 ^ field.width := by positivity
  have hlt := Int.emod_lt_of_pos field.value hpos
  have hnonneg := Int.emod_nonneg field.value hpos.ne'
  rw [code, Int.toNat_lt hnonneg]
  exact_mod_cast hlt

/-- The reader's sign boundary is the one of the field. -/
theorem signedValue_code (field : SignedField) :
    BitStream.signedValue field.code field.width = field.value := by
  obtain ⟨m, hm⟩ := Nat.exists_eq_add_of_le field.width_pos
  have hlower := field.lower
  have hupper := field.upper
  have hcode : (field.code : ℤ) = field.value % 2 ^ field.width :=
    Int.toNat_of_nonneg (Int.emod_nonneg _ (by positivity))
  have hpow : (2 : ℤ) ^ field.width = 2 * 2 ^ (field.width - 1) := by
    rw [hm, Nat.add_sub_cancel_left, Nat.add_comm, pow_succ]
    ring
  have hpos := field.width_pos
  rw [BitStream.signedValue_eq field.width_le field.code_lt]
  by_cases hneg : field.value < 0
  · have hresidue : (field.code : ℤ) = field.value + 2 ^ field.width := by
      rw [hcode, ← Int.add_emod_right, Int.emod_eq_of_lt (by omega) (by omega)]
    rw [if_neg (by omega), hresidue, Int.add_sub_cancel]
  · have hresidue : (field.code : ℤ) = field.value := by
      rw [hcode, Int.emod_eq_of_lt (by omega) (by omega)]
    rw [if_pos (by omega), hresidue]

end SignedField

section Runs

variable {α β : Type}

/-- The fields written one after the other, and what is left of the byte filled up. -/
def BitWriter.writeAll (write : BitWriter → α → Except Bytes BitWriter) (fields : List α)
    (w : BitWriter) : Except Bytes BitWriter :=
  fields.foldlM write w >>= flush

/-- The fields read one after the other. -/
def BitStream.getAll (get : BitStream → ℕ → Except BitStreamError (β × BitStream)) :
    List ℕ → BitStream → Except BitStreamError (List β × BitStream)
  | [], r => .ok ([], r)
  | width :: widths, r => do
    let (value, r) ← get r width
    let (values, r) ← getAll get widths r
    return (value :: values, r)

variable {write : BitWriter → α → Except Bytes BitWriter}
  {get : BitStream → ℕ → Except BitStreamError (β × BitStream)}
  {width code : α → ℕ} {read : α → β} {fields : List α} {w : BitWriter} {r : BitStream}
  {tail : List Bool}

/-- The numerals of the fields one behind the other. -/
def fieldBits (width code : α → ℕ) (fields : List α) : List Bool :=
  fields.flatMap fun field => toBits (width field) (code field)

theorem fieldBits_cons (field : α) (fields : List α) : fieldBits width code (field :: fields) =
    toBits (width field) (code field) ++ fieldBits width code fields := rfl

theorem foldlM_write (hwrite : ∀ (w : BitWriter) (field : α), w.WellFormed →
      ∃ w', write w field = .ok w' ∧ w'.WellFormed ∧
        w'.bits = w.bits ++ toBits (width field) (code field)) (fields : List α)
    (h : w.WellFormed) :
    ∃ w', fields.foldlM write w = .ok w' ∧ w'.WellFormed ∧
      w'.bits = w.bits ++ fieldBits width code fields := by
  induction fields generalizing w with
  | nil => exact ⟨w, rfl, h, (List.append_nil _).symm⟩
  | cons field fields ih =>
    obtain ⟨w', hfirst, hwell, hbits⟩ := hwrite w field h
    obtain ⟨w'', hrest, hwell', hbits'⟩ := ih hwell
    refine ⟨w'', ?_, hwell', ?_⟩
    · rw [List.foldlM_cons, hfirst]
      exact hrest
    · rw [hbits', hbits, fieldBits_cons, List.append_assoc]

theorem getAll_fieldBits (hget : ∀ (r : BitStream) (field : α) (tail : List Bool), r.WellFormed →
      r.rest = toBits (width field) (code field) ++ tail →
      ∃ r', get r (width field) = .ok (read field, r') ∧ r'.WellFormed ∧ r'.rest = tail)
    (h : r.WellFormed) (hrest : r.rest = fieldBits width code fields ++ tail) :
    ∃ r', BitStream.getAll get (fields.map width) r = .ok (fields.map read, r') ∧
      r'.WellFormed ∧ r'.rest = tail := by
  induction fields generalizing r with
  | nil => exact ⟨r, rfl, h, hrest⟩
  | cons field fields ih =>
    rw [fieldBits_cons, List.append_assoc] at hrest
    obtain ⟨r', hfirst, hwell, hrest'⟩ := hget r field _ h hrest
    obtain ⟨r'', hothers, hwell', hrest''⟩ := ih hwell hrest'
    refine ⟨r'', ?_, hwell', hrest''⟩
    rw [List.map_cons, List.map_cons, BitStream.getAll, hfirst]
    simp only [bind, Except.bind, hothers]
    rfl

/-- What fields are written as, and what is read of the bytes. -/
theorem writeAll_getAll (width code : α → ℕ) (hwrite : ∀ (w : BitWriter) (field : α), w.WellFormed →
      ∃ w', write w field = .ok w' ∧ w'.WellFormed ∧
        w'.bits = w.bits ++ toBits (width field) (code field))
    (hget : ∀ (r : BitStream) (field : α) (tail : List Bool), r.WellFormed →
      r.rest = toBits (width field) (code field) ++ tail →
      ∃ r', get r (width field) = .ok (read field, r') ∧ r'.WellFormed ∧ r'.rest = tail)
    (fields : List α) :
    ∃ w r, BitWriter.writeAll write fields {} = .ok w ∧
      BitStream.getAll get (fields.map width) (.new w.out) = .ok (fields.map read, r) := by
  obtain ⟨w, hfields, hwell, hbits⟩ := foldlM_write hwrite fields (BitWriter.wellFormed_new [])
  obtain ⟨w', hflush, -, hpadded, hfull⟩ := hwell.flush
  have hout : (BitStream.new w'.out).rest =
      fieldBits width code fields ++ padding (fieldBits width code fields).length := by
    rw [BitStream.rest_new, ← BitWriter.bits_of_full hfull, hpadded, hbits]
    rfl
  obtain ⟨r, hread, -, -⟩ := getAll_fieldBits hget (BitStream.wellFormed_new _) hout
  refine ⟨w', r, ?_, hread⟩
  rw [BitWriter.writeAll, hfields]
  exact hflush

end Runs

/-- The writer and the reader are inverse: unsigned fields come back as their
residues, signed ones as they were. -/
theorem fields_round_trip :
    (∀ fields : List UnsignedField, ∃ w r,
      BitWriter.writeAll (fun w field => w.writeBits field.value field.width) fields {} = .ok w ∧
      BitStream.getAll BitStream.getBits (fields.map UnsignedField.width) (.new w.out) =
        .ok (fields.map fun field => field.value % 2 ^ field.width, r)) ∧
    (∀ fields : List SignedField, ∃ w r,
      BitWriter.writeAll (fun w field => w.writeBitsSigned field.value field.width) fields {} =
        .ok w ∧
      BitStream.getAll BitStream.getBitsSigned (fields.map SignedField.width) (.new w.out) =
        .ok (fields.map SignedField.value, r)) := by
  constructor
  · refine writeAll_getAll UnsignedField.width (fun field => field.value % 2 ^ field.width) ?_ ?_
    · intro w field h
      rw [toBits_mod (Nat.le_refl _)]
      exact h.writeBits field.width_le field.value
    · intro r field tail h hrest
      exact h.getBits field.width_le (Nat.mod_lt _ (Nat.two_pow_pos _)) hrest
  · refine writeAll_getAll SignedField.width SignedField.code ?_ ?_
    · intro w field h
      exact h.writeBitsSigned field.width_le field.value
    · intro r field tail h hrest
      obtain ⟨r', hget, hr'⟩ := h.getBitsSigned field.width_le field.code_lt hrest
      rw [field.signedValue_code] at hget
      exact ⟨r', hget, hr'⟩

end Flpdf
