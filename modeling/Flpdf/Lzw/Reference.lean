import Flpdf.Bits.Msb
import Flpdf.Lzw.Decoder

/-! # LZW on a bit string

The reference decoder reads the input as one bit string, most significant bit
first.  It keeps the string table and the string of the previous code; the
width of a code is a function of the table.
-/

namespace Flpdf.Lzw

open Bits

/-- `previous` is the string of the last code, `none` at the start and after a clear code. -/
structure Reference where
  table : List Bytes := []
  previous : Option Bytes := none
  stopped : Bool := false
  output : List Bytes := []

namespace Reference

/-- The newest index of a table is 257 plus its length. -/
def width (early : Bool) (table : List Bytes) : ℕ :=
  9 + (if 511 ≤ 257 + table.length + early.toNat then 1 else 0) +
    (if 1023 ≤ 257 + table.length + early.toNat then 1 else 0) +
    if 2047 ≤ 257 + table.length + early.toNat then 1 else 0

/-- The string of a code. -/
def expand (table : List Bytes) (code : ℕ) : Option Bytes :=
  if code < 256 then some [code.toUInt8] else table[code - 258]?

/-- The string of a code other than clear and end-of-data, where the code may be the next index. -/
def lookup (table : List Bytes) (previous : Bytes) (code : ℕ) : Option Bytes :=
  if code = 258 + table.length then some (previous ++ previous.take 1) else expand table code

def step (s : Reference) (code : ℕ) : Except LzwError Reference :=
  if code = 256 then .ok { s with table := [], previous := none }
  else if code = 257 then .ok { s with stopped := true }
  else
    match s.previous with
    | none =>
      match expand s.table code with
      | some string => .ok { s with previous := some string, output := s.output ++ [string] }
      | none => .error (.runtime "Pl_LZWDecoder::handleCode: table overflow")
    | some previous =>
      match lookup s.table previous code with
      | none => .error (.runtime "LZWDecoder: bad code received")
      | some string =>
        if 258 + s.table.length = 4096 then .error (.runtime "LZWDecoder: table full")
        else
          .ok { s with
            table := s.table ++ [previous ++ string.take 1]
            previous := some string
            output := s.output ++ [string] }

theorem width_ge (early : Bool) (table : List Bytes) : 9 ≤ width early table := by
  rw [width]
  omega

/-- Codes are taken from the front of the bits as long as there are enough of them. -/
def decode (early : Bool) (s : Reference) (bits : List Bool) :
    Except (List Bytes × LzwError) (Reference × List Bool) :=
  let w := width early s.table
  if s.stopped = true ∨ bits.length < w then .ok (s, bits)
  else
    match s.step (ofBits (bits.take w)) with
    | .error e => .error (s.output, e)
    | .ok s' => decode early s' (bits.drop w)
  termination_by bits.length
  decreasing_by
    rename_i h
    have hw : 0 < width early s.table := (by decide : 0 < 9).trans_le (width_ge early s.table)
    rw [List.length_drop]
    exact Nat.sub_lt (hw.trans_le (not_lt.mp (not_or.mp h).2)) hw

/-- Everything the reference decoder makes of a byte string. -/
def decodeBytes (early : Bool) (bytes : Bytes) : Except (List Bytes × LzwError) (List Bytes) :=
  (decode early {} (bytesBits bytes)).map fun result => result.1.output

variable {early : Bool} {s s' : Reference} {a b : List Bool}

theorem decode_stop (h : s.stopped = true ∨ a.length < width early s.table) :
    decode early s a = .ok (s, a) := by
  rw [decode]
  exact if_pos h

theorem decode_step (h : ¬(s.stopped = true ∨ a.length < width early s.table)) :
    decode early s a =
      match s.step (ofBits (a.take (width early s.table))) with
      | .error e => .error (s.output, e)
      | .ok s' => decode early s' (a.drop (width early s.table)) := by
  rw [decode]
  exact if_neg h

theorem step_error {code : ℕ} {e : LzwError} (h : s.step code = .error e) :
    ∃ message, e = .runtime message := by
  unfold step at h
  split at h
  · cases h
  split at h
  · cases h
  cases hp : s.previous with
  | none =>
    simp only [hp] at h
    cases he : expand s.table code <;> simp only [he] at h <;> cases h
    exact ⟨_, rfl⟩
  | some previous =>
    simp only [hp] at h
    cases hl : lookup s.table previous code with
    | none =>
      simp only [hl] at h
      cases h
      exact ⟨_, rfl⟩
    | some string =>
      simp only [hl] at h
      split_ifs at h
      cases h
      exact ⟨_, rfl⟩

/-- The reference fails with the errors of the format only. -/
theorem decode_error {e : List Bytes × LzwError} (h : decode early s a = .error e) :
    ∃ message, e.2 = .runtime message := by
  induction hn : a.length using Nat.strong_induction_on generalizing s a with
  | _ n ih =>
    by_cases hstop : s.stopped = true ∨ a.length < width early s.table
    · rw [decode_stop hstop] at h
      cases h
    · rw [decode_step hstop] at h
      cases hstep : s.step (ofBits (a.take (width early s.table))) with
      | error e' =>
        simp only [hstep] at h
        cases h
        exact step_error hstep
      | ok s' =>
        simp only [hstep] at h
        have hw := width_ge early s.table
        have hlen := (not_or.mp hstop).2
        exact ih _ (by rw [List.length_drop]; omega) h rfl

/-- Decoding can be interrupted at any bit. -/
theorem decode_append (early : Bool) (s : Reference) (a b : List Bool) :
    decode early s (a ++ b) =
      (decode early s a).bind fun result => decode early result.1 (result.2 ++ b) := by
  induction hn : a.length using Nat.strong_induction_on generalizing s a with
  | _ n ih =>
    by_cases h : s.stopped = true ∨ a.length < width early s.table
    · rw [decode_stop h]
      rfl
    · have hlen : width early s.table ≤ a.length := by
        by_contra hc
        exact h (.inr (by omega))
      have hab : ¬(s.stopped = true ∨ (a ++ b).length < width early s.table) := by
        rw [List.length_append]
        rintro (hs | hl)
        · exact h (.inl hs)
        · omega
      rw [decode_step hab, decode_step h, List.take_append_of_le_length hlen,
        List.drop_append_of_le_length hlen]
      cases s.step (ofBits (a.take (width early s.table))) with
      | error e => rfl
      | ok s' =>
        have hw := width_ge early s.table
        exact ih _ (by rw [List.length_drop]; omega) s' _ rfl

end Reference

end Flpdf.Lzw
