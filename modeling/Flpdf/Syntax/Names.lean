import Flpdf.Bytes.Ascii
import Flpdf.Bytes.Slice
import Mathlib.Tactic.SplitIfs

/-! # Writing names

A raw NUL in a decoded name is the lexer's mark of a stray `#`; the writer
turns it back into the bare character.
-/

namespace Flpdf

/-- The condition `needs_escape`, tested after the NUL case. -/
def nameNeedsEscape (byte : UInt8) : Bool :=
  !(0x21 ≤ byte && byte ≤ 0x7e) || isDelimiter byte || byte == 0x23

/-- The loop of `write_name_escaped`: runs of safe bytes are written in one piece. -/
def writeNameLoop (raw : Bytes) : ℕ → Bytes → ℕ → Bytes → Bytes
  | _, [], safeStart, out => if safeStart < raw.length then out ++ raw.drop safeStart else out
  | index, byte :: rest, safeStart, out =>
    let flushed := if safeStart < index then out ++ slice raw safeStart index else out
    if byte = 0 then writeNameLoop raw (index + 1) rest (index + 1) (flushed ++ [0x23])
    else if nameNeedsEscape byte then
      writeNameLoop raw (index + 1) rest (index + 1)
        (flushed ++ [0x23, hexDigit (byte >>> 4), hexDigit (byte &&& 0x0f)])
    else writeNameLoop raw (index + 1) rest safeStart out

def writeNameEscaped (raw : Bytes) : Bytes := writeNameLoop raw 0 raw 0 []

/-- What one byte of a name becomes. -/
def nameByte (byte : UInt8) : Bytes :=
  if byte = 0 then [0x23]
  else if nameNeedsEscape byte then [0x23, hexDigit (byte >>> 4), hexDigit (byte &&& 0x0f)]
  else [byte]

/-- Writing an empty run is writing nothing. -/
theorem flush_run (raw out : Bytes) {safeStart index : ℕ} (h : safeStart ≤ index) :
    (if safeStart < index then out ++ slice raw safeStart index else out) =
      out ++ slice raw safeStart index := by
  split_ifs with hlt
  · rfl
  · rw [show safeStart = index by omega, slice_self, List.append_nil]

theorem writeNameLoop_eq {raw rest : Bytes} {index safeStart : ℕ} (out : Bytes)
    (hsafe : safeStart ≤ index) (hrest : raw.drop index = rest) (hle : index ≤ raw.length) :
    writeNameLoop raw index rest safeStart out =
      out ++ slice raw safeStart index ++ rest.flatMap nameByte := by
  induction rest generalizing index safeStart out with
  | nil =>
    have hend : index = raw.length := le_antisymm hle (List.drop_eq_nil_iff.mp hrest)
    rw [writeNameLoop, hend, ← flush_run raw out (hend ▸ hsafe), slice_to_end]
    simp
  | cons byte rest ih =>
    obtain ⟨hbyte, hdrop⟩ := drop_eq_cons_iff.mp hrest
    have hlt : index + 1 ≤ raw.length := (List.getElem?_eq_some_iff.mp hbyte).1
    rw [writeNameLoop, flush_run raw out hsafe, List.flatMap_cons, nameByte]
    split_ifs
    · rw [ih _ le_rfl hdrop hlt, slice_self]
      simp
    · rw [ih _ le_rfl hdrop hlt, slice_self]
      simp
    · rw [ih _ (Nat.le_succ_of_le hsafe) hdrop hlt, slice_succ hsafe hbyte]
      simp

/-- The writer works byte by byte. -/
theorem writeNameEscaped_eq (raw : Bytes) : writeNameEscaped raw = raw.flatMap nameByte := by
  rw [writeNameEscaped, writeNameLoop_eq [] le_rfl List.drop_zero (Nat.zero_le _), slice_self]
  rfl

end Flpdf
