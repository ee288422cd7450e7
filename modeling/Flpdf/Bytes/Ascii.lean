import Mathlib.Data.List.Basic
import Mathlib.Data.Fintype.Basic

/-! # Byte strings

Every text of the repository is a list of bytes.  A string literal of the
source is spelled with `ascii`, so that the constants can be compared with it.
-/

namespace Flpdf

abbrev Bytes := List UInt8

instance lawfulBytes : LawfulBEq Bytes := inferInstance

/-- The bytes of an ASCII literal. -/
def ascii (s : String) : Bytes := s.toList.map fun c => c.toNat.toUInt8

/-- A property of bytes is decided by its 256 instances. -/
theorem forall_byte {p : UInt8 → Prop} (h : ∀ high low : Fin 16, p (UInt8.ofNat (16 * high + low)))
    (b : UInt8) : p b := by
  have hlt := b.toNat_lt
  have hb := h ⟨b.toNat / 16, by omega⟩ ⟨b.toNat % 16, by omega⟩
  simpa [Nat.div_add_mod] using hb

def isAsciiDigit (b : UInt8) : Bool := 0x30 ≤ b && b ≤ 0x39

/-- `is_ws`: NUL, TAB, LF, VT, FF, CR and space. -/
def isWs (b : UInt8) : Bool :=
  b == 0x00 || b == 0x09 || b == 0x0a || b == 0x0b || b == 0x0c || b == 0x0d || b == 0x20

/-- `is_delimiter`: the ten characters `( ) < > [ ] { } / %`. -/
def isDelimiter (b : UInt8) : Bool :=
  b == 0x28 || b == 0x29 || b == 0x3c || b == 0x3e || b == 0x5b || b == 0x5d ||
    b == 0x7b || b == 0x7d || b == 0x2f || b == 0x25

def isTokenDelimiter (b : UInt8) : Bool := isWs b || isDelimiter b

def hexValue (b : UInt8) : Option UInt8 :=
  if 0x30 ≤ b ∧ b ≤ 0x39 then some (b - 0x30)
  else if 0x61 ≤ b ∧ b ≤ 0x66 then some (b - 0x61 + 10)
  else if 0x41 ≤ b ∧ b ≤ 0x46 then some (b - 0x41 + 10)
  else none

theorem hexValue_lt {b v : UInt8} (h : hexValue b = some v) : v.toNat < 16 := by
  have hall : (hexValue b).all (fun v => v.toNat < 16) = true :=
    forall_byte (p := fun b => (hexValue b).all (fun v => v.toNat < 16) = true) (by decide) b
  simpa [h] using hall

/-- The lower-case table `HEX` of the writers. -/
def hexDigit (n : UInt8) : UInt8 := if n < 10 then 0x30 + n else 0x61 + (n - 10)

theorem hexValue_hexDigit_high (b : UInt8) : hexValue (hexDigit (b >>> 4)) = some (b >>> 4) :=
  forall_byte (p := fun b => hexValue (hexDigit (b >>> 4)) = some (b >>> 4)) (by decide) b

theorem hexValue_hexDigit_low (b : UInt8) :
    hexValue (hexDigit (b &&& 0x0f)) = some (b &&& 0x0f) :=
  forall_byte (p := fun b => hexValue (hexDigit (b &&& 0x0f)) = some (b &&& 0x0f))
    (by decide) b

end Flpdf
