import Flpdf.Bytes.Ascii
import Mathlib.Data.Nat.Notation

/-! # RC4

The stateful cipher of the legacy handlers. Its keystream does not depend on
the data, so a pass is undone by a second pass under the same key, and a
sequence of passes by the same passes in the opposite order.
-/

namespace Flpdf

/-- A byte string of a fixed length, as the fixed-size arrays of the handlers are. -/
abbrev Block (n : ℕ) := {bytes : Bytes // bytes.length = n}

/-- The failures of the security handler. -/
inductive EncryptedError where
  | badPassword
  | unsupportedHandler (filter : String) (v r : ℤ) (cfm : Option String)
  | malformed (reason : String)
  | system (message : String)
  deriving DecidableEq, Repr

structure Rc4 where
  state : Vector UInt8 256
  x : UInt8
  y : UInt8

namespace Rc4

def stateAt (state : Vector UInt8 256) (i : UInt8) : UInt8 := state.get ⟨i.toNat, i.toNat_lt⟩

def swap (state : Vector UInt8 256) (i j : UInt8) : Vector UInt8 256 :=
  state.swap i.toNat j.toNat i.toNat_lt j.toNat_lt

/-- One turn of the key schedule; the pair holds `key_index` and `state_index`. -/
def scheduleStep (key : Bytes) (acc : Vector UInt8 256 × ℕ × UInt8) (i : ℕ) :
    Vector UInt8 256 × ℕ × UInt8 :=
  let stateIndex := acc.2.2 + key.getD acc.2.1 0 + stateAt acc.1 i.toUInt8
  (swap acc.1 i.toUInt8 stateIndex, (acc.2.1 + 1) % key.length, stateIndex)

def schedule (key : Bytes) : Vector UInt8 256 :=
  ((List.range 256).foldl (scheduleStep key) (Vector.ofFn fun i => i.val.toUInt8, 0, 0)).1

/-- `Rc4::new`: the only invalid key is the empty one. -/
def new (key : Bytes) : Except EncryptedError Rc4 :=
  if key.isEmpty then .error (.malformed "primitive: invalid key/IV length")
  else .ok ⟨schedule key, 0, 0⟩

/-- The next keystream byte. -/
def next (c : Rc4) : UInt8 × Rc4 :=
  let x := c.x + 1
  let y := c.y + stateAt c.state x
  let state := swap c.state x y
  (stateAt state (stateAt state x + stateAt state y), ⟨state, x, y⟩)

def processInPlace (c : Rc4) : Bytes → Bytes
  | [] => []
  | byte :: data => (byte ^^^ c.next.1) :: c.next.2.processInPlace data

@[simp] theorem processInPlace_length (c : Rc4) (data : Bytes) :
    (c.processInPlace data).length = data.length := by
  induction data generalizing c with
  | nil => rfl
  | cons byte data ih => simp only [processInPlace, List.length_cons, ih]

/-- The keystream is added twice. -/
theorem processInPlace_processInPlace (c : Rc4) (data : Bytes) :
    c.processInPlace (c.processInPlace data) = data := by
  induction data generalizing c with
  | nil => rfl
  | cons byte data ih =>
    rw [processInPlace, processInPlace, ih, UInt8.xor_assoc, UInt8.xor_self, UInt8.xor_zero]

variable {n : ℕ}

/-- A fresh cipher run over one block. -/
def apply (key : Bytes) (data : Block n) : Except EncryptedError (Block n) := do
  let c ← new key
  return ⟨c.processInPlace data.1, by rw [processInPlace_length, data.2]⟩

/-- Successive passes, each under the key combined with one pass number. -/
def passes (key : Bytes) (numbers : List UInt8) (data : Block n) :
    Except EncryptedError (Block n) :=
  numbers.foldlM (fun data i => apply (key.map (· ^^^ i)) data) data

/-- The keystream of a nonempty key, added to a block. -/
def mask (key : Bytes) (data : Block n) : Block n :=
  ⟨(⟨schedule key, 0, 0⟩ : Rc4).processInPlace data.1, by rw [processInPlace_length, data.2]⟩

theorem apply_eq {key : Bytes} (hkey : key ≠ []) (data : Block n) :
    apply key data = .ok (mask key data) := by
  have hne : key.isEmpty = false := by
    simpa using hkey
  simp only [apply, new, hne, Bool.false_eq_true, if_false]
  rfl

theorem mask_mask (key : Bytes) (data : Block n) : mask key (mask key data) = data :=
  Subtype.ext (processInPlace_processInPlace _ _)

theorem passes_eq {key : Bytes} (hkey : key ≠ []) (numbers : List UInt8) (data : Block n) :
    passes key numbers data =
      .ok (numbers.foldl (fun data i => mask (key.map (· ^^^ i)) data) data) := by
  induction numbers generalizing data with
  | nil => rfl
  | cons i numbers ih =>
    have hmap : key.map (· ^^^ i) ≠ [] := by
      simpa using hkey
    rw [passes, List.foldlM_cons, apply_eq hmap]
    exact ih _

/-- Passes are undone by the same passes in the opposite order. -/
theorem passes_reverse {key : Bytes} (hkey : key ≠ []) {numbers : List UInt8}
    {data out : Block n} (h : passes key numbers data = .ok out) :
    passes key numbers.reverse out = .ok data := by
  rw [passes_eq hkey] at h ⊢
  congr 1
  cases h
  induction numbers generalizing data with
  | nil => rfl
  | cons i numbers ih =>
    rw [List.reverse_cons, List.foldl_concat, List.foldl_cons, ih, mask_mask]

end Rc4

end Flpdf
