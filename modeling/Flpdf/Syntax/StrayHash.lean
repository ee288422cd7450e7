import Flpdf.Syntax.Names

/-! # Stray `#` signs

A name is read in three parts: plain text, a `#` waiting for its first
hexadecimal digit, and a `#` with one digit.  The parts a written name runs
through are those of `next`, which fails where a restored `#` captures two
digits that were text.
-/

namespace Flpdf

def isHexDigit (b : UInt8) : Bool := (hexValue b).isSome

def startsHexPair : Bytes → Bool
  | x :: y :: _ => isHexDigit x && isHexDigit y
  | _ => false

/-- Some NUL of the name is directly followed by two hexadecimal digits. -/
def strayHashCaptures : Bytes → Bool
  | [] => false
  | b :: rest => b == 0 && startsHexPair rest || strayHashCaptures rest

theorem safe_of_hexValue {b v : UInt8} (h : hexValue b = some v) :
    b ≠ 0 ∧ nameNeedsEscape b = false := by
  have key := forall_byte (p := fun b => isHexDigit b = true → b ≠ 0 ∧ nameNeedsEscape b = false)
    (by decide) b
  exact key (by simp [isHexDigit, h])

theorem safe_iff (b : UInt8) (h₀ : b ≠ 0) (h : nameNeedsEscape b = false) :
    isTokenDelimiter b = false ∧ b ≠ 0x23 :=
  forall_byte (p := fun b => b ≠ 0 → nameNeedsEscape b = false →
    isTokenDelimiter b = false ∧ b ≠ 0x23) (by decide) b h₀ h

/-- Where the lexer stands in a name. -/
inductive NamePart where
  | plain
  | hash
  | digit (x v : UInt8) (h : hexValue x = some v)

namespace NamePart

/-- What the part becomes when the next byte is no hexadecimal digit. -/
def text : NamePart → Bytes
  | plain => []
  | hash => [0]
  | digit x _ _ => [0, x]

/-- The part behind the written form of `b`, unless `b` completes an escape. -/
def next (p : NamePart) (b : UInt8) : Option NamePart :=
  if b = 0 then some hash
  else if nameNeedsEscape b then some plain
  else
    match p with
    | plain => some plain
    | hash =>
      match h : hexValue b with
      | some v => some (digit b v h)
      | none => some plain
    | digit _ _ _ => if isHexDigit b then none else some plain

end NamePart

theorem startsHexPair_of_not {b : UInt8} (h : isHexDigit b = false) (n : Bytes) :
    startsHexPair (b :: n) = false := by
  cases n <;> simp [startsHexPair, h]

theorem strayHashCaptures_cons {b : UInt8} (h : b ≠ 0) (n : Bytes) :
    strayHashCaptures (b :: n) = strayHashCaptures n := by
  simp [strayHashCaptures, h]

/-- A NUL that is not followed by a digit captures nothing. -/
theorem strayHashCaptures_zero {b : UInt8} (h : isHexDigit b = false) (n : Bytes) :
    strayHashCaptures (0 :: b :: n) = strayHashCaptures (b :: n) := by
  rw [strayHashCaptures, startsHexPair_of_not h]
  simp

theorem strayHashCaptures_zero_digit {x b : UInt8} (hx : x ≠ 0) (h : isHexDigit b = false)
    (n : Bytes) : strayHashCaptures (0 :: x :: b :: n) = strayHashCaptures (b :: n) := by
  rw [strayHashCaptures, strayHashCaptures_cons hx]
  simp [startsHexPair, h]

theorem next_of_hexDigit (p : NamePart) {b v : UInt8} (hv : hexValue b = some v) :
    p.next b = match p with
      | .plain => some .plain
      | .hash => some (.digit b v hv)
      | .digit _ _ _ => none := by
  obtain ⟨h₀, he⟩ := safe_of_hexValue hv
  unfold NamePart.next
  rw [if_neg h₀, if_neg (by simp [he])]
  cases p with
  | plain => rfl
  | hash =>
    dsimp only
    split
    next w hw =>
      obtain rfl := Option.some.inj (hv.symm.trans hw)
      rfl
    next hw => simp [hv] at hw
  | digit => simp [isHexDigit, hv]

theorem next_of_not_hexDigit (p : NamePart) {b : UInt8} (hb : isHexDigit b = false) :
    p.next b = some (if b = 0 then .hash else .plain) := by
  have hv : hexValue b = none := by simpa [isHexDigit] using hb
  unfold NamePart.next
  by_cases h₀ : b = 0
  · rw [if_pos h₀, if_pos h₀]
  · rw [if_neg h₀, if_neg h₀]
    refine ite_eq_left_iff.mpr fun _ => ?_
    cases p with
    | plain => rfl
    | hash =>
      dsimp only
      split
      next w hw => simp [hv] at hw
      next => rfl
    | digit => simp [hb]

theorem strayHashCaptures_next {p q : NamePart} {b : UInt8} (h : p.next b = some q) (n : Bytes) :
    strayHashCaptures (p.text ++ b :: n) = strayHashCaptures (q.text ++ n) := by
  cases hb : isHexDigit b with
  | true =>
    obtain ⟨v, hv⟩ := Option.isSome_iff_exists.mp hb
    rw [next_of_hexDigit p hv] at h
    cases p with
    | plain =>
      obtain rfl := Option.some.inj h
      exact strayHashCaptures_cons (safe_of_hexValue hv).1 n
    | hash =>
      obtain rfl := Option.some.inj h
      rfl
    | digit => cases h
  | false =>
    have hq : strayHashCaptures (b :: n) = strayHashCaptures (q.text ++ n) := by
      rw [next_of_not_hexDigit p hb] at h
      obtain rfl := Option.some.inj h
      split_ifs with h₀
      · rw [h₀]
        rfl
      · exact strayHashCaptures_cons h₀ n
    rw [← hq]
    cases p with
    | plain => rfl
    | hash => exact strayHashCaptures_zero hb n
    | digit x v hv => exact strayHashCaptures_zero_digit (safe_of_hexValue hv).1 hb n

/-- The lexer meets a captured digit exactly where two digits follow a NUL. -/
theorem foldlM_next_isSome (p : NamePart) (n : Bytes) :
    (n.foldlM NamePart.next p).isSome = !strayHashCaptures (p.text ++ n) := by
  induction n generalizing p with
  | nil => cases p <;> simp [NamePart.text, strayHashCaptures, startsHexPair]
  | cons b n ih =>
    rw [List.foldlM_cons]
    cases hp : p.next b with
    | some q =>
      rw [strayHashCaptures_next hp]
      exact ih q
    | none =>
      cases hb : isHexDigit b with
      | false => simp [next_of_not_hexDigit p hb] at hp
      | true =>
        obtain ⟨v, hv⟩ := Option.isSome_iff_exists.mp hb
        rw [next_of_hexDigit p hv] at hp
        cases p with
        | plain => cases hp
        | hash => cases hp
        | digit x w hw =>
          simp [NamePart.text, strayHashCaptures, startsHexPair, isHexDigit, hv, hw]

end Flpdf
