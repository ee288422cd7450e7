import Flpdf.Bytes.Integers

/-! # Page ranges

`parse_numrange` reads a page range from left to right: a positive group waits in
`lastGroup` until the exclusions behind it are done with.
-/

namespace Flpdf

/-- The values from `first` up to, and without, `stop`. -/
def intRange (first stop : ℤ) : List ℤ :=
  (List.range (stop - first).toNat).map fun k : ℕ => first + (k : ℤ)

/-- `Iterator::step_by`, with the number of items that are passed over first. -/
def stepBy {α : Type} (step : ℕ) : ℕ → List α → List α
  | _, [] => []
  | 0, a :: rest => a :: stepBy step (step - 1) rest
  | k + 1, _ :: rest => stepBy step k rest

/-- An `i32` after a wrapping operation. -/
def wrapI32 (v : ℤ) : ℤ := (v + 2 ^ 31) % 2 ^ 32 - 2 ^ 31

def numrangeError (input : Bytes) (offset : ℕ) (detail : Bytes) : Bytes :=
  let offset := min offset input.length
  ascii "error at * in numeric range " ++ input.take offset ++ ascii "*" ++ input.drop offset ++
    ascii ": " ++ detail

structure NumrangeGroup where
  isExclude : Bool
  first : Bytes
  last : Option Bytes
  deriving DecidableEq, Repr

/-- The digits at the beginning of a text, and what is behind them. -/
def captureDigits (text : Bytes) : Option (Bytes × Bytes) :=
  if text.takeWhile isAsciiDigit = [] then none
  else some (text.takeWhile isAsciiDigit, text.dropWhile isAsciiDigit)

/-- The endpoint at the beginning of a group, and what is behind it. -/
def captureNumrangeEndpoint : Bytes → Option (Bytes × Bytes)
  | 0x7a :: rest => some ([0x7a], rest)
  | 0x72 :: rest => (captureDigits rest).map fun (digits, rest) => (0x72 :: digits, rest)
  | group => captureDigits group

/-- The endpoints of a group, behind its exclusion mark. -/
def captureNumrangeSpan (isExclude : Bool) (group : Bytes) : Option NumrangeGroup :=
  match captureNumrangeEndpoint group with
  | some (first, []) => some { isExclude := isExclude, first := first, last := none }
  | some (first, 0x2d :: rest) =>
    match captureNumrangeEndpoint rest with
    | some (last, []) => some { isExclude := isExclude, first := first, last := some last }
    | _ => none
  | _ => none

def captureNumrangeGroup : Bytes → Option NumrangeGroup
  | 0x78 :: rest => captureNumrangeSpan true rest
  | group => captureNumrangeSpan false group

def checkNumrangeValue (input : Bytes) (offset : ℕ) (value max : ℤ) : Except Bytes ℤ :=
  if max > 0 ∧ (value < 1 ∨ value > max) then
    .error (numrangeError input offset
      (ascii "number " ++ ascii (toString value) ++ ascii " out of range"))
  else .ok value

/-- An endpoint consists of ASCII bytes, so that the UTF-8 check on it always passes. -/
def parseNumrangeInteger (input : Bytes) (offset : ℕ) (endpoint : Bytes) (max : ℤ) :
    Except Bytes ℤ :=
  if endpoint = ascii "z" then checkNumrangeValue input offset max max
  else
    let fromEnd := endpoint.head? == some 0x72
    let number : Except Bytes ℤ :=
      match qpdfStringToIntChecked (if fromEnd then endpoint.tail else endpoint) with
      | .overflow message => .error (numrangeError input offset message)
      | .value value => .ok value
      | .noDigits => .ok 0
    number >>= fun number =>
      checkNumrangeValue input offset (if fromEnd then wrapI32 (wrapI32 (max + 1) - number) else number)
        max

/-- The second endpoint of a group, when it has one. -/
def parseNumrangeLast (input : Bytes) (offset : ℕ) (max : ℤ) : Option Bytes → Except Bytes (Option ℤ)
  | none => .ok none
  | some endpoint => (parseNumrangeInteger input offset endpoint max).map some

/-- The pages of a group; memory is taken to be large enough for them. -/
def populateNumrangeGroup (first : ℤ) (isSpan : Bool) (last : ℤ) : List ℤ :=
  first ::
    if isSpan then
      if first > last then (intRange last first).reverse
      else if first < last then intRange (first + 1) (last + 1)
      else []
    else []

/-- What the loop over the groups keeps. -/
structure NumrangeState where
  result : List ℤ := []
  lastGroup : List ℤ := []
  first : Bool := true
  deriving DecidableEq, Repr

/-- One round of the loop; the group begins at `cursor`. -/
def numrangeGroup (range : Bytes) (max : ℤ) (cursor : ℕ) (group : Bytes) (s : NumrangeState) :
    Except Bytes NumrangeState :=
  match captureNumrangeGroup group with
  | none => .error (numrangeError range cursor (ascii "invalid range syntax"))
  | some groupMatch =>
    if s.first ∧ groupMatch.isExclude then
      .error (numrangeError range cursor (ascii "first range group may not be an exclusion"))
    else do
      let firstNum ← parseNumrangeInteger range cursor groupMatch.first max
      let lastNum ← parseNumrangeLast range cursor max groupMatch.last
      let work := populateNumrangeGroup firstNum lastNum.isSome (lastNum.getD 0)
      if groupMatch.isExclude then
        return { s with first := false, lastGroup := s.lastGroup.filter fun n => decide (n ∉ work) }
      else return { first := false, result := s.result ++ s.lastGroup, lastGroup := work }

/-- The loop over the groups; `rest` begins at `cursor`, and every round takes a byte of it. -/
def numrangeLoop (range : Bytes) (max : ℤ) : ℕ → ℕ → Bytes → NumrangeState →
    Except Bytes NumrangeState
  | 0, _, _, s => .ok s
  | fuel + 1, cursor, rest, s =>
    if rest = [] then .ok s
    else
      let group := rest.takeWhile (· != 0x2c)
      numrangeGroup range max cursor group s >>= fun s =>
        match rest.dropWhile (· != 0x2c) with
        | [] => .ok s
        | _ :: more =>
          let cursor := cursor + group.length + 1
          if more = [] then .error (numrangeError range cursor (ascii "trailing comma"))
          else numrangeLoop range max fuel cursor more s

/-- The step and the first position that a suffix asks for. -/
def numrangeSuffix (range suffix : Bytes) (colon : ℕ) : Except Bytes (ℕ × ℕ) :=
  if suffix = [] then .ok (1, 0)
  else if suffix = ascii ":odd" then .ok (2, 0)
  else if suffix = ascii ":even" then .ok (2, 1)
  else .error (numrangeError range colon (ascii "expected :even or :odd"))

/-- `parse_numrange`: the text counts up to its first NUL. -/
def parseNumrange (range : Bytes) (max : ℤ) : Except Bytes (List ℤ) := do
  let range := range.takeWhile (· != 0)
  let groups := range.takeWhile (· != 0x3a)
  let (skip, startIdx) ← numrangeSuffix range (range.dropWhile (· != 0x3a)) groups.length
  let s ← numrangeLoop range max groups.length 0 groups {}
  let result := s.result ++ s.lastGroup
  return if skip = 1 then result else stepBy skip 0 (result.drop startIdx)

end Flpdf
