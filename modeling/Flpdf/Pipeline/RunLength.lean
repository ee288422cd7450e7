import Flpdf.Pipeline.Stage

/-! # The RunLength decoder

`RunLength` counts what is left of a run between two writes; the reference reads
run after run.
-/

namespace Flpdf

inductive RunLengthState where
  | top
  | copying
  | run
  deriving DecidableEq, Repr

/-- The stage; `out` is what the next stage has been given. -/
structure RunLength where
  state : RunLengthState := .top
  length : ℕ := 0
  out : Bytes := []
  deriving DecidableEq, Repr

namespace RunLength

/-- A round of the loop in `decode`. -/
def decodeByte (r : RunLength) (byte : UInt8) : RunLength :=
  match r.state with
  | .top =>
    if byte < 128 then { r with length := byte.toNat + 1, state := .copying }
    else if byte > 128 then { r with length := 257 - byte.toNat, state := .run }
    else r
  | .copying =>
    let r := { r with out := r.out ++ [byte], length := r.length - 1 }
    if r.length = 0 then { r with state := .top } else r
  | .run => { r with out := r.out ++ List.replicate r.length byte, state := .top }

/-- The loop has no error of its own. -/
def write (r : RunLength) (data : Bytes) : Except StageFailure RunLength :=
  .ok (data.foldl decodeByte r)

/-- What the stage delivers for some writes; `finish` adds nothing. -/
def decode (chunks : List Bytes) : Except StageFailure Bytes :=
  (writeAll write {} chunks).map fun r => r.out

/-! ## The filter in one pass -/

/-- A length byte with its run; the last run may be cut off. -/
def reference : Bytes → Bytes
  | [] => []
  | byte :: rest =>
    if byte < 128 then
      rest.take (byte.toNat + 1) ++ reference (rest.drop (byte.toNat + 1))
    else if byte > 128 then
      match rest with
      | [] => []
      | repeated :: rest => List.replicate (257 - byte.toNat) repeated ++ reference rest
    else reference rest
termination_by data => data.length
decreasing_by
  · simp only [List.length_drop, List.length_cons]
    omega
  · simp only [List.length_cons]
    omega
  · simp

/-! ## The stage against the filter -/

/-- A literal run is copied as far as the data goes. -/
theorem foldl_copying (data out : Bytes) (n : ℕ) :
    data.foldl decodeByte { state := .copying, length := n + 1, out := out } =
      if data.length < n + 1 then
        { state := .copying, length := n + 1 - data.length, out := out ++ data }
      else
        (data.drop (n + 1)).foldl decodeByte { out := out ++ data.take (n + 1) } := by
  induction data generalizing n out with
  | nil => simp
  | cons byte data ih =>
    rw [List.foldl_cons]
    cases n with
    | zero =>
      rw [if_neg (by simp)]
      rfl
    | succ n =>
      show data.foldl decodeByte { state := .copying, length := n + 1, out := out ++ [byte] } = _
      rw [ih, List.length_cons]
      by_cases hshort : data.length < n + 1
      · rw [if_pos hshort, if_pos (by omega), List.append_assoc, List.singleton_append]
        congr 1
        omega
      · rw [if_neg hshort, if_neg (by omega), List.append_assoc]
        rfl

/-- Between two runs, the rest of the data decides what is delivered. -/
theorem out_foldl (data out : Bytes) (length : ℕ) :
    (data.foldl decodeByte { length := length, out := out }).out = out ++ reference data := by
  induction hn : data.length using Nat.strong_induction_on generalizing data out length with
  | _ n ih =>
    subst hn
    cases data with
    | nil => rw [reference, List.append_nil]; rfl
    | cons byte rest =>
      rw [List.foldl_cons, reference.eq_def (byte :: rest)]
      dsimp only
      by_cases hliteral : byte < 128
      · have hbyte : decodeByte { length := length, out := out } byte =
            { state := .copying, length := byte.toNat + 1, out := out } := by
          rw [decodeByte]
          exact if_pos hliteral
        rw [if_pos hliteral, hbyte, foldl_copying]
        by_cases hshort : rest.length < byte.toNat + 1
        · rw [if_pos hshort, List.take_of_length_le hshort.le, List.drop_of_length_le hshort.le,
            reference, List.append_nil]
        · have hless : (rest.drop (byte.toNat + 1)).length < (byte :: rest).length := by
            rw [List.length_drop, List.length_cons]
            omega
          rw [if_neg hshort, ih _ hless _ _ _ rfl, List.append_assoc]
      by_cases hrepeat : byte > 128
      · have hbyte : decodeByte { length := length, out := out } byte =
            { state := .run, length := 257 - byte.toNat, out := out } := by
          rw [decodeByte]
          exact (if_neg hliteral).trans (if_pos hrepeat)
        rw [if_neg hliteral, if_pos hrepeat, hbyte]
        cases rest with
        | nil => rw [List.append_nil]; rfl
        | cons repeated rest =>
          have hless : rest.length < (byte :: repeated :: rest).length := by
            rw [List.length_cons, List.length_cons]
            omega
          rw [List.foldl_cons, ← List.append_assoc]
          exact ih _ hless rest _ _ rfl
      · have hbyte : decodeByte { length := length, out := out } byte =
            { length := length, out := out } := by
          rw [decodeByte]
          exact (if_neg hliteral).trans (if_neg hrepeat)
        rw [if_neg hliteral, if_neg hrepeat, hbyte]
        exact ih _ (Nat.lt_succ_self _) rest _ _ rfl

/-- However the input is split, the stage delivers what the filter says. -/
theorem decode_eq (chunks : List Bytes) : decode chunks = .ok (reference chunks.flatten) := by
  have hwrites : writeAll write {} chunks = .ok (chunks.flatten.foldl decodeByte {}) := by
    apply writeAll_eq
    · exact fun r => rfl
    · intro r data data'
      rw [write, List.foldl_append]
      rfl
  rw [decode, hwrites]
  exact congrArg Except.ok (out_foldl chunks.flatten [] 0)

end RunLength

end Flpdf
