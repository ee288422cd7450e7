import Flpdf.Pipeline.Stage

/-! # The ASCIIHex decoder

`AsciiHexDecoder` keeps a digit until the second one of its pair arrives; the
reference decodes the whole text at once.
-/

namespace Flpdf

/-- The stage; `out` is what the next stage has been given. -/
structure AsciiHexDecoder where
  inbuf : Bytes := [0x30, 0x30]
  pos : ℕ := 0
  eod : Bool := false
  out : Bytes := []
  deriving DecidableEq, Repr

namespace AsciiHexDecoder

def toAsciiUppercase (byte : UInt8) : UInt8 :=
  if 0x61 ≤ byte ∧ byte ≤ 0x7a then byte - 0x20 else byte

def digitValue (byte : UInt8) : UInt8 := if byte ≥ 0x41 then byte - 0x41 + 10 else byte - 0x30

def outOfRange (ch : UInt8) : PipelineError :=
  .runtime (ascii "character out of range during base Hex decode: " ++ if ch ≠ 0 then [ch] else [])

def flush (d : AsciiHexDecoder) : AsciiHexDecoder :=
  if d.pos = 0 then d
  else
    { d with
      pos := 0
      inbuf := [0x30, 0x30]
      out := d.out ++ [(digitValue (d.inbuf.getD 0 0) <<< 4) + digitValue (d.inbuf.getD 1 0)] }

/-- One round of the loop in `write`. -/
def writeByte (d : AsciiHexDecoder) (byte : UInt8) : Except StageFailure AsciiHexDecoder :=
  let ch := toAsciiUppercase byte
  if isQpdfSpace ch then .ok d
  else if ch = 0x3e then .ok ({ d with eod := true } : AsciiHexDecoder).flush
  else if (0x30 ≤ ch ∧ ch ≤ 0x39) ∨ (0x41 ≤ ch ∧ ch ≤ 0x46) then
    let d := { d with inbuf := d.inbuf.set d.pos ch, pos := d.pos + 1 }
    .ok (if d.pos = 2 then d.flush else d)
  else .error ⟨outOfRange ch, d.out⟩

/-- The loop in `write`, which the end marker leaves. -/
def writeLoop : Bytes → AsciiHexDecoder → Except StageFailure AsciiHexDecoder
  | [], d => .ok d
  | byte :: data, d =>
    (d.writeByte byte).bind fun d => if d.eod then .ok d else writeLoop data d

def write (d : AsciiHexDecoder) (data : Bytes) : Except StageFailure AsciiHexDecoder :=
  if d.eod then .ok d else writeLoop data d

def finish (d : AsciiHexDecoder) : AsciiHexDecoder := d.flush

/-- What the stage delivers for some writes. -/
def decode (chunks : List Bytes) : Except StageFailure Bytes :=
  (writeAll write {} chunks).map fun d => d.finish.out

/-! ## The filter in one pass -/

/-- Pairs of digits; the last digit may stand alone. -/
def hexPairs (out : Bytes) : Bytes → Except StageFailure Bytes
  | [] => .ok out
  | [a] =>
    match hexValue a with
    | none => .error ⟨outOfRange (toAsciiUppercase a), out⟩
    | some x => .ok (out ++ [16 * x])
  | a :: b :: rest =>
    match hexValue a, hexValue b with
    | none, _ => .error ⟨outOfRange (toAsciiUppercase a), out⟩
    | some _, none => .error ⟨outOfRange (toAsciiUppercase b), out⟩
    | some x, some y => hexPairs (out ++ [16 * x + y]) rest

/-- White space is skipped, and the text ends before the first `>`. -/
def reference (data : Bytes) : Except StageFailure Bytes :=
  hexPairs [] ((data.filter fun byte => !isQpdfSpace byte).takeWhile (· ≠ 0x3e))

example : reference (ascii "4 8>65") = .ok [0x48] := by decide

/-! ## The stage against the filter -/

variable {d : AsciiHexDecoder} {data : Bytes} {byte : UInt8}

/-- A byte behind the end marker has no effect. -/
def step (d : AsciiHexDecoder) (byte : UInt8) : Except StageFailure AsciiHexDecoder :=
  if d.eod then .ok d else d.writeByte byte

theorem foldlM_step_of_eod (heod : d.eod = true) (data : Bytes) : data.foldlM step d = .ok d := by
  induction data with
  | nil => rfl
  | cons byte data ih =>
    rw [List.foldlM_cons, step, if_pos heod]
    exact ih

theorem write_eq (d : AsciiHexDecoder) (data : Bytes) : d.write data = data.foldlM step d := by
  by_cases heod : d.eod = true
  · rw [write, if_pos heod, foldlM_step_of_eod heod]
  rw [write, if_neg heod]
  induction data generalizing d with
  | nil => rfl
  | cons byte data ih =>
    rw [writeLoop, List.foldlM_cons, step, if_neg heod]
    cases d.writeByte byte with
    | error failure => rfl
    | ok e =>
      show (if e.eod then _ else _) = List.foldlM step e data
      by_cases he : e.eod = true
      · rw [if_pos he, foldlM_step_of_eod he]
      · rw [if_neg he, ih e he]

/-- The digit that waits for its partner, if there is one. -/
structure Holds (d : AsciiHexDecoder) (digits : Bytes) : Prop where
  inbuf_eq : d.inbuf = digits ++ List.replicate (2 - digits.length) 0x30
  pos_eq : d.pos = digits.length
  eod_eq : d.eod = false
  length_lt : digits.length < 2
  values : ∀ digit ∈ digits, hexValue digit = some (digitValue digit)

theorem holds_new (out : Bytes) : Holds { out := out } [] where
  inbuf_eq := rfl
  pos_eq := rfl
  eod_eq := rfl
  length_lt := Nat.zero_lt_two
  values digit hdigit := by cases hdigit

theorem isQpdfSpace_upper (byte : UInt8) :
    isQpdfSpace (toAsciiUppercase byte) = isQpdfSpace byte :=
  forall_byte (p := fun byte => isQpdfSpace (toAsciiUppercase byte) = isQpdfSpace byte)
    (by decide) byte

theorem upper_eq_end (byte : UInt8) : toAsciiUppercase byte = 0x3e ↔ byte = 0x3e :=
  forall_byte (p := fun byte => toAsciiUppercase byte = 0x3e ↔ byte = 0x3e) (by decide) byte

theorem upper_upper (byte : UInt8) :
    toAsciiUppercase (toAsciiUppercase byte) = toAsciiUppercase byte :=
  forall_byte (p := fun byte => toAsciiUppercase (toAsciiUppercase byte) = toAsciiUppercase byte)
    (by decide) byte

/-- The digits of the stage are the hexadecimal digits of either case. -/
theorem hexValue_eq (byte : UInt8) :
    hexValue byte =
      if (0x30 ≤ toAsciiUppercase byte ∧ toAsciiUppercase byte ≤ 0x39) ∨
          (0x41 ≤ toAsciiUppercase byte ∧ toAsciiUppercase byte ≤ 0x46) then
        some (digitValue (toAsciiUppercase byte))
      else none :=
  forall_byte (p := fun byte => hexValue byte =
    if (0x30 ≤ toAsciiUppercase byte ∧ toAsciiUppercase byte ≤ 0x39) ∨
        (0x41 ≤ toAsciiUppercase byte ∧ toAsciiUppercase byte ≤ 0x46) then
      some (digitValue (toAsciiUppercase byte))
    else none) (by decide) byte

theorem shiftLeft_four (byte : UInt8) : byte <<< 4 = 16 * byte :=
  forall_byte (p := fun byte => byte <<< 4 = 16 * byte) (by decide) byte

/-- The filter does not see the case of a digit. -/
theorem hexPairs_upper (out : Bytes) (byte : UInt8) (rest : Bytes) :
    hexPairs out (toAsciiUppercase byte :: rest) = hexPairs out (byte :: rest) := by
  have hvalue : hexValue (toAsciiUppercase byte) = hexValue byte := by
    rw [hexValue_eq, hexValue_eq byte, upper_upper]
  cases rest with
  | nil => rw [hexPairs, hexPairs, hvalue, upper_upper]
  | cons b rest => rw [hexPairs, hexPairs, hvalue, upper_upper]

/-- The text of the filter. -/
def body (data : Bytes) : Bytes :=
  (data.filter fun byte => !isQpdfSpace byte).takeWhile (· ≠ 0x3e)

theorem body_space (h : isQpdfSpace byte = true) : body (byte :: data) = body data := by
  rw [body, List.filter_cons_of_neg (by simp [h])]
  rfl

theorem body_end : body (0x3e :: data) = [] := by
  rw [body, List.filter_cons_of_pos (by decide), List.takeWhile_cons_of_neg (by decide)]

theorem body_cons (hspace : isQpdfSpace byte = false) (hend : byte ≠ 0x3e) :
    body (byte :: data) = byte :: body data := by
  rw [body, List.filter_cons_of_pos (by simp [hspace]), List.takeWhile_cons_of_pos (by simp [hend])]
  rfl

namespace Holds

variable {digits : Bytes}

theorem cases_digits (h : Holds d digits) :
    (digits = [] ∧ d = { out := d.out }) ∨
      ∃ a, digits = [a] ∧ hexValue a = some (digitValue a) ∧
        d = { inbuf := [a, 0x30], pos := 1, out := d.out } := by
  obtain ⟨inbuf, pos, eod, out⟩ := d
  obtain ⟨hinbuf, hpos, heod, hlength, hvalues⟩ := h
  dsimp only at hinbuf hpos heod
  subst hinbuf hpos heod
  match digits, hlength with
  | [], _ => exact .inl ⟨rfl, rfl⟩
  | [a], _ => exact .inr ⟨a, rfl, hvalues a (List.mem_singleton_self a), rfl⟩

theorem single {a : UInt8} {out : Bytes} (hvalue : hexValue a = some (digitValue a)) :
    Holds { inbuf := [a, 0x30], pos := 1, out := out } [a] where
  inbuf_eq := rfl
  pos_eq := rfl
  eod_eq := rfl
  length_lt := Nat.one_lt_two
  values digit hdigit := by rwa [List.mem_singleton.mp hdigit]

/-- A digit without a partner counts as the first one of a pair with 0. -/
theorem out_flush (h : Holds d digits) : hexPairs d.out digits = .ok d.flush.out := by
  rcases h.cases_digits with ⟨rfl, hd⟩ | ⟨a, rfl, hvalue, hd⟩
  · rw [hd]
    rfl
  · have hzero : digitValue 0x30 = 0 := by decide
    have hflush : d.flush.out = d.out ++ [(digitValue a <<< 4) + digitValue 0x30] := by
      rw [hd]
      rfl
    simp only [hflush, hexPairs, hvalue, hzero, shiftLeft_four, UInt8.add_zero]

/-- A digit completes the pair or waits. -/
theorem writeByte_digit (h : Holds d digits) {x : UInt8} (hvalue : hexValue byte = some x) :
    ∃ e digits', d.writeByte byte = .ok e ∧ Holds e digits' ∧ ∀ rest,
      hexPairs d.out (digits ++ byte :: rest) = hexPairs e.out (digits' ++ rest) := by
  have hrange : (0x30 ≤ toAsciiUppercase byte ∧ toAsciiUppercase byte ≤ 0x39) ∨
      (0x41 ≤ toAsciiUppercase byte ∧ toAsciiUppercase byte ≤ 0x46) := by
    by_contra hnot
    rw [hexValue_eq, if_neg hnot] at hvalue
    cases hvalue
  have hbyte : hexValue byte = some (digitValue (toAsciiUppercase byte)) := by
    rw [hexValue_eq, if_pos hrange]
  have hupper : hexValue (toAsciiUppercase byte) = some (digitValue (toAsciiUppercase byte)) := by
    rw [hexValue_eq, upper_upper, if_pos hrange]
  have hno : isQpdfSpace (toAsciiUppercase byte) ≠ true ∧ toAsciiUppercase byte ≠ 0x3e := by
    generalize toAsciiUppercase byte = ch at hrange
    revert hrange
    exact forall_byte (p := fun ch => (0x30 ≤ ch ∧ ch ≤ 0x39) ∨ (0x41 ≤ ch ∧ ch ≤ 0x46) →
      isQpdfSpace ch ≠ true ∧ ch ≠ 0x3e) (by decide) ch
  rcases h.cases_digits with ⟨rfl, hd⟩ | ⟨a, rfl, ha, hd⟩
  · refine ⟨{ inbuf := [toAsciiUppercase byte, 0x30], pos := 1, out := d.out },
      [toAsciiUppercase byte], ?_, single hupper, fun rest => ?_⟩
    · rw [writeByte, if_neg hno.1, if_neg hno.2, if_pos hrange, hd]
      rfl
    · exact (hexPairs_upper d.out byte rest).symm
  · refine ⟨{ out := d.out ++ [(digitValue a <<< 4) + digitValue (toAsciiUppercase byte)] },
      [], ?_, holds_new _, fun rest => ?_⟩
    · rw [writeByte, if_neg hno.1, if_neg hno.2, if_pos hrange, hd]
      rfl
    · show hexPairs d.out (a :: byte :: rest) = _
      rw [hexPairs, ha, hbyte, shiftLeft_four]
      rfl

end Holds

theorem writeByte_space (h : isQpdfSpace byte = true) : d.writeByte byte = .ok d := by
  rw [writeByte, if_pos (by rw [isQpdfSpace_upper, h])]

theorem writeByte_end : d.writeByte 0x3e = .ok ({ d with eod := true } : AsciiHexDecoder).flush :=
  rfl

theorem writeByte_outOfRange (hspace : isQpdfSpace byte = false) (hend : byte ≠ 0x3e)
    (hvalue : hexValue byte = none) :
    d.writeByte byte = .error ⟨outOfRange (toAsciiUppercase byte), d.out⟩ := by
  have hdigit : ¬((0x30 ≤ toAsciiUppercase byte ∧ toAsciiUppercase byte ≤ 0x39) ∨
      (0x41 ≤ toAsciiUppercase byte ∧ toAsciiUppercase byte ≤ 0x46)) := by
    intro hdigit
    rw [hexValue_eq, if_pos hdigit] at hvalue
    cases hvalue
  rw [writeByte, if_neg (by rw [isQpdfSpace_upper, hspace]; decide), if_neg (by rwa [upper_eq_end]),
    if_neg hdigit]

/-- From any point of a run, the rest of the text decides what is delivered. -/
theorem finish_foldlM {digits : Bytes} (h : Holds d digits) (data : Bytes) :
    (data.foldlM step d).map (fun d => d.finish.out) = hexPairs d.out (digits ++ body data) := by
  induction data generalizing d digits with
  | nil =>
    rw [body, List.filter_nil, List.takeWhile_nil, List.append_nil, h.out_flush]
    rfl
  | cons byte data ih =>
    rw [List.foldlM_cons, step, if_neg (by rw [h.eod_eq]; decide)]
    by_cases hspace : isQpdfSpace byte = true
    · rw [writeByte_space hspace, body_space hspace]
      exact ih h
    rw [Bool.not_eq_true] at hspace
    by_cases hend : byte = 0x3e
    · subst hend
      rw [writeByte_end, body_end, List.append_nil, h.out_flush]
      have hflush : ({ d with eod := true } : AsciiHexDecoder).flush = { d.flush with eod := true } := by
        rw [flush, flush]
        split_ifs <;> rfl
      have hpos : d.flush.pos = 0 := by
        rw [flush]
        split_ifs with hzero
        · exact hzero
        · rfl
      show (List.foldlM step _ data).map _ = _
      rw [hflush, foldlM_step_of_eod rfl]
      show Except.ok (flush _).out = _
      rw [flush, if_pos hpos]
    rw [body_cons hspace hend]
    cases hvalue : hexValue byte with
    | none =>
      rw [writeByte_outOfRange hspace hend hvalue]
      rcases h.cases_digits with ⟨rfl, _⟩ | ⟨a, rfl, ha, _⟩
      · cases hbody : body data <;> rw [List.nil_append, hexPairs, hvalue] <;> rfl
      · show _ = hexPairs d.out (a :: byte :: body data)
        rw [hexPairs, ha, hvalue]
        rfl
    | some x =>
      obtain ⟨e, digits', hbyte, hholds, hsame⟩ := h.writeByte_digit hvalue
      rw [hbyte, hsame]
      exact ih hholds

/-- However the input is split, the stage delivers what the filter says. -/
theorem decode_eq (chunks : List Bytes) : decode chunks = reference chunks.flatten := by
  have hwrites : writeAll write {} chunks = chunks.flatten.foldlM step {} := by
    have hsame : write = fun d data => data.foldlM step d := by
      funext d data
      exact write_eq d data
    rw [hsame, writeAll_foldlM]
  rw [decode, hwrites]
  exact finish_foldlM (holds_new []) chunks.flatten

/-- What stands behind the end marker has no effect. -/
theorem reference_append (hend : 0x3e ∈ data) (later : Bytes) :
    reference (data ++ later) = reference data := by
  have hbody : body (data ++ later) = body data := by
    induction data with
    | nil => cases hend
    | cons byte data ih =>
      rw [List.cons_append]
      by_cases hspace : isQpdfSpace byte = true
      · have hne : (0x3e : UInt8) ≠ byte := by
          rintro rfl
          revert hspace
          decide
        rw [body_space hspace, body_space hspace, ih (List.mem_of_ne_of_mem hne hend)]
      rw [Bool.not_eq_true] at hspace
      by_cases hbyte : byte = 0x3e
      · rw [hbyte, body_end, body_end]
      · rw [body_cons hspace hbyte, body_cons hspace hbyte,
          ih (List.mem_of_ne_of_mem (Ne.symm hbyte) hend)]
  exact congrArg (hexPairs []) hbody

end AsciiHexDecoder

end Flpdf
