import Flpdf.Pipeline.Stage
import Mathlib.Tactic.IntervalCases

/-! # The ASCII85 decoder

`Ascii85Decoder` collects groups of five digits and remembers half of the end
marker between two writes; the reference decodes the whole text at once.
-/

namespace Flpdf

/-- The stage; `out` is what the next stage has been given. -/
structure Ascii85Decoder where
  inbuf : Bytes := List.replicate 5 0x75
  pos : ℕ := 0
  eod : ℕ := 0
  out : Bytes := []
  deriving DecidableEq, Repr

namespace Ascii85Decoder

def brokenEnd : PipelineError := .runtime (ascii "broken end-of-data sequence in base 85 data")

def unexpectedZ : PipelineError := .runtime (ascii "unexpected z during base 85 decode")

def outOfRange : PipelineError := .runtime (ascii "character out of range during base 85 decode")

/-- The value of a group, in wrapping arithmetic. -/
def wrappedValue (inbuf : Bytes) : UInt32 :=
  inbuf.foldl (fun value byte => value * 85 + (byte - 0x21).toUInt32) 0

def flush (d : Ascii85Decoder) : Ascii85Decoder :=
  if d.pos = 0 then d
  else
    let value := wrappedValue d.inbuf
    let bytes := [(value >>> 24).toUInt8, (value >>> 16).toUInt8, (value >>> 8).toUInt8,
      value.toUInt8]
    { d with pos := 0, inbuf := List.replicate 5 0x75, out := d.out ++ bytes.take (d.pos - 1) }

/-- A round of the loop in `write` before the end marker. -/
def writeBody (d : Ascii85Decoder) (byte : UInt8) : Except StageFailure Ascii85Decoder :=
  if byte = 0x7e then .ok { d with eod := 1 }
  else if byte = 0x7a then
    if d.pos = 0 then .ok { d with out := d.out ++ [0, 0, 0, 0] } else .error ⟨unexpectedZ, d.out⟩
  else if 0x21 ≤ byte ∧ byte ≤ 0x75 then
    let d := { d with inbuf := d.inbuf.set d.pos byte, pos := d.pos + 1 }
    .ok (if d.pos = 5 then d.flush else d)
  else .error ⟨outOfRange, d.out⟩

/-- The loop in `write`, which a byte behind the end marker leaves. -/
def writeLoop : Bytes → Ascii85Decoder → Except StageFailure Ascii85Decoder
  | [], d => .ok d
  | byte :: data, d =>
    if isQpdfSpace byte then writeLoop data d
    else if d.eod > 1 then .ok d
    else if d.eod = 1 then
      if byte = 0x3e then writeLoop data { d.flush with eod := 2 } else .error ⟨brokenEnd, d.out⟩
    else (d.writeBody byte).bind (writeLoop data)

def write (d : Ascii85Decoder) (data : Bytes) : Except StageFailure Ascii85Decoder :=
  if d.eod > 1 then .ok d else writeLoop data d

def finish (d : Ascii85Decoder) : Ascii85Decoder := d.flush

/-- What the stage delivers for some writes. -/
def decode (chunks : List Bytes) : Except StageFailure Bytes :=
  (writeAll write {} chunks).map fun d => d.finish.out

/-! ## The filter in one pass -/

/-- The four bytes of five digits. -/
def groupBytes (group : Bytes) : Bytes :=
  let value := group.foldl (fun value byte => value * 85 + (byte.toNat - 0x21)) 0
  [UInt8.ofNat (value / 256 ^ 3), UInt8.ofNat (value / 256 ^ 2), UInt8.ofNat (value / 256),
    UInt8.ofNat value]

/-- A last group of some digits has one byte less than digits. -/
def partialBytes (digits : Bytes) : Bytes :=
  (groupBytes (digits ++ List.replicate (5 - digits.length) 0x75)).take (digits.length - 1)

/-- What is wrong with a byte in a group. -/
def badDigit (byte : UInt8) : Option PipelineError :=
  if byte = 0x7a then some unexpectedZ
  else if 0x21 ≤ byte ∧ byte ≤ 0x75 then none
  else some outOfRange

/-- The bytes of the whole groups, and the digits behind them. -/
@[grind =] def groups (out : Bytes) : Bytes → Except StageFailure (Bytes × Bytes)
  | 0x7a :: rest => groups (out ++ [0, 0, 0, 0]) rest
  | a :: b :: c :: d :: e :: rest =>
    match [a, b, c, d, e].findSome? badDigit with
    | some error => .error ⟨error, out⟩
    | none => groups (out ++ groupBytes [a, b, c, d, e]) rest
  | digits =>
    match digits.findSome? badDigit with
    | some error => .error ⟨error, out⟩
    | none => .ok (out, digits)

/-- What stands behind the groups: nothing, the end marker or the half of it. -/
def isEnd : Bytes → Bool
  | _ :: byte :: _ => byte == 0x3e
  | _ => true

def decodeText (out text : Bytes) : Except StageFailure Bytes :=
  (groups out (text.takeWhile (· ≠ 0x7e))).bind fun (out, digits) =>
    if isEnd (text.dropWhile (· ≠ 0x7e)) then .ok (out ++ partialBytes digits)
    else .error ⟨brokenEnd, out⟩

def reference (data : Bytes) : Except StageFailure Bytes :=
  decodeText [] (data.filter fun byte => !isQpdfSpace byte)

example : reference (ascii "9jqo^ z!!~\n>ignored") = .ok (ascii "Man " ++ [0, 0, 0, 0, 0]) := by
  decide

/-! ## Values -/

theorem foldl_mod (digits : Bytes) (value : ℕ) :
    digits.foldl (fun value byte => value * 85 + (byte.toNat - 0x21)) (value % 2 ^ 32) % 2 ^ 32 =
      digits.foldl (fun value byte => value * 85 + (byte.toNat - 0x21)) value % 2 ^ 32 := by
  induction digits generalizing value with
  | nil => exact Nat.mod_mod _ _
  | cons digit digits ih =>
    rw [List.foldl_cons, List.foldl_cons, ← ih, ← ih (value * 85 + _)]
    congr 2
    omega

theorem toNat_foldl (digits : Bytes) (hdigits : ∀ digit ∈ digits, 0x21 ≤ digit) (value : UInt32) :
    (digits.foldl (fun value byte => value * 85 + (byte - 0x21).toUInt32) value).toNat =
      digits.foldl (fun value byte => value * 85 + (byte.toNat - 0x21)) value.toNat % 2 ^ 32 := by
  induction digits generalizing value with
  | nil => exact (Nat.mod_eq_of_lt value.toNat_lt).symm
  | cons digit digits ih =>
    have hdigit : (digit - 0x21).toNat = digit.toNat - 0x21 :=
      UInt8.toNat_sub_of_le digit 0x21 (hdigits digit List.mem_cons_self)
    rw [List.foldl_cons, List.foldl_cons,
      ih (fun digit hdigit => hdigits digit (List.mem_cons_of_mem _ hdigit)), UInt32.toNat_add,
      UInt32.toNat_mul, UInt8.toNat_toUInt32, hdigit, ← foldl_mod digits (value.toNat * 85 + _)]
    congr 2
    show (value.toNat * 85 % 2 ^ 32 + _) % 2 ^ 32 = _
    omega

theorem toUInt8_shiftRight (value : UInt32) (n : ℕ) (shift : UInt32) (hshift : shift.toNat = 8 * n)
    (hn : n < 4) : (value >>> shift).toUInt8 = UInt8.ofNat (value.toNat / 256 ^ n) := by
  apply UInt8.toNat_inj.mp
  rw [UInt32.toNat_toUInt8, UInt32.toNat_shiftRight, UInt8.toNat_ofNat', hshift,
    Nat.mod_eq_of_lt (by omega : 8 * n < 32), Nat.shiftRight_eq_div_pow, Nat.pow_mul]

theorem ofNat_mod_pow (value n : ℕ) (hn : n < 4) :
    UInt8.ofNat (value % 2 ^ 32 / 256 ^ n) = UInt8.ofNat (value / 256 ^ n) := by
  apply UInt8.toNat_inj.mp
  rw [UInt8.toNat_ofNat', UInt8.toNat_ofNat']
  interval_cases n <;> omega

/-- The bytes of the stage are those of the group. -/
theorem flush_bytes (group : Bytes) (hgroup : ∀ digit ∈ group, 0x21 ≤ digit) :
    [(wrappedValue group >>> 24).toUInt8, (wrappedValue group >>> 16).toUInt8,
      (wrappedValue group >>> 8).toUInt8, (wrappedValue group).toUInt8] = groupBytes group := by
  have hvalue : (wrappedValue group).toNat =
      group.foldl (fun value byte => value * 85 + (byte.toNat - 0x21)) 0 % 2 ^ 32 :=
    toNat_foldl group hgroup 0
  have hlast : (wrappedValue group).toUInt8 =
      UInt8.ofNat (group.foldl (fun value byte => value * 85 + (byte.toNat - 0x21)) 0) := by
    apply UInt8.toNat_inj.mp
    rw [UInt32.toNat_toUInt8, hvalue, UInt8.toNat_ofNat']
    omega
  rw [groupBytes, hlast, toUInt8_shiftRight _ 3 24 rfl (by decide),
    toUInt8_shiftRight _ 2 16 rfl (by decide), toUInt8_shiftRight _ 1 8 rfl (by decide), hvalue,
    ofNat_mod_pow _ 3 (by decide), ofNat_mod_pow _ 2 (by decide), ofNat_mod_pow _ 1 (by decide),
    Nat.pow_one]

/-! ## Groups -/

variable {d : Ascii85Decoder} {data digits rest out : Bytes} {byte : UInt8}

def IsDigit (byte : UInt8) : Prop := 0x21 ≤ byte ∧ byte ≤ 0x75

instance (byte : UInt8) : Decidable (IsDigit byte) := inferInstanceAs (Decidable (_ ∧ _))

theorem IsDigit.plain (h : IsDigit byte) :
    byte ≠ 0x7a ∧ byte ≠ 0x7e ∧ isQpdfSpace byte = false ∧ badDigit byte = none :=
  forall_byte (p := fun byte => IsDigit byte →
    byte ≠ 0x7a ∧ byte ≠ 0x7e ∧ isQpdfSpace byte = false ∧ badDigit byte = none)
    (by decide) byte h

theorem findSome?_digits (hdigits : ∀ digit ∈ digits, IsDigit digit) (rest : Bytes) :
    (digits ++ rest).findSome? badDigit = rest.findSome? badDigit := by
  induction digits with
  | nil => rfl
  | cons digit digits ih =>
    have hdigit := (hdigits digit List.mem_cons_self).plain.2.2.2
    rw [List.cons_append, List.findSome?_cons, hdigit,
      ih fun digit hdigit => hdigits digit (List.mem_cons_of_mem _ hdigit)]

/-- The first wrong byte of a group decides. -/
theorem groups_error {text : Bytes} {error : PipelineError}
    (hbad : (text.take 5).findSome? badDigit = some error) (hfirst : text.head? ≠ some 0x7a) :
    groups out text = .error ⟨error, out⟩ := by
  match text with
  | [] => cases hbad
  | a :: b :: c :: d :: e :: tail =>
    have ha : a ≠ 0x7a := fun ha => hfirst (congrArg some ha)
    have hbad' : [a, b, c, d, e].findSome? badDigit = some error := hbad
    rw [groups, hbad']
    exact ha
  | [a] | [a, b] | [a, b, c] | [a, b, c, d] =>
    have ha : a ≠ 0x7a := fun ha => hfirst (congrArg some ha)
    rw [List.take_of_length_le (by simp)] at hbad
    rw [groups, hbad]
    · intro rest heq
      exact ha (List.cons.inj heq).1
    · intro a b c d e rest heq
      have hlength := congrArg List.length heq
      simp at hlength

/-- Behind fewer than five digits a wrong byte ends the run. -/
theorem groups_bad {error : PipelineError} (hdigits : ∀ digit ∈ digits, IsDigit digit)
    (hlength : digits.length < 5) (hbyte : badDigit byte = some error)
    (hfirst : digits = [] → byte ≠ 0x7a) :
    groups out (digits ++ byte :: rest) = .error ⟨error, out⟩ := by
  apply groups_error
  · obtain ⟨n, hn⟩ : ∃ n, 5 - digits.length = n + 1 := ⟨4 - digits.length, by omega⟩
    rw [List.take_append, List.take_of_length_le hlength.le, findSome?_digits hdigits, hn,
      List.take_succ_cons, List.findSome?_cons, hbyte]
  · cases digits with
    | nil => exact fun h => hfirst rfl (Option.some.inj h)
    | cons digit digits =>
      exact fun h => (hdigits digit List.mem_cons_self).plain.1 (Option.some.inj h)

/-- Five digits are a group. -/
theorem groups_digits (hdigits : ∀ digit ∈ digits, IsDigit digit) (hlength : digits.length = 5) :
    groups out (digits ++ rest) = groups (out ++ groupBytes digits) rest := by
  match digits, hlength with
  | [a, b, c, d, e], _ =>
    have hnone : [a, b, c, d, e].findSome? badDigit = none := by
      have h := findSome?_digits hdigits []
      rwa [List.append_nil] at h
    have ha := (hdigits a List.mem_cons_self).plain.1
    show groups out (a :: b :: c :: d :: e :: rest) = _
    rw [groups, hnone]
    exact ha

/-- Fewer digits are left over. -/
theorem groups_partial (hdigits : ∀ digit ∈ digits, IsDigit digit) (hlength : digits.length < 5) :
    groups out digits = .ok (out, digits) := by
  have hnone : digits.findSome? badDigit = none := by
    have h := findSome?_digits hdigits []
    rwa [List.append_nil] at h
  rw [groups, hnone]
  · rintro rest rfl
    exact (hdigits 0x7a List.mem_cons_self).plain.1 rfl
  · rintro a b c d e rest rfl
    simp only [List.length_cons] at hlength
    omega

theorem groups_z : groups out (0x7a :: rest) = groups (out ++ [0, 0, 0, 0]) rest := by
  rw [groups]

/-! ## The stage against the filter -/

/-- A round of the loop in `write`; what follows the end marker has no effect. -/
def step (d : Ascii85Decoder) (byte : UInt8) : Except StageFailure Ascii85Decoder :=
  if isQpdfSpace byte then .ok d
  else if d.eod > 1 then .ok d
  else if d.eod = 1 then
    if byte = 0x3e then .ok { d.flush with eod := 2 } else .error ⟨brokenEnd, d.out⟩
  else d.writeBody byte

theorem foldlM_step_of_eod (heod : d.eod > 1) (data : Bytes) : data.foldlM step d = .ok d := by
  induction data with
  | nil => rfl
  | cons byte data ih =>
    rw [List.foldlM_cons, step, if_pos heod, ite_self]
    exact ih

theorem writeLoop_eq (d : Ascii85Decoder) (data : Bytes) : writeLoop data d = data.foldlM step d := by
  induction data generalizing d with
  | nil => rfl
  | cons byte data ih =>
    rw [writeLoop, List.foldlM_cons, step]
    split_ifs with hspace hdone hhalf hend
    · exact ih d
    · exact (foldlM_step_of_eod hdone data).symm
    · exact ih _
    · rfl
    · cases d.writeBody byte with
      | error failure => rfl
      | ok e => exact ih e

theorem write_eq (d : Ascii85Decoder) (data : Bytes) : d.write data = data.foldlM step d := by
  rw [write]
  split_ifs with hdone
  · exact (foldlM_step_of_eod hdone data).symm
  · exact writeLoop_eq d data

/-- The digits of the group that is not complete. -/
structure Holds (d : Ascii85Decoder) (digits : Bytes) : Prop where
  inbuf_eq : d.inbuf = digits ++ List.replicate (5 - digits.length) 0x75
  pos_eq : d.pos = digits.length
  length_lt : digits.length < 5
  digits : ∀ digit ∈ digits, IsDigit digit

theorem holds_new (out : Bytes) (eod : ℕ) : Holds { out := out, eod := eod } [] where
  inbuf_eq := rfl
  pos_eq := rfl
  length_lt := by decide
  digits digit hdigit := by cases hdigit

theorem flush_of_pos (hpos : d.pos ≠ 0) (hge : ∀ byte ∈ d.inbuf, 0x21 ≤ byte) :
    d.flush = { d with pos := 0, inbuf := List.replicate 5 0x75,
                       out := d.out ++ (groupBytes d.inbuf).take (d.pos - 1) } := by
  rw [flush, if_neg hpos, ← flush_bytes d.inbuf hge]

namespace Holds

theorem stage_eq (h : Holds d digits) :
    d = { inbuf := digits ++ List.replicate (5 - digits.length) 0x75, pos := digits.length,
          eod := d.eod, out := d.out } := by
  rw [← h.inbuf_eq, ← h.pos_eq]

theorem flush_eq (h : Holds d digits) :
    d.flush = { out := d.out ++ partialBytes digits, eod := d.eod } := by
  cases digits with
  | nil =>
    have hpos : d.pos = 0 := h.pos_eq
    rw [flush, if_pos hpos]
    conv_lhs => rw [h.stage_eq]
    rw [partialBytes, List.length_nil, List.take_zero, List.append_nil]
    rfl
  | cons digit digits =>
    have hpos : ¬d.pos = 0 := by
      rw [h.pos_eq]
      exact Nat.succ_ne_zero _
    have hge : ∀ byte ∈ d.inbuf, 0x21 ≤ byte := by
      intro byte hbyte
      rw [h.inbuf_eq] at hbyte
      rcases List.mem_append.mp hbyte with hdigit | hfill
      · exact (h.digits byte hdigit).1
      · rw [(List.mem_replicate.mp hfill).2]
        decide
    rw [flush_of_pos hpos hge, h.inbuf_eq, h.pos_eq]
    rfl

/-- A digit completes the group or waits. -/
theorem writeBody_digit (h : Holds d digits) (hbyte : IsDigit byte) :
    ∃ e digits', d.writeBody byte = .ok e ∧ Holds e digits' ∧ e.eod = d.eod ∧ ∀ rest,
      groups d.out (digits ++ byte :: rest) = groups e.out (digits' ++ rest) := by
  obtain ⟨hz, hend, _, _⟩ := hbyte.plain
  have hset : d.inbuf.set d.pos byte =
      digits ++ byte :: List.replicate (5 - (digits ++ [byte]).length) 0x75 := by
    obtain ⟨n, hn⟩ : ∃ n, 5 - digits.length = n + 1 :=
      ⟨4 - digits.length, by have := h.length_lt; omega⟩
    have hn' : 5 - (digits ++ [byte]).length = n := by
      rw [List.length_append, List.length_singleton]
      omega
    rw [h.inbuf_eq, h.pos_eq, hn', hn, List.replicate_succ, List.set_append_right _ _ (Nat.le_refl _),
      Nat.sub_self, List.set_cons_zero]
  have hdigits : ∀ digit ∈ digits ++ [byte], IsDigit digit := by
    intro digit hdigit
    rcases List.mem_append.mp hdigit with hold | hnew
    · exact h.digits digit hold
    · rwa [List.mem_singleton.mp hnew]
  have hrange : 0x21 ≤ byte ∧ byte ≤ 0x75 := hbyte
  rw [writeBody, if_neg hend, if_neg hz, if_pos hrange]
  by_cases hfull : digits.length + 1 = 5
  · -- the group is complete
    have hlength : (digits ++ [byte]).length = 5 := by
      rw [List.length_append, List.length_singleton, hfull]
    have hge : ∀ digit ∈ digits ++ [byte], 0x21 ≤ digit := fun digit hdigit => (hdigits digit hdigit).1
    have hset' : d.inbuf.set d.pos byte = digits ++ [byte] := by
      rw [hset, hlength]
      rfl
    refine ⟨{ out := d.out ++ groupBytes (digits ++ [byte]), eod := d.eod }, [], ?_, holds_new _ _,
      rfl, fun rest => ?_⟩
    · have hpos : d.pos + 1 = 5 := by rw [h.pos_eq, hfull]
      dsimp only
      rw [if_pos hpos, flush_of_pos (by show d.pos + 1 ≠ 0; exact Nat.succ_ne_zero _)
        (by rwa [hset'])]
      simp only [hset', hpos]
      rfl
    · rw [← groups_digits hdigits hlength, List.append_assoc]
      rfl
  · refine ⟨{ d with inbuf := d.inbuf.set d.pos byte, pos := d.pos + 1 }, digits ++ [byte], ?_, ?_,
      rfl, fun rest => ?_⟩
    · dsimp only
      rw [if_neg (by rwa [h.pos_eq])]
    · constructor
      · rw [hset, List.append_assoc]
        rfl
      · rw [h.pos_eq, List.length_append, List.length_singleton]
      · have := h.length_lt
        rw [List.length_append, List.length_singleton]
        omega
      · exact hdigits
    · rw [List.append_assoc]
      rfl

end Holds

/-- Half of the end marker has been read. -/
theorem finish_half (h : Holds d digits) (heod : d.eod = 1) (data : Bytes) :
    (data.foldlM step d).map (fun d => d.finish.out) =
      if isEnd (0x7e :: data.filter fun byte => !isQpdfSpace byte) then
        .ok (d.out ++ partialBytes digits)
      else .error ⟨brokenEnd, d.out⟩ := by
  have hnot : ¬d.eod > 1 := by omega
  induction data with
  | nil =>
    show Except.ok d.flush.out = _
    rw [h.flush_eq]
    rfl
  | cons byte data ih =>
    rw [List.foldlM_cons, step]
    by_cases hspace : isQpdfSpace byte = true
    · rw [if_pos hspace, List.filter_cons_of_neg (by simp [hspace])]
      exact ih
    rw [if_neg hspace, if_neg hnot, if_pos heod, List.filter_cons_of_pos (by simp [hspace])]
    by_cases hend : byte = 0x3e
    · rw [if_pos hend, isEnd, hend, if_pos (by decide)]
      show (List.foldlM step _ data).map _ = _
      rw [foldlM_step_of_eod (by show (2 : ℕ) > 1; decide), h.flush_eq]
      rfl
    · rw [if_neg hend, isEnd, if_neg (by rwa [beq_iff_eq])]
      rfl

/-- What the text behind the groups makes of them. -/
def close (tail : Bytes) (result : Bytes × Bytes) : Except StageFailure Bytes :=
  if isEnd tail then .ok (result.1 ++ partialBytes result.2) else .error ⟨brokenEnd, result.1⟩

theorem decodeText_append (hdigits : ∀ digit ∈ digits, digit ≠ 0x7e) (out text : Bytes) :
    decodeText out (digits ++ text) =
      (groups out (digits ++ text.takeWhile (· ≠ 0x7e))).bind (close (text.dropWhile (· ≠ 0x7e))) := by
  have hall : ∀ digit ∈ digits, decide (digit ≠ 0x7e) = true :=
    fun digit hdigit => decide_eq_true (hdigits digit hdigit)
  rw [decodeText, List.takeWhile_append_of_pos hall, List.dropWhile_append_of_pos hall]
  rfl

/-- From any point of a run before the end marker, the rest of the text decides what is
delivered. -/
theorem finish_foldlM (h : Holds d digits) (heod : d.eod = 0) (data : Bytes) :
    (data.foldlM step d).map (fun d => d.finish.out) =
      decodeText d.out (digits ++ data.filter fun byte => !isQpdfSpace byte) := by
  have hplain : ∀ {digits : Bytes}, (∀ digit ∈ digits, IsDigit digit) → ∀ digit ∈ digits,
      digit ≠ 0x7e := fun hdigits digit hdigit => (hdigits digit hdigit).plain.2.1
  induction data generalizing d digits with
  | nil =>
    rw [List.filter_nil, decodeText_append (hplain h.digits), List.takeWhile_nil, List.dropWhile_nil,
      List.append_nil, groups_partial h.digits h.length_lt]
    show Except.ok d.flush.out = _
    rw [h.flush_eq]
    rfl
  | cons byte data ih =>
    rw [List.foldlM_cons, step]
    by_cases hspace : isQpdfSpace byte = true
    · rw [if_pos hspace, List.filter_cons_of_neg (by simp [hspace])]
      exact ih h heod
    have hdone : ¬d.eod > 1 := by omega
    have hhalf : ¬d.eod = 1 := by omega
    rw [if_neg hspace, if_neg hdone, if_neg hhalf, List.filter_cons_of_pos (by simp [hspace]),
      decodeText_append (hplain h.digits)]
    by_cases hend : byte = 0x7e
    · -- the first half of the end marker
      have hholds : Holds { d with eod := 1 } digits :=
        ⟨h.inbuf_eq, h.pos_eq, h.length_lt, h.digits⟩
      rw [writeBody, if_pos hend, hend, List.takeWhile_cons_of_neg (by decide),
        List.dropWhile_cons_of_neg (by decide), List.append_nil, groups_partial h.digits h.length_lt]
      exact finish_half hholds rfl data
    rw [List.takeWhile_cons_of_pos (by simp [hend]), List.dropWhile_cons_of_pos (by simp [hend])]
    by_cases hdigit : IsDigit byte
    · obtain ⟨e, digits', hwrite, hholds, hsame, hgroups⟩ := h.writeBody_digit hdigit
      rw [hwrite, hgroups, ← decodeText_append (hplain hholds.digits)]
      exact ih hholds (hsame.trans heod)
    rw [writeBody, if_neg hend]
    by_cases hz : byte = 0x7a
    · rw [if_pos hz, hz]
      cases digits with
      | nil =>
        have hpos : d.pos = 0 := h.pos_eq
        have hholds : Holds { d with out := d.out ++ [0, 0, 0, 0] } [] :=
          ⟨h.inbuf_eq, h.pos_eq, h.length_lt, h.digits⟩
        rw [if_pos hpos, List.nil_append, groups_z]
        have hrest := ih hholds heod
        rw [decodeText_append (hplain hholds.digits)] at hrest
        exact hrest
      | cons digit digits =>
        have hpos : ¬d.pos = 0 := by
          rw [h.pos_eq]
          exact Nat.succ_ne_zero _
        have hbad : badDigit 0x7a = some unexpectedZ := rfl
        rw [if_neg hpos, groups_bad h.digits h.length_lt hbad fun hnil => absurd hnil (List.cons_ne_nil _ _)]
        rfl
    · have hrange : ¬(0x21 ≤ byte ∧ byte ≤ 0x75) := hdigit
      have hbad : badDigit byte = some outOfRange := by
        rw [badDigit, if_neg hz, if_neg hrange]
      rw [if_neg hz, if_neg hrange, groups_bad h.digits h.length_lt hbad fun _ => hz]
      rfl

/-- However the input is split, the stage delivers what the filter says. -/
theorem decode_eq (chunks : List Bytes) : decode chunks = reference chunks.flatten := by
  have hwrites : writeAll write {} chunks = chunks.flatten.foldlM step {} := by
    have hsame : write = fun d data => data.foldlM step d := by
      funext d data
      exact write_eq d data
    rw [hsame, writeAll_foldlM]
  rw [decode, hwrites]
  exact finish_foldlM (holds_new [] 0) rfl chunks.flatten

theorem split_append (before behind : Bytes) :
    (before ++ 0x7e :: 0x3e :: behind).takeWhile (· ≠ 0x7e) =
        (before ++ [0x7e, 0x3e]).takeWhile (· ≠ 0x7e) ∧
      isEnd ((before ++ 0x7e :: 0x3e :: behind).dropWhile (· ≠ 0x7e)) =
        isEnd ((before ++ [0x7e, 0x3e]).dropWhile (· ≠ 0x7e)) := by
  induction before with
  | nil => exact ⟨rfl, rfl⟩
  | cons byte before ih =>
    rw [List.cons_append, List.cons_append]
    by_cases hbyte : byte = 0x7e
    · subst hbyte
      refine ⟨rfl, ?_⟩
      cases before <;> rfl
    · rw [List.takeWhile_cons_of_pos (by simp [hbyte]), List.takeWhile_cons_of_pos (by simp [hbyte]),
        List.dropWhile_cons_of_pos (by simp [hbyte]), List.dropWhile_cons_of_pos (by simp [hbyte]),
        ih.1]
      exact ⟨rfl, ih.2⟩

/-- What stands behind the end marker has no effect. -/
theorem reference_append {before behind : Bytes}
    (hend : data.filter (fun byte => !isQpdfSpace byte) = before ++ 0x7e :: 0x3e :: behind)
    (later : Bytes) : reference (data ++ later) = reference data := by
  have hsplit : ∀ behind : Bytes, decodeText [] (before ++ 0x7e :: 0x3e :: behind) =
      decodeText [] (before ++ [0x7e, 0x3e]) := by
    intro behind
    obtain ⟨htake, hdrop⟩ := split_append before behind
    rw [decodeText, decodeText, htake, hdrop]
  rw [reference, reference, List.filter_append, hend, List.append_assoc, List.cons_append,
    List.cons_append, hsplit, hsplit behind]

end Ascii85Decoder

end Flpdf
