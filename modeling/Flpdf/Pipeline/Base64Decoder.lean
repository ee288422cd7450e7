import Flpdf.Pipeline.Base64
import Flpdf.Pipeline.Stage

/-! # The Base64 decoder

The other direction of `PlBase64`: four characters are three bytes, and padding
ends the data.
-/

namespace Flpdf

/-- The decoding stage: the characters of the current quantum, and `out`, what the next stage
has been given. -/
structure Base64Decoder where
  identifier : Bytes
  buffer : Bytes := []
  endOfData : Bool := false
  finished : Bool := false
  out : Bytes := []
  deriving DecidableEq, Repr

namespace Base64Decoder

def decodeValue (byte : UInt8) : Option ℕ :=
  if 0x41 ≤ byte ∧ byte ≤ 0x5a then some (byte.toNat - 0x41)
  else if 0x61 ≤ byte ∧ byte ≤ 0x7a then some (byte.toNat - 0x61 + 26)
  else if 0x30 ≤ byte ∧ byte ≤ 0x39 then some (byte.toNat - 0x30 + 52)
  else if byte = 0x2b ∨ byte = 0x2d then some 62
  else if byte = 0x2f ∨ byte = 0x5f then some 63
  else none

/-- A round of the loop in `flush_decode`: the number so far, and how much padding there is. -/
def decodeCharacter (buffer : Bytes) (state : ℕ × ℕ) (index : ℕ) : Option (ℕ × ℕ) :=
  let byte := buffer.getD index 0
  match decodeValue byte with
  | some value => some (state.1 + value <<< (18 - 6 * index), state.2)
  | none =>
    if byte = 0x3d ∧ (index = 3 ∨ index = 2 ∧ buffer.getD 3 0 = 0x3d) then
      some (state.1, state.2 + 1)
    else none

def dataFollows (identifier : Bytes) : PipelineError :=
  .runtime (identifier ++ ascii ": base64 decode: data follows pad characters")

def invalidInput (identifier : Bytes) : PipelineError :=
  .runtime (identifier ++ ascii ": base64 decode: invalid input")

/-- `flush_decode`, after which the buffer is empty. -/
def flushQuantum (d : Base64Decoder) : Except StageFailure Base64Decoder :=
  if d.endOfData then .error ⟨dataFollows d.identifier, d.out⟩
  else
    match (List.range 4).foldlM (decodeCharacter d.buffer) (0, 0) with
    | none => .error ⟨invalidInput d.identifier, d.out⟩
    | some (output, padding) =>
      let decoded := [UInt8.ofNat (output >>> 16), UInt8.ofNat (output >>> 8), UInt8.ofNat output]
      .ok { d with
        buffer := []
        endOfData := decide (padding > 0)
        out := d.out ++ decoded.take (3 - padding) }

def writeByte (d : Base64Decoder) (byte : UInt8) : Except StageFailure Base64Decoder :=
  if isQpdfSpace byte then .ok d
  else
    let d := { d with buffer := d.buffer ++ [byte] }
    if d.buffer.length = 4 then d.flushQuantum else .ok d

def usedAfterFinished : PipelineError := .logic (ascii "Pl_Base64 used after finished")

def write (d : Base64Decoder) (data : Bytes) : Except StageFailure Base64Decoder :=
  if d.finished then .error ⟨usedAfterFinished, d.out⟩ else data.foldlM writeByte d

/-- What is missing of the last quantum is padding. -/
def finish (d : Base64Decoder) : Except StageFailure Base64Decoder :=
  if d.buffer = [] then .ok { d with finished := true }
  else if d.finished then .error ⟨usedAfterFinished, d.out⟩
  else
    ({ d with buffer := d.buffer ++ List.replicate (4 - d.buffer.length) 0x3d } :
      Base64Decoder).flushQuantum.map fun d => { d with finished := true }

/-- What the stage delivers for some writes. -/
def decode (identifier : Bytes) (chunks : List Bytes) : Except StageFailure Bytes :=
  ((writeAll write { identifier := identifier } chunks).bind finish).map fun d => d.out

/-! ## The grammar -/

/-- The three bytes of four values. -/
def quantumBytes (a b c d : ℕ) : Bytes :=
  [UInt8.ofNat (4 * a + b / 16), UInt8.ofNat (16 * (b % 16) + c / 4), UInt8.ofNat (64 * (c % 4) + d)]

/-- A text without white space, and the bytes it stands for.  Only the last quantum is padded,
and some or all of its padding may be missing. -/
inductive Denotes : Bytes → Bytes → Prop
  | nil : Denotes [] []
  | quantum {a b c d : UInt8} {va vb vc vd : ℕ} {rest bytes : Bytes} : decodeValue a = some va →
      decodeValue b = some vb → decodeValue c = some vc → decodeValue d = some vd →
      Denotes rest bytes → Denotes (a :: b :: c :: d :: rest) (quantumBytes va vb vc vd ++ bytes)
  | three {a b c : UInt8} {va vb vc : ℕ} (present : ℕ) : decodeValue a = some va →
      decodeValue b = some vb → decodeValue c = some vc → present ≤ 1 →
      Denotes (a :: b :: c :: List.replicate present 0x3d) ((quantumBytes va vb vc 0).take 2)
  | two {a b : UInt8} {va vb : ℕ} (present : ℕ) : decodeValue a = some va →
      decodeValue b = some vb → present ≤ 2 →
      Denotes (a :: b :: List.replicate present 0x3d) ((quantumBytes va vb 0 0).take 1)

theorem decodeValue_lt {byte : UInt8} {value : ℕ} (h : decodeValue byte = some value) :
    value < 64 := by
  have hall := forall_byte (p := fun byte => (decodeValue byte).all (· < 64) = true)
    (by decide) byte
  rw [h, Option.all_some, decide_eq_true_eq] at hall
  exact hall

theorem decodeValue_pad : decodeValue 0x3d = none := by decide

theorem pad_ne_some {value : ℕ} (h : decodeValue 0x3d = some value) : False := by
  rw [decodeValue_pad] at h
  cases h

/-! ## A quantum -/

variable {d e : Base64Decoder} {a b c x : UInt8} {va vb vc vx : ℕ} {data text bytes : Bytes}

theorem ofNat_congr {m n : ℕ} (h : m % 256 = n % 256) : UInt8.ofNat m = UInt8.ofNat n := by
  apply UInt8.toNat_inj.mp
  rw [UInt8.toNat_ofNat', UInt8.toNat_ofNat']
  exact h

/-- The bytes that are cut out of the number of a quantum. -/
theorem quantumBytes_eq (hc : vc < 64) (hx : vx < 64) :
    [UInt8.ofNat ((va <<< 18 + vb <<< 12 + vc <<< 6 + vx <<< 0) >>> 16),
      UInt8.ofNat ((va <<< 18 + vb <<< 12 + vc <<< 6 + vx <<< 0) >>> 8),
      UInt8.ofNat (va <<< 18 + vb <<< 12 + vc <<< 6 + vx <<< 0)] = quantumBytes va vb vc vx := by
  simp only [Nat.shiftLeft_eq, Nat.shiftRight_eq_div_pow, quantumBytes]
  congr 1
  · exact ofNat_congr (by omega)
  congr 1
  · exact ofNat_congr (by omega)
  congr 1
  exact ofNat_congr (by omega)

theorem decodeCharacters_quantum (ha : decodeValue a = some va) (hb : decodeValue b = some vb)
    (hc : decodeValue c = some vc) (hx : decodeValue x = some vx) :
    (List.range 4).foldlM (decodeCharacter [a, b, c, x]) (0, 0) =
      some (va <<< 18 + vb <<< 12 + vc <<< 6 + vx <<< 0, 0) := by
  have hrange : List.range 4 = [0, 1, 2, 3] := rfl
  simp [hrange, decodeCharacter, ha, hb, hc, hx]

theorem decodeCharacters_three (ha : decodeValue a = some va) (hb : decodeValue b = some vb)
    (hc : decodeValue c = some vc) :
    (List.range 4).foldlM (decodeCharacter [a, b, c, 0x3d]) (0, 0) =
      some (va <<< 18 + vb <<< 12 + vc <<< 6, 1) := by
  have hrange : List.range 4 = [0, 1, 2, 3] := rfl
  simp [hrange, decodeCharacter, ha, hb, hc, decodeValue_pad]

theorem decodeCharacters_two (ha : decodeValue a = some va) (hb : decodeValue b = some vb) :
    (List.range 4).foldlM (decodeCharacter [a, b, 0x3d, 0x3d]) (0, 0) =
      some (va <<< 18 + vb <<< 12, 2) := by
  have hrange : List.range 4 = [0, 1, 2, 3] := rfl
  simp [hrange, decodeCharacter, ha, hb, decodeValue_pad]

/-- The quanta that are accepted. -/
inductive Quantum (a b c x : UInt8) : Bytes → Bool → Prop
  | whole {va vb vc vx : ℕ} : decodeValue a = some va → decodeValue b = some vb →
      decodeValue c = some vc → decodeValue x = some vx →
      Quantum a b c x (quantumBytes va vb vc vx) false
  | three {va vb vc : ℕ} : decodeValue a = some va → decodeValue b = some vb →
      decodeValue c = some vc → x = 0x3d → Quantum a b c x ((quantumBytes va vb vc 0).take 2) true
  | two {va vb : ℕ} : decodeValue a = some va → decodeValue b = some vb → c = 0x3d → x = 0x3d →
      Quantum a b c x ((quantumBytes va vb 0 0).take 1) true

/-- A quantum that the loop goes through is one of them. -/
theorem quantum_of_decodeCharacters {result : ℕ × ℕ}
    (h : (List.range 4).foldlM (decodeCharacter [a, b, c, x]) (0, 0) = some result) :
    ∃ bytes padded, Quantum a b c x bytes padded := by
  have hrange : List.range 4 = [0, 1, 2, 3] := rfl
  cases ha : decodeValue a with
  | none => simp [hrange, decodeCharacter, ha] at h
  | some va =>
  cases hb : decodeValue b with
  | none => simp [hrange, decodeCharacter, ha, hb] at h
  | some vb =>
  cases hc : decodeValue c with
  | some vc =>
    cases hx : decodeValue x with
    | some vx => exact ⟨_, _, .whole ha hb hc hx⟩
    | none =>
      have hpad : x = 0x3d := by
        by_contra hne
        simp [hrange, decodeCharacter, ha, hb, hc, hx, hne] at h
      exact ⟨_, _, .three ha hb hc hpad⟩
  | none =>
    have hpad : c = 0x3d ∧ x = 0x3d := by
      by_contra hne
      simp [hrange, decodeCharacter, ha, hb, hc, hne] at h
    exact ⟨_, _, .two ha hb hpad.1 hpad.2⟩

theorem flushQuantum_of_some {buffer : Bytes} {output padding : ℕ} (heod : d.endOfData = false)
    (hfold : (List.range 4).foldlM (decodeCharacter buffer) (0, 0) = some (output, padding)) :
    ({ d with buffer := buffer } : Base64Decoder).flushQuantum =
      .ok { d with
        buffer := []
        endOfData := decide (padding > 0)
        out := d.out ++ [UInt8.ofNat (output >>> 16), UInt8.ofNat (output >>> 8),
          UInt8.ofNat output].take (3 - padding) } := by
  have hnot : ¬d.endOfData = true := by
    rw [heod]
    exact Bool.false_ne_true
  rw [flushQuantum, if_neg hnot, hfold]

/-- What the stage does with a quantum. -/
theorem Quantum.flush {padded : Bool} (h : Quantum a b c x bytes padded)
    (heod : d.endOfData = false) :
    ({ d with buffer := [a, b, c, x] } : Base64Decoder).flushQuantum =
      .ok { d with buffer := [], endOfData := padded, out := d.out ++ bytes } := by
  have hnone : ∀ n : ℕ, n + 0 <<< 0 = n := fun n => rfl
  have hnone' : ∀ n : ℕ, n + 0 <<< 6 = n := fun n => rfl
  cases h with
  | whole ha hb hc hx =>
    rw [flushQuantum_of_some heod (decodeCharacters_quantum ha hb hc hx),
      quantumBytes_eq (decodeValue_lt hc) (decodeValue_lt hx)]
    rfl
  | three ha hb hc hx =>
    rename_i va vb vc
    subst hx
    have hsame := @quantumBytes_eq va vb _ 0 (decodeValue_lt hc) (by decide)
    rw [hnone] at hsame
    rw [flushQuantum_of_some heod (decodeCharacters_three ha hb hc), hsame]
    rfl
  | two ha hb hc hx =>
    rename_i va vb
    subst hc hx
    have hsame := @quantumBytes_eq va vb 0 0 (by decide) (by decide)
    rw [hnone, hnone'] at hsame
    rw [flushQuantum_of_some heod (decodeCharacters_two ha hb), hsame]
    rfl

theorem flushQuantum_error (hno : ∀ bytes padded, ¬Quantum a b c x bytes padded) :
    ∃ failure, ({ d with buffer := [a, b, c, x] } : Base64Decoder).flushQuantum = .error failure := by
  rw [flushQuantum]
  split_ifs
  · exact ⟨_, rfl⟩
  cases hfold : (List.range 4).foldlM (decodeCharacter [a, b, c, x]) (0, 0) with
  | none => exact ⟨_, rfl⟩
  | some result =>
    obtain ⟨bytes, padded, hquantum⟩ := quantum_of_decodeCharacters hfold
    exact absurd hquantum (hno bytes padded)

/-- A quantum leaves an empty buffer, and the names and flags as they are. -/
theorem flushQuantum_ok (h : d.flushQuantum = .ok e) : e.buffer = [] ∧ e.finished = d.finished := by
  rw [flushQuantum] at h
  split_ifs at h
  cases hfold : (List.range 4).foldlM (decodeCharacter d.buffer) (0, 0) with
  | none =>
    rw [hfold] at h
    cases h
  | some result =>
    rw [hfold] at h
    cases h
    exact ⟨rfl, rfl⟩

/-! ## Whole texts -/

/-- The text of a run: what counts of the input. -/
def characters (data : Bytes) : Bytes := data.filter fun byte => !isQpdfSpace byte

/-- What the stage makes of a text that comes behind whole quanta. -/
def run (d : Base64Decoder) : Bytes → Except StageFailure Base64Decoder
  | a :: b :: c :: x :: rest =>
    ({ d with buffer := [a, b, c, x] } : Base64Decoder).flushQuantum.bind fun d => run d rest
  | text => finish { d with buffer := text }

theorem run_buffer (d : Base64Decoder) (buffer text : Bytes) :
    run { d with buffer := buffer } text = run d text := by
  match text with
  | [] | [a] | [a, b] | [a, b, c] => rfl
  | a :: b :: c :: x :: rest => rfl

theorem run_short (d : Base64Decoder) (h : text.length < 4) :
    run d text = finish { d with buffer := text } := by
  match text with
  | [] | [a] | [a, b] | [a, b, c] => rfl
  | a :: b :: c :: x :: rest =>
    simp only [List.length_cons] at h
    omega

/-- Where the writes end, the quanta do not count. -/
theorem finish_foldlM (hfinished : d.finished = false) (hlength : d.buffer.length < 4)
    (data : Bytes) :
    (data.foldlM writeByte d).bind finish = run d (d.buffer ++ characters data) := by
  induction data generalizing d with
  | nil =>
    rw [characters, List.filter_nil, List.append_nil, run_short d hlength]
    rfl
  | cons byte data ih =>
    rw [List.foldlM_cons, writeByte]
    by_cases hspace : isQpdfSpace byte = true
    · rw [if_pos hspace, characters, List.filter_cons_of_neg (by simp [hspace])]
      exact ih hfinished hlength
    rw [if_neg hspace, characters, List.filter_cons_of_pos (by simp [hspace])]
    dsimp only
    by_cases hfull : (d.buffer ++ [byte]).length = 4
    · rw [if_pos hfull]
      have hthree : d.buffer.length = 3 := by
        rw [List.length_append, List.length_singleton] at hfull
        omega
      obtain ⟨a, b, c, hbuffer⟩ := List.length_eq_three.mp hthree
      rw [hbuffer]
      show ((({ d with buffer := [a, b, c, byte] } : Base64Decoder).flushQuantum).bind
        fun e => data.foldlM writeByte e).bind finish = run d (a :: b :: c :: byte :: _)
      rw [run]
      cases hflush : ({ d with buffer := [a, b, c, byte] } : Base64Decoder).flushQuantum with
      | error failure => rfl
      | ok e =>
        obtain ⟨hempty, hsame⟩ := flushQuantum_ok hflush
        have hrest := ih (hsame.trans hfinished) (by rw [hempty]; decide)
        rw [hempty] at hrest
        exact hrest
    · have hless : (d.buffer ++ [byte]).length < 4 := by
        rw [List.length_append, List.length_singleton] at hfull ⊢
        omega
      rw [if_neg hfull]
      have hrest := ih (d := { d with buffer := d.buffer ++ [byte] }) hfinished hless
      rw [run_buffer, List.append_assoc] at hrest
      exact hrest

/-- What is missing of the last quantum is padding. -/
theorem run_padded (hfinished : d.finished = false) (hlength : text.length < 4) (hne : text ≠ []) :
    run d text = run d (text ++ List.replicate (4 - text.length) 0x3d) := by
  have hquantum : ∀ a b c x : UInt8, run d [a, b, c, x] =
      (({ d with buffer := [a, b, c, x] } : Base64Decoder).flushQuantum).map
        fun d => { d with finished := true } := by
    intro a b c x
    rw [run]
    cases hflush : ({ d with buffer := [a, b, c, x] } : Base64Decoder).flushQuantum with
    | error failure => rfl
    | ok e =>
      obtain ⟨hempty, _⟩ := flushQuantum_ok hflush
      show Except.ok { e with buffer := [], finished := true } = Except.ok { e with finished := true }
      rw [← hempty]
  rw [run_short d hlength, finish, if_neg hne, hfinished, if_neg Bool.false_ne_true, ← hfinished]
  match text, hne with
  | [a], _ | [a, b], _ | [a, b, c], _ => exact (hquantum _ _ _ _).symm
  | a :: b :: c :: x :: rest, _ =>
    simp only [List.length_cons] at hlength
    omega

/-- A quantum that goes through is one of them. -/
theorem run_quantum {rest : Bytes} (heod : d.endOfData = false)
    (h : run d (a :: b :: c :: x :: rest) = .ok e) : ∃ bytes padded, Quantum a b c x bytes padded ∧
      run { d with buffer := [], endOfData := padded, out := d.out ++ bytes } rest = .ok e := by
  by_cases hquantum : ∃ bytes padded, Quantum a b c x bytes padded
  · obtain ⟨bytes, padded, hquantum⟩ := hquantum
    rw [run, hquantum.flush heod] at h
    exact ⟨bytes, padded, hquantum, h⟩
  · obtain ⟨failure, hfailure⟩ := flushQuantum_error (d := d) fun bytes padded hsome =>
      hquantum ⟨bytes, padded, hsome⟩
    rw [run, hfailure] at h
    cases h

/-- Behind padding, only the end of the text is accepted. -/
theorem run_endOfData (heod : d.endOfData = true) (hfinished : d.finished = false)
    (h : run d text = .ok e) : text = [] ∧ e.out = d.out := by
  have hrefused : ∀ a b c x rest, run d (a :: b :: c :: x :: rest) ≠ .ok e := by
    intro a b c x rest hrun
    have hflush : ({ d with buffer := [a, b, c, x] } : Base64Decoder).flushQuantum =
        .error ⟨dataFollows d.identifier, d.out⟩ := if_pos heod
    rw [run, hflush] at hrun
    cases hrun
  match text with
  | [] =>
    cases h
    exact ⟨rfl, rfl⟩
  | [a] | [a, b] | [a, b, c] =>
    rw [run_padded hfinished (by simp) (List.cons_ne_nil _ _)] at h
    exact absurd h (hrefused _ _ _ _ _)
  | a :: b :: c :: x :: rest => exact absurd h (hrefused a b c x rest)

/-- A padded quantum is the last one. -/
theorem run_last {rest : Bytes} (hfinished : d.finished = false)
    (h : run { d with buffer := [], endOfData := true, out := bytes } rest = .ok e) :
    rest = [] ∧ e.out = bytes :=
  run_endOfData (d := { d with buffer := [], endOfData := true, out := bytes }) rfl hfinished h

/-- What is accepted is a text of the grammar, and its bytes are delivered. -/
theorem denotes_of_run (heod : d.endOfData = false) (hfinished : d.finished = false)
    (h : run d text = .ok e) : ∃ bytes, Denotes text bytes ∧ e.out = d.out ++ bytes := by
  induction hn : text.length using Nat.strong_induction_on generalizing d text with
  | _ n ih =>
  subst hn
  match text with
  | [] =>
    cases h
    exact ⟨[], .nil, (List.append_nil _).symm⟩
  | [a] =>
    rw [run_padded hfinished (by simp) (List.cons_ne_nil _ _)] at h
    obtain ⟨bytes, padded, hquantum, _⟩ := run_quantum heod h
    cases hquantum with
    | whole _ hb _ _ => exact (pad_ne_some hb).elim
    | three _ hb _ _ => exact (pad_ne_some hb).elim
    | two _ hb _ _ => exact (pad_ne_some hb).elim
  | [a, b] =>
    rw [run_padded hfinished (by simp) (List.cons_ne_nil _ _)] at h
    obtain ⟨bytes, padded, hquantum, hrest⟩ := run_quantum heod h
    cases hquantum with
    | whole _ _ hc _ => exact (pad_ne_some hc).elim
    | three _ _ hc _ => exact (pad_ne_some hc).elim
    | two ha hb _ _ => exact ⟨_, .two 0 ha hb (by decide), (run_last hfinished hrest).2⟩
  | [a, b, c] =>
    rw [run_padded hfinished (by simp) (List.cons_ne_nil _ _)] at h
    obtain ⟨bytes, padded, hquantum, hrest⟩ := run_quantum heod h
    cases hquantum with
    | whole _ _ _ hx => exact (pad_ne_some hx).elim
    | three ha hb hc _ => exact ⟨_, .three 0 ha hb hc (by decide), (run_last hfinished hrest).2⟩
    | two ha hb hc _ =>
      subst hc
      exact ⟨_, .two 1 ha hb (by decide), (run_last hfinished hrest).2⟩
  | a :: b :: c :: x :: rest =>
    obtain ⟨bytes, padded, hquantum, hrest⟩ := run_quantum heod h
    cases hquantum with
    | whole ha hb hc hx =>
      have hless : rest.length < (a :: b :: c :: x :: rest).length := by
        simp only [List.length_cons]
        omega
      obtain ⟨bytes, hdenotes, hout⟩ : ∃ bytes, Denotes rest bytes ∧ _ :=
        ih rest.length hless (by rfl) (by exact hfinished) hrest rfl
      refine ⟨_, .quantum ha hb hc hx hdenotes, ?_⟩
      rw [hout, List.append_assoc]
    | three ha hb hc hx =>
      subst hx
      obtain ⟨rfl, hout⟩ := run_last hfinished hrest
      exact ⟨_, .three 1 ha hb hc (by decide), hout⟩
    | two ha hb hc hx =>
      subst hc hx
      obtain ⟨rfl, hout⟩ := run_last hfinished hrest
      exact ⟨_, .two 2 ha hb (by decide), hout⟩

theorem run_of_padded (hquantum : Quantum a b c x bytes true) (heod : d.endOfData = false) :
    ∃ e, run d [a, b, c, x] = .ok e ∧ e.out = d.out ++ bytes := by
  rw [run, hquantum.flush heod]
  exact ⟨_, rfl, rfl⟩

/-- A text of the grammar is accepted. -/
theorem run_of_denotes (hdenotes : Denotes text bytes) (heod : d.endOfData = false)
    (hfinished : d.finished = false) : ∃ e, run d text = .ok e ∧ e.out = d.out ++ bytes := by
  induction hdenotes generalizing d with
  | nil => exact ⟨{ d with buffer := [], finished := true }, rfl, (List.append_nil _).symm⟩
  | @quantum a b c x va vb vc vx rest bytes ha hb hc hx _ ih =>
    obtain ⟨e, hrun, hout⟩ : ∃ e, run { d with
        buffer := [], endOfData := false, out := d.out ++ quantumBytes va vb vc vx } rest = .ok e ∧
          e.out = (d.out ++ quantumBytes va vb vc vx) ++ bytes := ih rfl hfinished
    rw [run, (Quantum.whole ha hb hc hx).flush heod]
    exact ⟨e, hrun, hout.trans (List.append_assoc _ _ _)⟩
  | three present ha hb hc hpresent =>
    have hlast := run_of_padded (.three ha hb hc rfl) heod
    rcases Nat.le_one_iff_eq_zero_or_eq_one.mp hpresent with rfl | rfl
    · rwa [run_padded hfinished (by simp) (List.cons_ne_nil _ _)]
    · exact hlast
  | two present ha hb hpresent =>
    have hlast := run_of_padded (.two ha hb rfl rfl) heod
    obtain rfl | rfl | rfl : present = 0 ∨ present = 1 ∨ present = 2 := by omega
    · rwa [run_padded hfinished (by simp) (List.cons_ne_nil _ _)]
    · rwa [run_padded hfinished (by simp) (List.cons_ne_nil _ _)]
    · exact hlast

theorem writeByte_finished {byte : UInt8} (h : d.writeByte byte = .ok e) :
    e.finished = d.finished := by
  rw [writeByte] at h
  split_ifs at h with hspace
  · cases h
    rfl
  dsimp only at h
  split_ifs at h with hfull
  · exact (flushQuantum_ok h).2
  · cases h
    rfl

theorem foldlM_finished (h : data.foldlM writeByte d = .ok e) : e.finished = d.finished := by
  induction data generalizing d with
  | nil =>
    cases h
    rfl
  | cons byte data ih =>
    rw [List.foldlM_cons] at h
    cases hbyte : d.writeByte byte with
    | error failure =>
      rw [hbyte] at h
      cases h
    | ok next =>
      rw [hbyte] at h
      exact (ih h).trans (writeByte_finished hbyte)

theorem writeAll_write (hfinished : d.finished = false) (chunks : List Bytes) :
    writeAll write d chunks = chunks.flatten.foldlM writeByte d := by
  induction chunks generalizing d with
  | nil => rfl
  | cons data chunks ih =>
    have hwrite : d.write data = data.foldlM writeByte d := by
      rw [write, hfinished, if_neg Bool.false_ne_true]
    rw [List.flatten_cons, List.foldlM_append, writeAll, List.foldlM_cons, hwrite]
    cases hfold : data.foldlM writeByte d with
    | error failure => rfl
    | ok next => exact ih ((foldlM_finished hfold).trans hfinished)

/-- What is delivered depends on the characters of the input only. -/
theorem decode_eq (identifier : Bytes) (chunks : List Bytes) : decode identifier chunks =
    (run { identifier := identifier } (characters chunks.flatten)).map fun d => d.out := by
  have hlength : ([] : Bytes).length < 4 := by decide
  rw [decode, writeAll_write rfl, finish_foldlM rfl hlength]
  rfl

/-- The input is accepted when it is a text of the grammar. -/
theorem decode_eq_ok (identifier : Bytes) (chunks : List Bytes) :
    decode identifier chunks = .ok bytes ↔ Denotes (characters chunks.flatten) bytes := by
  rw [decode_eq]
  constructor
  · intro h
    cases hrun : run { identifier := identifier } (characters chunks.flatten) with
    | error failure =>
      rw [hrun] at h
      cases h
    | ok e =>
      rw [hrun] at h
      cases h
      obtain ⟨bytes, hdenotes, hout⟩ := denotes_of_run rfl rfl hrun
      have hsame : e.out = bytes := hout
      subst hsame
      exact hdenotes
  · intro h
    obtain ⟨e, hrun, hout⟩ := run_of_denotes (d := { identifier := identifier }) h rfl rfl
    rw [hrun]
    exact congrArg Except.ok hout

/-! ## The round trip -/

theorem decodeValue_encodeValue {value : ℕ} (h : value < 64) :
    decodeValue (PlBase64.encodeValue value) = some value := by
  have hall : ∀ n ∈ List.range 64, decodeValue (PlBase64.encodeValue n) = some n := by decide
  exact hall value (List.mem_range.mpr h)

theorem ofNat_of_mod {n : ℕ} (h : n % 256 = x.toNat) : UInt8.ofNat n = x := by
  apply UInt8.toNat_inj.mp
  rw [UInt8.toNat_ofNat']
  exact h

variable {n : ℕ}

theorem flushEncode_three (a b c : UInt8) (n : ℕ)
    (hn : n = a.toNat * 65536 + b.toNat * 256 + c.toNat) :
    PlBase64.flushEncode [a, b, c] = [PlBase64.encodeValue (n / 262144),
      PlBase64.encodeValue (n / 4096 % 64), PlBase64.encodeValue (n / 64 % 64),
      PlBase64.encodeValue (n % 64)] := by
  subst hn
  simp [PlBase64.flushEncode, Nat.shiftLeft_eq, Nat.shiftRight_eq_div_pow]

theorem flushEncode_two (a b : UInt8) (n : ℕ) (hn : n = a.toNat * 65536 + b.toNat * 256) :
    PlBase64.flushEncode [a, b] = [PlBase64.encodeValue (n / 262144),
      PlBase64.encodeValue (n / 4096 % 64), PlBase64.encodeValue (n / 64 % 64), 0x3d] := by
  subst hn
  simp [PlBase64.flushEncode, Nat.shiftLeft_eq, Nat.shiftRight_eq_div_pow]

theorem flushEncode_one (a : UInt8) (n : ℕ) (hn : n = a.toNat * 65536) :
    PlBase64.flushEncode [a] = [PlBase64.encodeValue (n / 262144),
      PlBase64.encodeValue (n / 4096 % 64), 0x3d, 0x3d] := by
  subst hn
  simp [PlBase64.flushEncode, Nat.shiftLeft_eq, Nat.shiftRight_eq_div_pow, List.replicate_succ]

/-- A quantum of the encoder in front of an encoded text. -/
theorem denotes_flushEncode_three (a b c : UInt8) {text bytes : Bytes} (h : Denotes text bytes) :
    Denotes (PlBase64.flushEncode [a, b, c] ++ text) (a :: b :: c :: bytes) := by
  have ha := a.toNat_lt
  have hb := b.toNat_lt
  have hc := c.toNat_lt
  obtain ⟨n, hn⟩ : ∃ n, n = a.toNat * 65536 + b.toNat * 256 + c.toNat := ⟨_, rfl⟩
  have hbytes : quantumBytes (n / 262144) (n / 4096 % 64) (n / 64 % 64) (n % 64) = [a, b, c] := by
    simp only [quantumBytes, List.cons.injEq, and_true]
    exact ⟨ofNat_of_mod (by omega), ofNat_of_mod (by omega), ofNat_of_mod (by omega)⟩
  have hquantum := Denotes.quantum (decodeValue_encodeValue (by omega : n / 262144 < 64))
    (decodeValue_encodeValue (by omega : n / 4096 % 64 < 64))
    (decodeValue_encodeValue (by omega : n / 64 % 64 < 64))
    (decodeValue_encodeValue (by omega : n % 64 < 64)) h
  rw [hbytes] at hquantum
  rw [flushEncode_three a b c n hn]
  exact hquantum

theorem denotes_flushEncode_two (a b : UInt8) : Denotes (PlBase64.flushEncode [a, b]) [a, b] := by
  have ha := a.toNat_lt
  have hb := b.toNat_lt
  obtain ⟨n, hn⟩ : ∃ n, n = a.toNat * 65536 + b.toNat * 256 := ⟨_, rfl⟩
  have hbytes : (quantumBytes (n / 262144) (n / 4096 % 64) (n / 64 % 64) 0).take 2 = [a, b] := by
    simp only [quantumBytes, List.take_succ_cons, List.take_zero, List.cons.injEq, and_true]
    exact ⟨ofNat_of_mod (by omega), ofNat_of_mod (by omega)⟩
  have hlast := Denotes.three 1 (decodeValue_encodeValue (by omega : n / 262144 < 64))
    (decodeValue_encodeValue (by omega : n / 4096 % 64 < 64))
    (decodeValue_encodeValue (by omega : n / 64 % 64 < 64)) (Nat.le_refl 1)
  rw [hbytes] at hlast
  rw [flushEncode_two a b n hn]
  exact hlast

theorem denotes_flushEncode_one (a : UInt8) : Denotes (PlBase64.flushEncode [a]) [a] := by
  have ha := a.toNat_lt
  obtain ⟨n, hn⟩ : ∃ n, n = a.toNat * 65536 := ⟨_, rfl⟩
  have hbytes : (quantumBytes (n / 262144) (n / 4096 % 64) 0 0).take 1 = [a] := by
    simp only [quantumBytes, List.take_succ_cons, List.take_zero, List.cons.injEq, and_true]
    exact ofNat_of_mod (by omega)
  have hlast := Denotes.two 2 (decodeValue_encodeValue (by omega : n / 262144 < 64))
    (decodeValue_encodeValue (by omega : n / 4096 % 64 < 64)) (Nat.le_refl 2)
  rw [hbytes] at hlast
  rw [flushEncode_one a n hn]
  exact hlast

/-- What the encoder writes between two quanta stands for what it is given. -/
theorem denotes_encoded (data out : Bytes) : ∃ text,
    (({ output := out } : PlBase64).write data).finish.output = out ++ text ∧ Denotes text data := by
  match data with
  | [] => exact ⟨[], (List.append_nil _).symm, .nil⟩
  | [a] => exact ⟨_, rfl, denotes_flushEncode_one a⟩
  | [a, b] => exact ⟨_, rfl, denotes_flushEncode_two a b⟩
  | a :: b :: c :: rest =>
    obtain ⟨text, htext, hdenotes⟩ := denotes_encoded rest (out ++ PlBase64.flushEncode [a, b, c])
    refine ⟨PlBase64.flushEncode [a, b, c] ++ text, ?_, denotes_flushEncode_three a b c hdenotes⟩
    rw [← List.append_assoc]
    exact htext

theorem write_flatten (p : PlBase64) (chunks : List Bytes) :
    chunks.foldl PlBase64.write p = p.write chunks.flatten := by
  induction chunks generalizing p with
  | nil => rfl
  | cons data chunks ih => rw [List.foldl_cons, ih, List.flatten_cons, PlBase64.write_append]

/-- Decoding an encoded text gives back the bytes, however both are split and wherever white
space is put in between.  The decoder sees the input as a whole, and accepts the texts of the
grammar. -/
theorem base64_round_trip :
    (∀ (identifier : Bytes) (plain coded : List Bytes),
      characters coded.flatten = (plain.foldl PlBase64.write {}).finish.output →
        decode identifier coded = .ok plain.flatten) ∧
      (∀ (identifier : Bytes) (chunks : List Bytes),
        decode identifier chunks = decode identifier [chunks.flatten]) ∧
      ∀ (identifier : Bytes) (chunks : List Bytes) (bytes : Bytes),
        decode identifier chunks = .ok bytes ↔ Denotes (characters chunks.flatten) bytes := by
  refine ⟨?_, ?_, fun identifier chunks bytes => decode_eq_ok identifier chunks⟩
  · intro identifier plain coded hcoded
    obtain ⟨text, htext, hdenotes⟩ := denotes_encoded plain.flatten []
    rw [decode_eq_ok, hcoded, write_flatten]
    have hsame : (PlBase64.write {} plain.flatten).finish.output = text := htext
    rw [hsame]
    exact hdenotes
  · intro identifier chunks
    rw [decode_eq, decode_eq, List.flatten_singleton]

end Base64Decoder

end Flpdf
