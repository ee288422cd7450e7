import Flpdf.Encryption.Cbc
import Flpdf.Pipeline.Stage

/-! # The AES stage

`PlAesPdf` works on one block at a time.  A full block stays in the buffer until
a further byte comes, so that `finish` can add the padding or take it off.  The
first block that leaves the buffer settles the vector of the chain.
-/

namespace Flpdf

/-- `BUF_SIZE`: the bytes of an AES block. -/
abbrev AesBlock := Block 16

def zeroBlock : AesBlock := ⟨List.replicate 16 0, rfl⟩

/-- `static_initialization_vector`: the fixed vector for tests. -/
def staticInitializationVector : AesBlock :=
  ⟨(List.range 16).map fun i => 14 * (1 + i.toUInt8), rfl⟩

/-- What a vector that nobody supplied is made of: the process-wide switch and the system's
random bytes, or its refusal. -/
structure IvSource where
  useStaticIv : Bool
  fillRandom : Except Bytes AesBlock

/-- The stage. `inbuf` holds the bytes up to `offset`, `cipher` the block that the next one is
chained to, and `out` what the next stage has been given. -/
structure PlAesPdf where
  key : Bytes
  cipher : Option AesBlock := none
  encrypt : Bool
  first : Bool := true
  inbuf : {bytes : Bytes // bytes.length ≤ 16} := ⟨[], Nat.zero_le 16⟩
  cbcBlock : AesBlock := zeroBlock
  specifiedIv : AesBlock := zeroBlock
  useZeroIv : Bool := false
  useSpecifiedIv : Bool := false
  disablePadding : Bool := false
  out : Bytes := []

namespace PlAesPdf

/-- The key as the provider takes it. -/
def providerKey (key : Bytes) : Bytes :=
  if key.length = 16 ∨ key.length = 24 ∨ key.length = 32 then key
  else if key.length > 16 then key.take 16
  else key ++ List.replicate (16 - key.length) 0

def new (encrypt : Bool) (key : Bytes) : PlAesPdf := { key := providerKey key, encrypt }

def setIv (s : PlAesPdf) (iv : Bytes) : Except PipelineError PlAesPdf :=
  if h : iv.length = 16 then .ok { s with useSpecifiedIv := true, specifiedIv := ⟨iv, h⟩ }
  else .error (.logic
    (ascii "Pl_AES_PDF: specified initialization vector size in bytes must be 16"))

def initializeVector (source : IvSource) (s : PlAesPdf) : Except StageFailure PlAesPdf :=
  if s.useZeroIv then .ok { s with cbcBlock := zeroBlock }
  else if s.useSpecifiedIv then .ok { s with cbcBlock := s.specifiedIv }
  else if source.useStaticIv then .ok { s with cbcBlock := staticInitializationVector }
  else
    match source.fillRandom with
    | .ok iv => .ok { s with cbcBlock := iv }
    | .error error => .error ⟨.runtime
        (ascii "Pl_AES_PDF: OS CSPRNG unavailable for AES IV generation: " ++ error), s.out⟩

def buildCipher (s : PlAesPdf) : PlAesPdf := { s with cipher := some s.cbcBlock }

/-- What the first full block brings about; the flag says that it was the vector itself. -/
def start (source : IvSource) (s : PlAesPdf) (block : AesBlock) :
    Except StageFailure (PlAesPdf × Bool) :=
  let supplied := s.useZeroIv || s.useSpecifiedIv
  if !s.first then .ok (s, false)
  else if s.encrypt then do
    let s ← initializeVector source { s with first := false }
    let s := if supplied then s else { s with out := s.out ++ s.cbcBlock.1 }
    return (buildCipher s, false)
  else if supplied then do
    let s ← initializeVector source { s with first := false }
    return (buildCipher s, false)
  else
    .ok (buildCipher
      { s with first := false, cbcBlock := block, inbuf := ⟨[], Nat.zero_le 16⟩ }, true)

/-- How many bytes of the block stay when its padding is taken off.  A last byte above 16, or
last bytes that disagree, leave the block whole. -/
def keptBytes (outbuf : AesBlock) : ℕ :=
  let last := (outbuf.1.getD 15 0).toNat
  if last ≤ 16 ∧ ∀ i ∈ List.range last, (outbuf.1.getD (15 - i) 0).toNat = last then 16 - last
  else 16

/-- The free part of the buffer takes what it can. -/
def load (s : PlAesPdf) (data : Bytes) : PlAesPdf :=
  { s with
    inbuf := ⟨s.inbuf.1 ++ data.take (16 - s.inbuf.1.length), by
      have hlength := s.inbuf.2
      rw [List.length_append, List.length_take]
      omega⟩ }

variable (aes : BlockCipher 16) (source : IvSource)

/-- One block through the cipher: what comes out, and what the next block is chained to. -/
def process (s : PlAesPdf) (chain block : AesBlock) : AesBlock × AesBlock :=
  if s.encrypt then
    let coded := aes.encrypt s.key (xorBlock block chain)
    (coded, coded)
  else (xorBlock (aes.decrypt s.key block) chain, block)

/-- A full block goes through the cipher to the next stage. -/
def emit (s : PlAesPdf) (block : AesBlock) (stripPadding : Bool) :
    Except StageFailure PlAesPdf :=
  match s.cipher with
  | none => .error ⟨.logic (ascii "AES pipeline: cipher used before initialization"), s.out⟩
  | some chain =>
    let (outbuf, chain) := process aes s chain block
    let bytes := if stripPadding then keptBytes outbuf else 16
    .ok { s with
      cipher := some chain
      inbuf := ⟨[], Nat.zero_le 16⟩
      out := s.out ++ outbuf.1.take bytes }

def flush (s : PlAesPdf) (stripPadding : Bool) : Except StageFailure PlAesPdf :=
  if hfull : s.inbuf.1.length = 16 then do
    let block : AesBlock := ⟨s.inbuf.1, hfull⟩
    let (s, returnAfterInit) ← start source s block
    if returnAfterInit then return s
    emit aes s block stripPadding
  else .error ⟨.logic (ascii "AES pipeline: flush called when buffer was not full"), s.out⟩

/-- The flush of a buffer that is full. -/
def flushFull (s : PlAesPdf) : Except StageFailure PlAesPdf :=
  if s.inbuf.1.length = 16 then flush aes source s false else .ok s

/-- The loop of `write`; every turn takes at least one byte, so there are no more turns than
bytes. -/
def fill : ℕ → PlAesPdf → Bytes → Except StageFailure PlAesPdf
  | _, s, [] => .ok s
  | 0, s, _ => .ok s
  | turns + 1, s, rest => do
    let s ← flushFull aes source s
    fill turns (load s rest) (rest.drop (16 - s.inbuf.1.length))

def write (s : PlAesPdf) (data : Bytes) : Except StageFailure PlAesPdf :=
  fill aes source data.length s data

def finish (s : PlAesPdf) : Except StageFailure PlAesPdf :=
  if s.encrypt then do
    let s ← flushFull aes source s
    if s.disablePadding then return s
    else
      let pad := 16 - s.inbuf.1.length
      flush aes source (load s (List.replicate pad pad.toUInt8)) false
  else flush aes source (load s (List.replicate 16 0)) (!s.disablePadding)

/-- What the stage delivers for some writes. -/
def run (s : PlAesPdf) (chunks : List Bytes) : Except StageFailure Bytes := do
  let s ← writeAll (write aes source) s chunks
  let s ← finish aes source s
  return s.out

/-! ## Byte by byte -/

variable {aes source}

theorem start_inbuf {s s' : PlAesPdf} {block : AesBlock}
    (h : start source s block = .ok (s', true)) : s'.inbuf = ⟨[], Nat.zero_le 16⟩ := by
  rw [start] at h
  split at h
  · cases h
  split at h
  · obtain ⟨t, -, h⟩ := bind_eq_ok.mp h
    cases h
  split at h
  · obtain ⟨t, -, h⟩ := bind_eq_ok.mp h
    cases h
  · cases h
    rfl

theorem emit_inbuf {s s' : PlAesPdf} {block : AesBlock} {stripPadding : Bool}
    (h : emit aes s block stripPadding = .ok s') : s'.inbuf = ⟨[], Nat.zero_le 16⟩ := by
  rw [emit] at h
  split at h
  · cases h
  · cases h
    rfl

/-- A flush leaves the buffer empty. -/
theorem flush_inbuf {s s' : PlAesPdf} {stripPadding : Bool}
    (h : flush aes source s stripPadding = .ok s') : s'.inbuf = ⟨[], Nat.zero_le 16⟩ := by
  rw [flush] at h
  split at h
  · obtain ⟨⟨t, returnAfterInit⟩, hstart, h⟩ := bind_eq_ok.mp h
    cases returnAfterInit with
    | false => exact emit_inbuf h
    | true =>
      cases h
      exact start_inbuf hstart
  · cases h

theorem flushFull_length {s s' : PlAesPdf} (h : flushFull aes source s = .ok s') :
    s'.inbuf.1.length < 16 := by
  rw [flushFull] at h
  split at h
  · rw [flush_inbuf h]
    decide
  · cases h
    exact Nat.lt_of_le_of_ne s.inbuf.2 (by assumption)

theorem flushFull_eq {s : PlAesPdf} (h : s.inbuf.1.length < 16) :
    flushFull aes source s = .ok s := if_neg (Nat.ne_of_lt h)

theorem flushFull_flushFull (s : PlAesPdf) :
    (flushFull aes source s >>= flushFull aes source) = flushFull aes source s := by
  cases hflush : flushFull aes source s with
  | error failure => rfl
  | ok s' => exact flushFull_eq (flushFull_length hflush)

theorem load_inbuf {s : PlAesPdf} {data : Bytes} (h : s.inbuf.1.length + data.length ≤ 16) :
    (load s data).inbuf.1 = s.inbuf.1 ++ data := by
  simp only [load]
  rw [List.take_of_length_le (by omega)]

theorem load_full {s : PlAesPdf} (h : s.inbuf.1.length = 16) (data : Bytes) : load s data = s := by
  simp only [load, h, Nat.sub_self, List.take_zero, List.append_nil]

@[simp] theorem load_nil (s : PlAesPdf) : load s [] = s := by
  simp only [load, List.take_nil, List.append_nil]

theorem load_load (s : PlAesPdf) (data data' : Bytes) :
    load (load s data) data' = load s (data ++ data') := by
  simp only [load, List.length_append, List.length_take, List.append_assoc, List.take_append]
  congr 5
  omega

theorem load_take (s : PlAesPdf) (data : Bytes) :
    load s (data.take (16 - s.inbuf.1.length)) = load s data := by
  simp only [load, List.take_take, Nat.min_self]

variable (aes source)

/-- One byte: a full buffer is flushed before it. -/
def writeByte (s : PlAesPdf) (byte : UInt8) : Except StageFailure PlAesPdf := do
  let s ← flushFull aes source s
  return load s [byte]

variable {aes source}

/-- What the buffer has room for is only loaded. -/
theorem foldlM_writeByte_load {s : PlAesPdf} {data : Bytes}
    (h : s.inbuf.1.length + data.length ≤ 16) :
    data.foldlM (writeByte aes source) s = .ok (load s data) := by
  induction data generalizing s with
  | nil => rw [load_nil]; rfl
  | cons byte data ih =>
    rw [List.length_cons] at h
    have hload : (load s [byte]).inbuf.1.length + data.length ≤ 16 := by
      rw [load_inbuf (by simp; omega), List.length_append, List.length_singleton]
      omega
    rw [List.foldlM_cons, writeByte, flushFull_eq (by omega)]
    exact (ih hload).trans (congrArg Except.ok (load_load s [byte] data))

/-- A flush of the full buffer may come before the bytes that would bring it about. -/
theorem foldlM_writeByte_flushFull (s : PlAesPdf) {data : Bytes} (hne : data ≠ []) :
    data.foldlM (writeByte aes source) s =
      flushFull aes source s >>= fun s => data.foldlM (writeByte aes source) s := by
  cases data with
  | nil => exact absurd rfl hne
  | cons byte data =>
    have hbyte : writeByte aes source s byte =
        flushFull aes source s >>= fun s => writeByte aes source s byte := by
      conv_lhs => rw [writeByte, ← flushFull_flushFull, bind_assoc]
      rfl
    simp only [List.foldlM_cons]
    rw [hbyte, bind_assoc]

theorem fill_eq (turns : ℕ) (s : PlAesPdf) (data : Bytes) (h : data.length ≤ turns) :
    fill aes source turns s data = data.foldlM (writeByte aes source) s := by
  induction turns generalizing s data with
  | zero =>
    rw [List.eq_nil_of_length_eq_zero (Nat.le_zero.mp h)]
    rfl
  | succ turns ih =>
    cases data with
    | nil => rfl
    | cons byte data =>
      rw [foldlM_writeByte_flushFull s (List.cons_ne_nil byte data), fill]
      cases hflush : flushFull aes source s with
      | error failure => rfl
      | ok s' =>
        have hroom := flushFull_length hflush
        have hdrop : ((byte :: data).drop (16 - s'.inbuf.1.length)).length ≤ turns := by
          rw [List.length_drop]
          omega
        have htake : s'.inbuf.1.length +
            ((byte :: data).take (16 - s'.inbuf.1.length)).length ≤ 16 := by
          rw [List.length_take]
          omega
        rw [ok_bind, ok_bind, ih _ _ hdrop]
        conv_rhs => rw [← List.take_append_drop (16 - s'.inbuf.1.length) (byte :: data)]
        rw [List.foldlM_append, foldlM_writeByte_load htake, load_take, ok_bind]
      · simp

theorem write_eq (s : PlAesPdf) (data : Bytes) :
    write aes source s data = data.foldlM (writeByte aes source) s :=
  fill_eq _ s data le_rfl

/-- What the stage delivers does not depend on the splitting of its input. -/
theorem run_eq (s : PlAesPdf) (chunks : List Bytes) :
    run aes source s chunks =
      (do
        let s ← chunks.flatten.foldlM (writeByte aes source) s
        let s ← finish aes source s
        return s.out) := by
  have hwrite : write aes source = fun s data => data.foldlM (writeByte aes source) s := by
    funext s data
    exact write_eq s data
  rw [run, hwrite, writeAll_foldlM]

end PlAesPdf

end Flpdf
